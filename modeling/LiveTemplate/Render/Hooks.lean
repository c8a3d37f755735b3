import LiveTemplate.Program.Basic
import LiveTemplate.Program.Builtin
import LiveTemplate.Render.World

/-!
# LiveTemplate.Render.Hooks

Hooks and helpers: what is called at the sites of a program.

Every site is rendered by calling a hook.  Most hooks look for a helper of the name
that is called, and fall back to the value of the path.  A helper gets the scope, the
evaluated arguments, and an `Invocation` that tells where it was called.
-/

namespace LiveTemplate

/-- What a helper is told besides its arguments. -/
structure Invocation where
  /-- The morph that will show the result, at places where content is shown. -/
  morph : Option MorphId := none
  /-- The element of a modifier or of an attribute. -/
  element : Option NodeId := none
  paramTypes : List ParamType := []
  hashTypes : List (String × ParamType) := []
  /-- How many block params the body binds, if it binds any. -/
  blockParams : Option Nat := none
  /-- Whether the callee is a literal. -/
  isLiteral : Bool := false
  /-- The element as whose content bodies are rendered. -/
  context : Option NodeId := none
  scope : Scope := {}
  body : Option Program := none
  inverse : Option Program := none

instance : Inhabited Invocation := ⟨{}⟩

namespace Invocation

/-- The invocation of a call. -/
def ofCall (call : Call) (scope : Scope) : Invocation :=
  { paramTypes := call.paramTypes, hashTypes := call.hashTypes
    isLiteral := call.literal.isSome, scope }

/-- The type of the first pair with a key. -/
def hashType? (i : Invocation) (key : String) : Option ParamType := i.hashTypes.lookup key

end Invocation

/-- Evaluated hash pairs; of pairs with one key the last counts. -/
abbrev Hash := Dict Value

/-- The function of a helper. -/
abbrev HelperFn (σ : Type) := Scope → List Value → Hash → Invocation → Render σ Value

/-- A helper. -/
inductive Helper (σ : Type) where
  | builtin (builtin : Builtin)
  | custom (run : HelperFn σ)

/-- The hooks that render the sites of a program. -/
structure Hooks (σ : Type) where
  /-- The helper of a name. -/
  lookupHelper : String → Scope → Render σ (Option (Helper σ))
  /-- The value of a path. -/
  simple : Scope → String → Render σ Value
  /-- Shows what a mustache or a block calls. -/
  content : MorphId → String → Scope → List Value → Hash → Invocation → Render σ Unit
  /-- Shows a component, whose hash is not evaluated yet. -/
  component : MorphId → String → Scope → List (String × Param) → Invocation → Render σ Unit
  /-- What is shown of a component without a helper. -/
  componentFallback :
    MorphId → String → Scope → List (String × Param) → Invocation → Render σ Value
  /-- Runs the modifier of an element. -/
  element : NodeId → String → Scope → List Value → Hash → Invocation → Render σ Unit
  /-- Sets a dynamic attribute; paths among its parts are not evaluated yet. -/
  attr : NodeId → String → Bool → Scope → List Value → Invocation → Render σ Unit
  /-- Joins the parts of an attribute value. -/
  concat : Scope → List Value → Invocation → Render σ Value
  /-- The value of a call in parentheses. -/
  subexpr : String → Scope → List Value → Hash → Invocation → Render σ Value
  /-- Renders a partial. -/
  renderPartial : Scope → List Value → Hash → Invocation → Render σ Value
  /-- Changes an entry of the context. -/
  set : Scope → String → Value → Render σ Unit

variable {σ : Type}

/-- The hooks that are called when calls are nested too deep. -/
def Hooks.exhausted : Hooks σ where
  lookupHelper _ _ := .exhausted
  simple _ _ := .exhausted
  content _ _ _ _ _ _ := .exhausted
  component _ _ _ _ _ := .exhausted
  componentFallback _ _ _ _ _ := .exhausted
  element _ _ _ _ _ _ := .exhausted
  attr _ _ _ _ _ _ := .exhausted
  concat _ _ _ := .exhausted
  subexpr _ _ _ _ _ := .exhausted
  renderPartial _ _ _ _ := .exhausted
  set _ _ _ := .exhausted

/-! ## arguments -/

/-- The value of a literal; paths and calls yield their name. -/
def Param.literalValue : Param → Value
  | .id s => .string s
  | .string s => .string s
  | .number x => .number x
  | .boolean b => .bool b
  | .call c => .string c.path

mutual

/-- The value of a param: paths are looked up, calls are called, literals stay. -/
def evaluateParam (hooks : Hooks σ) (scope : Scope) : Param → Render σ Value
  | .id path => hooks.simple scope path
  | .call c => evaluateCall hooks scope c
  | .string s => pure (.string s)
  | .number x => pure (.number x)
  | .boolean b => pure (.bool b)

/-- The value of a call in parentheses.  A literal callee is the value, whatever its arguments. -/
def evaluateCall (hooks : Hooks σ) (scope : Scope) : Call → Render σ Value
  | ⟨_, some literal, _, _⟩ => pure literal.literalValue
  | ⟨path, none, params, hash⟩ => do
    let values ← evaluateParams hooks scope params
    let pairs ← evaluatePairs hooks scope hash
    hooks.subexpr path scope values (.ofPairs pairs) (.ofCall ⟨path, none, params, hash⟩ scope)

def evaluateParams (hooks : Hooks σ) (scope : Scope) : List Param → Render σ (List Value)
  | [] => pure []
  | p :: ps => do
    let value ← evaluateParam hooks scope p
    let values ← evaluateParams hooks scope ps
    pure (value :: values)

def evaluatePairs (hooks : Hooks σ) (scope : Scope) :
    List (String × Param) → Render σ (List (String × Value))
  | [] => pure []
  | (key, p) :: pairs => do
    let value ← evaluateParam hooks scope p
    let values ← evaluatePairs hooks scope pairs
    pure ((key, value) :: values)

end

/-- The evaluated hash of a call or of a component. -/
def evaluateHash (hooks : Hooks σ) (scope : Scope) (pairs : List (String × Param)) :
    Render σ Hash := do
  return .ofPairs (← evaluatePairs hooks scope pairs)

/-- The evaluated arguments of a call. -/
def evaluateArguments (hooks : Hooks σ) (scope : Scope) (call : Call) :
    Render σ (List Value × Hash) := do
  let values ← evaluateParams hooks scope call.params
  let hash ← evaluateHash hooks scope call.hash
  return (values, hash)

end LiveTemplate
