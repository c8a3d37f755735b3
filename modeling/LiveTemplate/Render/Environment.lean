import LiveTemplate.Render.Program

/-!
# LiveTemplate.Render.Environment

Environments: the helpers, partials and hooks that renders use.

The default hooks call each other through the table they are given, so that a hook
that is replaced is replaced everywhere.  The table refers to itself; `Environment.hooks`
unfolds it to a given depth, which bounds how deep calls of hooks are nested.
-/

namespace LiveTemplate

variable {σ : Type}

/-! ## bodies -/

/-- Renders a body with a context and arguments for its block params.  Without a body there is
nothing. -/
def Invocation.renderBody (i : Invocation) (hooks : Hooks σ) (body : Option Program)
    (context : Value) (element : Option NodeId) (arguments : List Value) : Render σ Value :=
  match body with
  | none => pure .undefined
  | some p => do
    let scope := (i.scope.withContext context).bind p.blockParams arguments
    let rendered ← p.render hooks scope (element.or i.context)
    return .node rendered.root.node

/-- Renders the body of a block or of a component. -/
def Invocation.render (i : Invocation) (hooks : Hooks σ) (context : Value)
    (element : Option NodeId) (arguments : List Value) : Render σ Value :=
  i.renderBody hooks i.body context element arguments

/-- Renders the part of a block behind `else`. -/
def Invocation.renderInverse (i : Invocation) (hooks : Hooks σ) (context : Value)
    (element : Option NodeId) (arguments : List Value) : Render σ Value :=
  i.renderBody hooks i.inverse context element arguments

/-! ## helpers -/

/-- The texts of values, joined. -/
def joinedText (values : List Value) : String := String.join (values.map Value.text)

/-- Calls a builtin helper. -/
def Builtin.run (b : Builtin) (hooks : Hooks σ) : HelperFn σ := fun scope params hash invocation =>
  match b with
  | .concat => pure (.string (joinedText params))
  | .renderPartial => hooks.renderPartial scope params hash invocation
  | .setAttribute =>
    match invocation.element, params with
    | some element, name :: values => do
      Render.changeDom fun dom => dom.setAttribute element name.text (joinedText values)
      return .undefined
    | _, _ => pure .undefined

/-- Calls a helper. -/
def Helper.run (h : Helper σ) (hooks : Hooks σ) : HelperFn σ :=
  match h with
  | builtin b => b.run hooks
  | custom run => run

/-! ## default hooks -/

/-- The helpers, partials and hooks of renders. -/
structure Environment (σ : Type) where
  /-- Registered helpers, as functions of the hooks they may call. -/
  helpers : Dict (Hooks σ → HelperFn σ) := {}
  partials : Dict Program := {}
  /-- The hooks, given the table they may call and the default ones. -/
  overrides : Hooks σ → Hooks σ → Hooks σ := fun _ defaults => defaults

namespace Hooks

/-- Registered helpers come before builtin ones. -/
def defaultLookup (env : Environment σ) (self : Hooks σ) (name : String) : Option (Helper σ) :=
  match env.helpers.get? name with
  | some run => some (.custom (run self))
  | none => (Builtin.ofName? name).map .builtin

/-- The value of an attribute: joined if it is quoted, its only part otherwise. -/
def attributeValue (self : Hooks σ) (quoted : Bool) (scope : Scope) (parts : List Value)
    (invocation : Invocation) : Render σ Value :=
  if quoted then self.concat scope parts invocation
  else
    match parts, invocation.paramTypes with
    | part :: _, .id :: _ => self.simple scope part.text
    | part :: _, _ => pure part
    | [], _ => pure .undefined

/-- The texts of parts, those of paths being looked up; a part without a type is none. -/
def partTexts (self : Hooks σ) (scope : Scope) : List Value → List ParamType →
    Render σ (List String)
  | [], _ => pure []
  | part :: parts, types => do
    let value ← if types.head? = some .id then self.simple scope part.text else pure part
    let texts ← partTexts self scope parts types.tail
    return value.text :: texts

/-- Sets attributes from hash pairs, in order; nullish values set none. -/
def setAttributes (self : Hooks σ) (scope : Scope) (element : NodeId) :
    List (String × Param) → Render σ Unit
  | [] => pure ()
  | (name, param) :: pairs => do
    let value ← evaluateParam self scope param
    if !value.isNullish then
      Render.changeDom fun dom => dom.setAttribute element name value.text
    setAttributes self scope element pairs

/-- The element as whose content a morph reads HTML. -/
def morphContext (morph : Option MorphId) : Render σ (Option NodeId) :=
  Render.read fun w => (morph.bind w.morph?).bind (·.context)

/-- The hooks of an environment that replaces none; `self` is the table they call. -/
def defaults (env : Environment σ) (self : Hooks σ) : Hooks σ where
  lookupHelper name _ := pure (defaultLookup env self name)
  simple scope path := Render.read fun w => scope.lookup w.heap path
  content morph path scope params hash invocation := do
    let value ← match ← self.lookupHelper path scope with
      | some helper => helper.run self scope params hash invocation
      | none =>
        if invocation.isLiteral then pure (.string path) else self.simple scope path
    Render.updateMorph morph value
  component morph tag scope hash invocation := do
    let value ← match ← self.lookupHelper tag scope with
      | some helper => do
        let hash ← evaluateHash self scope hash
        helper.run self scope [] hash invocation
      | none => self.componentFallback morph tag scope hash invocation
    Render.updateMorph morph value
  componentFallback morph tag scope hash invocation := do
    let context ← morphContext (some morph)
    let element ← Render.runDom fun dom =>
      dom.create (.element tag (Namespace.ofElement tag (dom.nsBelow context)) {})
    setAttributes self scope element hash
    match ← invocation.render self scope.context (some element) [] with
    | .node body => Render.changeDom fun dom => dom.appendChild element body
    | _ => pure ()
    return .node element
  element element path scope params hash invocation := do
    match ← self.lookupHelper path scope with
    | some helper =>
      let _ ← helper.run self scope params hash { invocation with element := some element }
    | none => pure ()
  attr element name quoted scope parts invocation := do
    let value ← attributeValue self quoted scope parts invocation
    Render.changeDom fun dom =>
      if value.isNullish then dom.removeAttribute element name
      else dom.setAttribute element name value.text
  concat scope parts invocation := do
    return .string (String.join (← partTexts self scope parts invocation.paramTypes))
  subexpr path scope params hash invocation := do
    match ← self.lookupHelper path scope with
    | some helper => helper.run self scope params hash invocation
    | none => self.simple scope path
  renderPartial scope params _ invocation := do
    match env.partials.get? ((params.head?.map Value.text).getD "") with
    | none => return .undefined
    | some p =>
      let context := (← morphContext invocation.morph).or invocation.context
      let rendered ← p.render self scope context
      return .node rendered.root.node
  set scope name value :=
    match scope.context with
    | .object id => modify fun w => { w with heap := w.heap.set id name value }
    | _ => pure ()

end Hooks

namespace Environment

/-- The hooks of an environment, for calls nested no deeper than `depth`. -/
def hooks (env : Environment σ) : Nat → Hooks σ
  | 0 => .exhausted
  | depth + 1 =>
    let self := env.hooks depth
    env.overrides self (.defaults env self)

end Environment

end LiveTemplate
