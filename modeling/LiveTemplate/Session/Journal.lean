import LiveTemplate.Render.Hooks
import LiveTemplate.Value.Datum

/-!
# LiveTemplate.Session.Journal

The journal of a session: which helpers and hooks were called, and with what.

Entries show values as they were at the time of the call.
-/

namespace LiveTemplate

/-- What is shown of a morph. -/
structure MorphOutline where
  anchor : NodeId
  nodes : List NodeId
  escaped : Bool
  context : Option NodeId
  value : Option Outline

/-- What is shown of an invocation. -/
structure InvocationOutline where
  paramTypes : List ParamType
  hashTypes : List (String × ParamType)
  blockParams : Option Nat
  isLiteral : Bool
  hasBody : Bool
  hasInverse : Bool
  morph : Option MorphOutline
  element : Option NodeId
  context : Option NodeId

/-- What is shown of arguments and of the invocation they came with. -/
structure ArgumentsOutline where
  params : List Outline
  hash : List (String × Outline)

/-- A call of a helper or of a hook. -/
inductive Entry where
  | helper (name : String) (this : Outline) (arguments : ArgumentsOutline)
      (invocation : InvocationOutline)
  /-- The helper found is a builtin one, or one without a name of its own. -/
  | lookupHelper (name : String) (found : Option (Option Builtin))
  | simple (path : String) (value : Outline)
  | content (path : String) (arguments : ArgumentsOutline) (invocation : InvocationOutline)
  | component (tag : String) (hash : List (String × Param)) (invocation : InvocationOutline)
  | componentFallback (tag : String) (hash : List (String × Param))
  | element (node : NodeId) (path : String) (arguments : ArgumentsOutline)
  | attr (node : NodeId) (name : String) (quoted : Bool) (parts : List Outline)
      (invocation : InvocationOutline)
  | concat (parts : List Outline)
  | subexpr (path : String) (arguments : ArgumentsOutline) (invocation : InvocationOutline)
  | renderPartial (arguments : ArgumentsOutline)
  | set (name : String) (value : Outline)

/-- The calls since the journal was last read, latest first. -/
abbrev Journal := List Entry

/-! ## outlines -/

def Morph.outline (heap : Heap) (m : Morph) : MorphOutline :=
  { anchor := m.anchor, nodes := m.nodes, escaped := m.escaped, context := m.context
    value := m.value.map (·.outline heap) }

namespace World

variable {σ : Type}

def outline (w : World σ) (value : Value) : Outline := value.outline w.heap

def arguments (w : World σ) (params : List Value) (hash : Hash) : ArgumentsOutline :=
  { params := params.map w.outline
    hash := hash.entries.map fun (key, value) => (key, w.outline value) }

def invocation (w : World σ) (i : Invocation) : InvocationOutline :=
  { paramTypes := i.paramTypes
    hashTypes := i.hashTypes
    blockParams := i.blockParams
    isLiteral := i.isLiteral
    hasBody := i.body.isSome
    hasInverse := i.inverse.isSome
    morph := (i.morph.bind w.morph?).map (·.outline w.heap)
    element := i.element
    context := i.context }

end World

/-- Writes an entry into the journal. -/
def Render.record (entry : World Journal → Entry) : Render Journal Unit :=
  .note fun w => entry w :: w.notes

end LiveTemplate
