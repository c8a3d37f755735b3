import LiveTemplate.Program.Compile
import LiveTemplate.Session.Overrides

/-!
# LiveTemplate.Session.Basic

Sessions: an environment and a world that are used step by step.

A session numbers the morphs it makes: those at the top of its renders, and those
made by hand.  It remembers where each belongs, so that it can be refreshed from the
scope of its render and shown with the rest of it.
-/

namespace LiveTemplate

/-- A morph of a session.  One that was made by hand belongs to no render. -/
structure SessionMorph where
  id : MorphId
  root : Option NodeId := none
  scope : Scope := {}

/-- An environment and a world in use. -/
structure Session where
  world : World Journal := { notes := [] }
  env : Environment Journal := {}
  /-- The objects that descriptions of values may name. -/
  names : Dict ObjectId := {}
  morphs : Array SessionMorph := #[]

instance : Inhabited Session := ⟨{}⟩

namespace Session

/-- How deep calls of hooks may be nested in a step of a session. -/
def depth : Nat := 2000

/-- A session whose objects are described. -/
def create (objects : List (String × List (String × Datum))) : Session :=
  let (names, heap) := Heap.createNamed {} objects
  { world := { heap, notes := [] }, names }

/-- The hooks that steps call. -/
def hooks (s : Session) : Hooks Journal := s.env.hooks depth

/-- Runs a computation on the world. -/
def run {α : Type} (s : Session) (r : Render Journal α) : Option (α × Session) :=
  (r s.world).map fun (a, world) => (a, { s with world })

/-- Changes the document. -/
def mapDom (s : Session) (f : Dom → Dom) : Session :=
  { s with world := { s.world with dom := f s.world.dom } }

/-- Makes a value from its description. -/
def make (s : Session) (datum : Datum) : Value × Session :=
  let (value, heap) := datum.make s.names s.world.heap
  (value, { s with world := { s.world with heap } })

/-- Makes values from their descriptions. -/
def makeAll (s : Session) (data : List Datum) : List Value × Session :=
  let (values, heap) := makeItems s.names data s.world.heap
  (values, { s with world := { s.world with heap } })

/-- The entries of the journal since it was last read, in order. -/
def takeJournal (s : Session) : List Entry × Session :=
  (s.world.notes.reverse, { s with world := { s.world with notes := [] } })

/-! ## the environment -/

/-- Registers a helper, in place of one with that name. -/
def registerHelper (s : Session) (name : String) (recipe : Recipe) : Session :=
  { s with env := { s.env with helpers := s.env.helpers.set name (recipe.run s.names name) } }

/-- Compiles a source and registers it as a partial. -/
def registerPartial (s : Session) (name source : String) : Except ParseError Session :=
  (Program.ofSource {} source).map fun p =>
    { s with env := { s.env with partials := s.env.partials.set name p } }

/-- Replaces hooks; those that are not described are the default ones. -/
def replaceHooks (s : Session) (o : Overrides) : Session :=
  { s with env := { s.env with overrides := o.apply s.names } }

/-- Sets an entry of a named object. -/
def setEntry (s : Session) (object name : String) (value : Value) : Session :=
  match s.names.get? object with
  | none => s
  | some id => { s with world := { s.world with heap := s.world.heap.set id name value } }

/-! ## renders and morphs -/

/-- Renders a program and numbers its morphs. -/
def render (s : Session) (p : Program) (scope : Scope) (context : Option NodeId) :
    Option (Rendered × Session) :=
  (s.run (p.render s.hooks scope context)).map fun (rendered, s) =>
    let own := rendered.morphs.map fun id => { id, root := some rendered.root.node, scope }
    (rendered, { s with morphs := s.morphs ++ own.toArray })

/-- Makes a morph by hand.  The result is its number in the session. -/
def addMorph (s : Session) (m : Morph) : Nat × Session :=
  let (id, world) := s.world.addMorph m
  (s.morphs.size, { s with world, morphs := s.morphs.push { id } })

/-- Shows a value in a morph. -/
def updateMorph (s : Session) (m : SessionMorph) (value : Value) : Session :=
  { s with world := s.world.updateMorph m.id value }

/-- Changes the fields of a morph that anyone may change. -/
def modifyMorph (s : Session) (m : SessionMorph) (f : Morph → Morph) : Session :=
  { s with world := s.world.modifyMorph m.id f }

/-- Shows the value of a path in a morph, as the scope of its render has it. -/
def refreshMorph (s : Session) (m : SessionMorph) (path : String) : Option Session :=
  (s.run (s.hooks.simple m.scope path)).map fun (value, s) => s.updateMorph m value

/-- What is shown of a morph. -/
def outline? (s : Session) (m : SessionMorph) : Option MorphOutline :=
  (s.world.morph? m.id).map (·.outline s.world.heap)

/-- The HTML around a morph: of the root of its render, or of its anchor's parent. -/
def htmlAround? (s : Session) (m : SessionMorph) : Option String :=
  let node := match m.root with
    | some root => some root
    | none => (s.world.morph? m.id).bind fun morph => s.world.dom.parent? morph.anchor
  node.map s.world.dom.html

end Session

end LiveTemplate
