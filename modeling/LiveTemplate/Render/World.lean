import LiveTemplate.Morph
import LiveTemplate.Value.Scope

/-!
# LiveTemplate.Render.World

What renders read and change: the document, the objects, the morphs, and notes that
helpers keep for themselves.

A render is a step from one world to the next.  It has no result when calls of hooks
are nested deeper than was allowed for.
-/

namespace LiveTemplate

/-- The number of a morph. -/
structure MorphId where
  index : Nat
deriving DecidableEq, Repr, Inhabited

/-- The state that renders share; `σ` is the type of the notes. -/
structure World (σ : Type) where
  dom : Dom := {}
  heap : Heap := {}
  morphs : Array Morph := #[]
  notes : σ

/-- A computation on a world, which may be nested too deep to have a result. -/
abbrev Render (σ : Type) (α : Type) := StateT (World σ) Option α

variable {σ : Type}

namespace World

def morph? (w : World σ) (id : MorphId) : Option Morph := w.morphs[id.index]?

/-- Registers a morph. -/
def addMorph (w : World σ) (m : Morph) : MorphId × World σ :=
  (⟨w.morphs.size⟩, { w with morphs := w.morphs.push m })

/-- Changes a morph. -/
def modifyMorph (w : World σ) (id : MorphId) (f : Morph → Morph) : World σ :=
  { w with morphs := w.morphs.modify id.index f }

/-- Shows a value in a morph. -/
def updateMorph (w : World σ) (id : MorphId) (value : Value) : World σ :=
  match w.morph? id with
  | none => w
  | some m =>
    let (m, dom) := m.update value w.dom
    { (w.modifyMorph id fun _ => m) with dom }

/-- Shows nothing in a morph. -/
def clearMorph (w : World σ) (id : MorphId) : World σ :=
  match w.morph? id with
  | none => w
  | some m =>
    let (m, dom) := m.clear w.dom
    { (w.modifyMorph id fun _ => m) with dom }

theorem clearMorph_eq (w : World σ) (id : MorphId) : w.clearMorph id = w.updateMorph id .null := by
  simp only [clearMorph, Morph.clear_eq, updateMorph]

end World

namespace Render

/-- The outcome of calls that are nested too deep. -/
def exhausted {α : Type} : Render σ α := fun _ => none

/-- Reads from the world. -/
def read {α : Type} (f : World σ → α) : Render σ α := do return f (← get)

/-- Changes the document. -/
def changeDom (f : Dom → Dom) : Render σ Unit := modify fun w => { w with dom := f w.dom }

/-- Changes the document by an operation with a result. -/
def runDom {α : Type} (f : Dom → α × Dom) : Render σ α :=
  modifyGet fun w =>
    let (a, dom) := f w.dom
    (a, { w with dom })

/-- Registers a morph. -/
def addMorph (m : Morph) : Render σ MorphId := modifyGet fun w => w.addMorph m

/-- Shows a value in a morph. -/
def updateMorph (id : MorphId) (value : Value) : Render σ Unit :=
  modify fun w => w.updateMorph id value

/-- Makes a note. -/
def note (f : World σ → σ) : Render σ Unit := modify fun w => { w with notes := f w }

end Render

end LiveTemplate
