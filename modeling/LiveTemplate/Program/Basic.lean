import LiveTemplate.Expr.Basic
import LiveTemplate.Markup.Namespace

/-!
# LiveTemplate.Program.Basic

Compiled templates.

A program is made once and rendered any number of times.  Its instructions build
the static tree; every dynamic part of it is a site, addressed by the child indices
that lead to its node.  Blocks and components refer to the programs of their bodies
by number.
-/

namespace LiveTemplate

/-- A step of building the static tree.  An element that is opened is the parent of what
follows, until it is closed. -/
inductive Instruction where
  /-- Without a namespace the element inherits that of the place it is rendered in. -/
  | openElement (tag : String) (ns : Option Namespace)
  | setAttribute (name value : String)
  | closeElement
  | text (text : String)
  | comment (text : String)
  /-- An empty text, in front of which content is shown. -/
  | placeholder
deriving DecidableEq, Repr

/-- What happens at a site. -/
inductive Action where
  | content (call : Call) (escaped : Bool)
  | block (call : Call) (program : Nat) (inverse : Option Nat)
  | component (tag : String) (hash : List (String × Param)) (program : Nat)
  | attr (name : String) (quoted : Bool) (parts : List Param)
  | modifier (call : Call)

/-- A dynamic part of a program and the child indices that lead to its node. -/
structure Site where
  path : List Nat
  action : Action

/-- What a program may use. -/
inductive Feature where
  | content
  | block
  | component
  | attr
  | modifier
  | partials
deriving DecidableEq, Repr

def Feature.all : List Feature := [content, block, component, attr, modifier, partials]

/-- A set of features. -/
structure Features where
  has : Feature → Bool

namespace Features

def empty : Features := ⟨fun _ => false⟩

def singleton (f : Feature) : Features := ⟨fun g => g == f⟩

def union (a b : Features) : Features := ⟨fun f => a.has f || b.has f⟩

/-- The features of a set, in their order. -/
def toList (a : Features) : List Feature := Feature.all.filter a.has

def ofList (fs : List Feature) : Features := ⟨fs.contains⟩

def isEmpty (a : Features) : Bool := a.toList.isEmpty

theorem isEmpty_iff {a : Features} : a.isEmpty ↔ ∀ f, a.has f = false := by
  constructor
  · intro h f
    simp only [isEmpty, toList, List.isEmpty_iff, List.filter_eq_nil_iff, Bool.not_eq_true] at h
    exact h f (by cases f <;> simp [Feature.all])
  · intro h
    simp [isEmpty, toList, List.filter_eq_nil_iff, h]

end Features

instance : Inhabited Features := ⟨Features.empty⟩

/-- A compiled template or body. -/
structure Program where
  build : List Instruction := []
  sites : List Site := []
  children : List Program := []
  blockParams : List String := []
  features : Features := Features.empty

instance : Inhabited Program := ⟨{}⟩

namespace Program

/-- Whether rendering ends with the static tree. -/
def isStatic (p : Program) : Bool := p.features.isEmpty

/-- One program after the other. -/
def append (p q : Program) : Program :=
  { build := p.build ++ q.build
    sites := p.sites ++ q.sites
    children := p.children ++ q.children
    blockParams := p.blockParams ++ q.blockParams
    features := p.features.union q.features }

instance : Append Program := ⟨append⟩

/-- A program of one instruction. -/
def instruction (i : Instruction) : Program := { build := [i] }

end Program

/-- The feature that a site makes use of. -/
def Action.feature : Action → Feature
  | content .. => .content
  | block .. => .block
  | component .. => .component
  | attr .. => .attr
  | modifier .. => .modifier

/-- A program of nothing but a site. -/
def Program.site (s : Site) : Program :=
  { sites := [s], features := .singleton s.action.feature }

end LiveTemplate
