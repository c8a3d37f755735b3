import LiveTemplate.Proofs.Dom.Planting

/-!
# LiveTemplate.Proofs.Dom.Inheriting

Namespaces that are handed down.

The rule goes from the top down: an element is in the namespace that its tag fixes, and
else in the one that its parent hands down.  `Tree.Inherits` states it of trees, whose
roots inherit what the place they stand in hands down; `Dom.inherited` is what a node of
a document inherits, and for trees that a document holds both come to the same
(`HoldsAll.inheritsAll_iff`).
-/

namespace LiveTemplate

/-! ## trees -/

/-- An element is in the namespace that its tag fixes, or else in the one it inherits. -/
def NodeData.Inherits (inherited : Namespace) (data : NodeData) : Prop :=
  ∀ tag ns attributes, data = .element tag ns attributes → ns = .ofElement tag inherited

theorem NodeData.inherits_element {inherited ns : Namespace} {tag : String}
    {attributes : Dict String} :
    (NodeData.element tag ns attributes).Inherits inherited ↔ ns = .ofElement tag inherited :=
  ⟨fun h => h _ _ _ rfl, fun h _ _ _ heq => by cases heq; exact h⟩

/-- What is no element is in no namespace. -/
theorem NodeData.inherits_of_not_isElement {data : NodeData} (h : data.isElement = false)
    (inherited : Namespace) : data.Inherits inherited := by
  rintro tag ns attributes rfl
  cases h

mutual

/-- Every element of a tree is in the namespace that its tag fixes, or else in the one that the
node above it hands down.  The root inherits `inherited`. -/
def Tree.Inherits {α : Type} (inherited : Namespace) : Tree α → Prop
  | .node _ data ts => data.Inherits inherited ∧ InheritsAll data.nsBelow ts

/-- Every element of trees is in the namespace it inherits or its tag fixes. -/
def InheritsAll {α : Type} (inherited : Namespace) : List (Tree α) → Prop
  | [] => True
  | t :: ts => t.Inherits inherited ∧ InheritsAll inherited ts

end

/-- The rule is about trees without their labels. -/
theorem inheritsAll_numberForest {inherited : Namespace} (first : Nat) (ts : List Markup) :
    InheritsAll inherited (numberForest first ts) ↔ InheritsAll inherited ts := by
  induction ts using forest_induction generalizing inherited first with
  | nil => exact Iff.rfl
  | cons _ data kids ts ihkids ihts =>
    rw [numberForest, numberTree, InheritsAll, Tree.Inherits, ihkids, ihts, InheritsAll,
      Tree.Inherits]

/-! ## documents -/

namespace Dom

/-- The namespace that a node inherits from its parent; below `fragment` that is `root`. -/
def inherited (dom : Dom) (fragment : NodeId) (root : Namespace) (x : NodeId) : Namespace :=
  if dom.parent? x = some fragment then root else dom.nsBelow (dom.parent? x)

/-- The namespaces of held trees follow the rule when those of their nodes do. -/
theorem HoldsAll.inheritsAll_iff {dom : Dom} {fragment q : NodeId} {root inherited : Namespace}
    {ts : List (Tree NodeId)} (h : dom.HoldsAll (some q) ts)
    (hinherited : inherited = if q = fragment then root else (dom.data q).nsBelow)
    (hfragment : fragment ∉ forestLabels ts) :
    InheritsAll inherited ts ↔
      ∀ x ∈ forestLabels ts, (dom.data x).Inherits (dom.inherited fragment root x) := by
  induction ts using forest_induction generalizing q inherited with
  | nil => simp [InheritsAll, forestLabels]
  | cons id data kids ts ihkids ihts =>
    obtain ⟨⟨-, hrecord, hkids⟩, hts⟩ := h
    simp only [forestLabels, Tree.labels, List.cons_append, List.mem_cons, List.mem_append,
      not_or] at hfragment
    obtain ⟨hid, hbelow, hrest⟩ := hfragment
    have hdata : dom.data id = data := data_of_record hrecord
    have hself : dom.inherited fragment root id = inherited := by
      rw [Dom.inherited, Dom.parent?, hrecord, hinherited]
      simp only [Option.some.injEq]
      rfl
    have hkidsiff : InheritsAll data.nsBelow kids ↔
        ∀ x ∈ forestLabels kids, (dom.data x).Inherits (dom.inherited fragment root x) :=
      ihkids hkids (by rw [if_neg (Ne.symm hid), hdata]) hbelow
    have htsiff := ihts hts hinherited hrest
    simp only [InheritsAll, Tree.Inherits, forestLabels, Tree.labels, List.cons_append,
      List.mem_cons, List.mem_append, hkidsiff, htsiff]
    constructor
    · rintro ⟨⟨hroot, hkids⟩, hts⟩ x (rfl | hx | hx)
      · rw [hdata, hself]
        exact hroot
      · exact hkids x hx
      · exact hts x hx
    · intro hall
      refine ⟨⟨?_, fun x hx => hall x (.inr (.inl hx))⟩, fun x hx => hall x (.inr (.inr hx))⟩
      have hroot := hall id (.inl rfl)
      rwa [hdata, hself] at hroot

end Dom

end LiveTemplate
