import LiveTemplate.Proofs.Repeating.Twins
import LiveTemplate.Render.Environment

/-!
# LiveTemplate.Proofs.Repeating.Showing

Morphs of twins, which show the same.

Values are alike if they are the same, or nodes that are twins.  Updating morphs that are
alike with values that are alike keeps the morphs alike, and the documents grown alike
(`Morph.Alike.update`): the morphs show the value already or not, stand somewhere or not,
and change their text or replace their nodes, both in the same way.
-/

namespace LiveTemplate

/-! ## values -/

section Alike

variable (s s' : Start)

/-- Values that are the same, apart from nodes that are twins. -/
inductive Value.Alike : Value → Value → Prop where
  | same (value : Value) (h : value.isNode = false) : Alike value value
  | twins {a b : NodeId} (h : a.Twin s s' b) : Alike (.node a) (.node b)

/-- Morphs in front of twins, which show the same. -/
structure Morph.Alike (m m' : Morph) : Prop where
  anchor : m.anchor.Twin s s' m'.anchor
  nodes : List.Forall₂ (NodeId.Twin s s') m.nodes m'.nodes
  escaped : m.escaped = m'.escaped
  context : s.Place s' m.context m'.context
  value : Option.Rel (Value.Alike s s') m.value m'.value
  shownEscaped : m.shownEscaped = m'.shownEscaped

end Alike

variable {s s' : Start}

namespace Value.Alike

variable {value value' shown shown' : Value}

theorem text (h : value.Alike s s' value') : value.text = value'.text := by
  cases h <;> rfl

theorem isNullish (h : value.Alike s s' value') : value.isNullish = value'.isNullish := by
  cases h <;> rfl

theorem isNode (h : value.Alike s s' value') : value.isNode = value'.isNode := by
  cases h <;> rfl

/-- Equality does not tell values that are alike apart. -/
theorem same_eq (h : value.Alike s s' value') (hshown : shown.Alike s s' shown') :
    shown.same value = shown'.same value' := by
  cases h with
  | same _ hvalue =>
    cases hshown with
    | same => rfl
    | twins => cases value <;> first | rfl | cases hvalue
  | twins h =>
    cases hshown with
    | same _ hshown => cases shown <;> first | rfl | cases hshown
    | twins hshown =>
      rw [Value.same, Value.same, Bool.eq_iff_iff, beq_iff_eq, beq_iff_eq]
      exact hshown.eq_iff h

/-- Texts that are joined are the same. -/
theorem joinedText_eq {values values' : List Value}
    (h : List.Forall₂ (Value.Alike s s') values values') :
    joinedText values = joinedText values' := by
  have htexts : values.map Value.text = values'.map Value.text := by
    induction h with
    | nil => rfl
    | cons hvalue _ ih => rw [List.map_cons, List.map_cons, hvalue.text, ih]
  rw [joinedText, joinedText, htexts]

end Value.Alike

/-! ## morphs -/

namespace Morph.Alike

variable {m m' : Morph} {value value' : Value} {dom dom' : Dom} {a b : NodeId}

/-- New morphs are alike if they stand at twins. -/
theorem create (hab : a.Twin s s' b) (escaped : Bool) {p q : Option NodeId}
    (hplace : s.Place s' p q) :
    (Morph.create a escaped p).Alike s s' (Morph.create b escaped q) :=
  ⟨hab, .nil, rfl, hplace, .none, rfl⟩

theorem shows_eq (hm : m.Alike s s' m') (hvalue : value.Alike s s' value') :
    m.shows value = m'.shows value' := by
  have hsame : m.value.any (·.same value) = m'.value.any (·.same value') := by
    have hshown := hm.value
    generalize m.value = shown at hshown ⊢
    generalize m'.value = shown' at hshown ⊢
    cases hshown with
    | none => rfl
    | some hshown => exact hvalue.same_eq hshown
  rw [Morph.shows, Morph.shows, hsame, hm.escaped, hm.shownEscaped]

theorem showing (hm : m.Alike s s' m') (hvalue : value.Alike s s' value') {xs ys : List NodeId}
    (hnodes : List.Forall₂ (NodeId.Twin s s') xs ys) :
    (m.showing value xs).Alike s s' (m'.showing value' ys) :=
  ⟨hm.anchor, hnodes, hm.escaped, hm.context, .some hvalue, hm.escaped⟩

variable (h : dom.GrownAlike s s' dom')

include h

/-- The texts that can be changed in place are twins. -/
theorem reusable? (hm : m.Alike s s' m') (hvalue : value.Alike s s' value') :
    Option.Rel (NodeId.Twin s s') (m.reusable? value dom) (m'.reusable? value' dom') := by
  have hnodes := hm.nodes
  rw [Morph.reusable?, Morph.reusable?, hm.escaped, hvalue.isNullish, hvalue.isNode]
  split
  · generalize m.nodes = xs at hnodes ⊢
    generalize m'.nodes = ys at hnodes ⊢
    cases hnodes with
    | nil => exact .none
    | cons hxy hrest =>
      cases hrest with
      | cons => exact .none
      | nil =>
        simp only [h.data hxy]
        split
        · exact .some hxy
        · exact .none
  · exact .none

theorem removeNodes (hab : a.Twin s s' b) {xs ys : List NodeId}
    (hnodes : List.Forall₂ (NodeId.Twin s s') xs ys) :
    (Morph.removeNodes dom a xs).GrownAlike s s' (Morph.removeNodes dom' b ys) := by
  induction hnodes generalizing dom dom' with
  | nil => exact h
  | cons hxy _ ih => exact ih (h.removeChild hab hxy)

/-- What is inserted for values that are alike are twins, or nothing. -/
theorem content (hm : m.Alike s s' m') (hvalue : value.Alike s s' value')
    (hsimilar : s.Similar s') :
    Option.Rel (NodeId.Twin s s') (m.content value dom).1 (m'.content value' dom').1 ∧
      (m.content value dom).2.GrownAlike s s' (m'.content value' dom').2 := by
  cases hvalue with
  | twins hab => exact ⟨.some hab, h⟩
  | same _ hnode =>
    have hnew : Option.Rel (NodeId.Twin s s')
          (some (if m.escaped then dom.create (.text value.text)
            else dom.parseHtml value.text m.context).1)
          (some (if m'.escaped then dom'.create (.text value.text)
            else dom'.parseHtml value.text m'.context).1) ∧
        (if m.escaped then dom.create (.text value.text)
            else dom.parseHtml value.text m.context).2.GrownAlike s s'
          (if m'.escaped then dom'.create (.text value.text)
            else dom'.parseHtml value.text m'.context).2 := by
      rw [hm.escaped]
      split
      · exact ⟨.some h.twin_size, h.create _⟩
      · rw [Dom.parseHtml, Dom.parseHtml, h.nsBelow hsimilar hm.context]
        obtain ⟨htwin, hgrown⟩ :=
          h.plantFragment (forestOfHtml (dom'.nsBelow m'.context) value.text)
        exact ⟨.some htwin, hgrown⟩
    cases value with
    | undefined => exact ⟨.none, h⟩
    | null => exact ⟨.none, h⟩
    | node id => cases hnode
    | _ => exact hnew

theorem inserted (hab : a.Twin s s' b) :
    List.Forall₂ (NodeId.Twin s s') (Morph.inserted dom a) (Morph.inserted dom' b) :=
  h.moved hab

theorem replace (hm : m.Alike s s' m') (hvalue : value.Alike s s' value') (hab : a.Twin s s' b)
    (hsimilar : s.Similar s') :
    (m.replace value a dom).1.Alike s s' (m'.replace value' b dom').1 ∧
      (m.replace value a dom).2.GrownAlike s s' (m'.replace value' b dom').2 := by
  obtain ⟨hinserted, hgrown⟩ := hm.content (removeNodes h hab hm.nodes) hvalue hsimilar
  rw [Morph.replace, Morph.replace]
  revert hinserted hgrown
  generalize m.content value (Morph.removeNodes dom a m.nodes) = made
  generalize m'.content value' (Morph.removeNodes dom' b m'.nodes) = made'
  obtain ⟨made, dom₁⟩ := made
  obtain ⟨made', dom₁'⟩ := made'
  intro hinserted hgrown
  cases hinserted with
  | none => exact ⟨hm.showing hvalue .nil, hgrown⟩
  | some hcd =>
    exact ⟨hm.showing hvalue (inserted hgrown hcd), hgrown.insertBefore hab hcd (.some hm.anchor)⟩

/-- Updating morphs that are alike keeps all alike. -/
theorem update (hm : m.Alike s s' m') (hvalue : value.Alike s s' value')
    (hsimilar : s.Similar s') :
    (m.update value dom).1.Alike s s' (m'.update value' dom').1 ∧
      (m.update value dom).2.GrownAlike s s' (m'.update value' dom').2 := by
  rw [Morph.update, Morph.update, hm.shows_eq hvalue]
  split
  · exact ⟨hm, h⟩
  · have hparent := h.parent? hm.anchor
    generalize dom.parent? m.anchor = p at hparent ⊢
    generalize dom'.parent? m'.anchor = q at hparent ⊢
    cases hparent with
    | none => exact ⟨⟨hm.anchor, hm.nodes, hm.escaped, hm.context, .none, hm.shownEscaped⟩, h⟩
    | some hparent =>
      have hreusable := hm.reusable? h hvalue
      simp only
      generalize m.reusable? value dom = p at hreusable ⊢
      generalize m'.reusable? value' dom' = q at hreusable ⊢
      cases hreusable with
      | none => exact hm.replace h hvalue hparent hsimilar
      | some htext =>
        refine ⟨hm.showing hvalue hm.nodes, ?_⟩
        simp only [hvalue.text]
        exact h.setText htext _

end Morph.Alike

end LiveTemplate
