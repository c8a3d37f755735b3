import LiveTemplate.Proofs.Lexical.Blocks
import Mathlib.Data.List.Forall2

/-!
# LiveTemplate.Proofs.Lexical.Gaining

The morphs that a render adds to the world, and what they show.

A morph shows the value it is given as long as its anchor has a place.  Anchors are texts, and
no part of a render takes a text out of its place without giving it another one
(`Dom.Stands`), whatever values are shown.  So a world gains morphs, and those that are new show
what they have been given (`World.Gains`).
-/

namespace LiveTemplate

variable {σ : Type}

/-! ## texts in their places -/

namespace Dom

/-- A text that has a place. -/
def Stands (dom : Dom) (id : NodeId) : Prop :=
  (dom.data id).isText = true ∧ (dom.parent? id).isSome

variable {dom dom' : Dom} {id : NodeId}

theorem Stands.index_lt (h : dom.Stands id) : id.index < dom.size := by
  refine Nat.lt_of_not_le fun hle => ?_
  have hplace := h.2
  rw [parent?_of_size_le hle] at hplace
  cases hplace

theorem Stands.extend (h : dom.Stands id) (hext : dom.Extends dom') : dom'.Stands id := by
  rw [Stands, data, parent?, hext.record_eq id h.index_lt]
  exact h

theorem Stands.changeAttributes (h : dom.Stands id) (node : NodeId)
    (f : Dict String → Dict String) : (dom.changeAttributes node f).Stands id := by
  rw [Stands, Dom.data, Dom.parent?, Dom.changeAttributes, record_modify]
  split
  · refine ⟨?_, h.2⟩
    have htext := h.1
    rw [Dom.data] at htext
    cases hdata : (dom.record id).data <;> rw [hdata] at htext <;>
      first | rfl | cases htext
  · exact h

/-- What is inserted gets a new place. -/
theorem Stands.insertBefore (h : dom.Stands id) (parent child : NodeId)
    (reference : Option NodeId) : (dom.insertBefore parent child reference).Stands id := by
  refine ⟨by rw [data_insertBefore]; exact h.1, ?_⟩
  rw [insertBefore_eq, parent?_setChildren, parent?_adopt, size_lift]
  by_cases hmoved : id ∈ dom.moved child
  · rw [if_pos ⟨hmoved, h.index_lt⟩]
    rfl
  · rw [if_neg fun hif => hmoved hif.1, parent?_lift hmoved]
    exact h.2

/-- Only an element is taken out of its fragment. -/
theorem Stands.unwrap (h : dom.Stands id) (fragment : NodeId) :
    (dom.unwrap fragment).2.Stands id := by
  rw [Dom.unwrap]
  split
  · next only honly =>
    split
    · next helement =>
      refine ⟨by rw [data_removeChild]; exact h.1, ?_⟩
      have hne : id ≠ only := by
        rintro rfl
        have htext := h.1
        cases hdata : dom.data id with
        | text s => rw [hdata] at helement; cases helement
        | _ => rw [hdata] at htext; cases htext
      rw [parent?_removeChild, if_neg fun hif => hne hif.1]
      exact h.2
    · exact h
  · exact h

end Dom

/-! ## showing -/

/-- What a morph shows describes its value. -/
def Shown.Describes : Shown → Value → Prop
  | .value v, v' => v' = v
  | .part, v' => ∃ id, v' = .node id

/-- A morph shows what is said. -/
def Morph.IsShowing (m : Morph) (shown : Shown) : Prop :=
  ∃ value, m.value = some value ∧ shown.Describes value

namespace Morph

variable {dom : Dom} {node : NodeId} {escaped : Bool} {context : Option NodeId}

/-- Whatever a new morph is given, other texts keep their places. -/
theorem stands_update_create (value : Value) {id : NodeId} (h : dom.Stands id) :
    ((create node escaped context).update value dom).2.Stands id := by
  rw [update_of_nodes_eq_nil rfl rfl]
  split
  · exact h
  · next parent _ =>
    have hcontent : ((create node escaped context).content value dom).2.Stands id := by
      cases hnode : value.isNode with
      | true =>
        obtain ⟨child, rfl⟩ := Value.exists_of_isNode hnode
        exact h
      | false =>
        by_cases hnull : value.isNullish = true
        · rw [content_of_isNullish _ hnull]
          exact h
        · obtain ⟨t, -, hext, -⟩ :=
            (create node escaped context).content_new (Bool.eq_false_iff.2 hnull) hnode dom
          exact h.extend hext
    rw [replace, show removeNodes dom parent (create node escaped context).nodes = dom from rfl]
    split
    · next heq =>
      rw [heq] at hcontent
      exact hcontent
    · next heq =>
      rw [heq] at hcontent
      exact hcontent.insertBefore ..

/-- A new morph shows the value it is given, if its anchor has a place. -/
theorem value_update_create (value : Value) (h : dom.Stands node) :
    ((create node escaped context).update value dom).1.value = some value := by
  rw [update_of_nodes_eq_nil rfl rfl]
  obtain ⟨parent, hparent⟩ := Option.isSome_iff_exists.1 h.2
  rw [show (create node escaped context).anchor = node from rfl, hparent]
  simp only [replace]
  split <;> rfl

end Morph

/-! ## worlds -/

theorem modify_append_cons {α : Type} (before after : List α) (a : α) (f : α → α) :
    (before ++ a :: after).modify before.length f = before ++ f a :: after := by
  induction before with
  | nil => rfl
  | cons b before ih => exact congrArg (b :: ·) ih

/-- A world to which morphs were added that show what is said.  The objects are as they were, and
texts have kept their places. -/
structure World.Gains (w w' : World σ) (shown : List Shown) : Prop where
  heap : w'.heap = w.heap
  stands : ∀ id, w.dom.Stands id → w'.dom.Stands id
  morphs : ∃ new, w'.morphs.toList = w.morphs.toList ++ new ∧
    List.Forall₂ Morph.IsShowing new shown

namespace World.Gains

variable {w w' w'' : World σ} {shown shown' : List Shown}

theorem refl (w : World σ) : w.Gains w [] :=
  ⟨rfl, fun _ h => h, [], (List.append_nil _).symm, .nil⟩

theorem trans (h : w.Gains w' shown) (h' : w'.Gains w'' shown') :
    w.Gains w'' (shown ++ shown') := by
  obtain ⟨new, hnew, hshown⟩ := h.morphs
  obtain ⟨new', hnew', hshown'⟩ := h'.morphs
  refine ⟨h'.heap.trans h.heap, fun id hid => h'.stands id (h.stands id hid), new ++ new', ?_,
    List.rel_append hshown hshown'⟩
  rw [hnew', hnew, List.append_assoc]

/-- A change of the document in which texts keep their places. -/
theorem changeDom (h : w.Gains w' shown) {dom : Dom}
    (hstands : ∀ id, w'.dom.Stands id → dom.Stands id) : w.Gains { w' with dom } shown :=
  ⟨h.heap, fun id hid => hstands id (h.stands id hid), h.morphs⟩

/-- A morph that was added is given a value, after others have been added. -/
theorem updateMorph {node : NodeId} {escaped : Bool} {context : Option NodeId}
    (hnode : w.dom.Stands node)
    (h : (w.addMorph (.create node escaped context)).2.Gains w' shown) {own : Shown} {value : Value}
    (hvalue : own.Describes value) :
    w.Gains (w'.updateMorph ⟨w.morphs.size⟩ value) (own :: shown) := by
  obtain ⟨new, hnew, hshown⟩ := h.morphs
  have hlist : w'.morphs.toList = w.morphs.toList ++ .create node escaped context :: new := by
    rw [hnew]
    show (w.morphs.push _).toList ++ new = _
    rw [Array.toList_push, List.append_assoc]
    rfl
  have hmorph : w'.morph? ⟨w.morphs.size⟩ = some (.create node escaped context) := by
    rw [World.morph?, ← Array.getElem?_toList, hlist, ← Array.length_toList,
      List.getElem?_append_right (Nat.le_refl _), Nat.sub_self, List.getElem?_cons_zero]
  refine ⟨(heap_updateMorph ..).trans h.heap, fun id hid => ?_,
    ((Morph.create node escaped context).update value w'.dom).1 :: new, ?_,
    .cons ⟨value, Morph.value_update_create value (h.stands node hnode), hvalue⟩ hshown⟩
  · rw [dom_updateMorph hmorph]
    exact Morph.stands_update_create value (h.stands id hid)
  · rw [updateMorph_eq hmorph]
    show (w'.morphs.modify _ _).toList = _
    rw [Array.toList_modify, hlist, ← Array.length_toList, modify_append_cons]

end World.Gains

end LiveTemplate
