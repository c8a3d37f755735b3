import LiveTemplate.Proofs.Dom.Replacing
import LiveTemplate.Render.Program

/-!
# LiveTemplate.Proofs.Dom.Linking

Documents whose links agree: a node is among the children of another one exactly when
that one is its parent, and only once (`Linked`).

Every operation on documents keeps them linked, those that put a node into another one
provided that both exist.
-/

namespace LiveTemplate

namespace Dom

/-- Children and parents agree. -/
structure Linked (dom : Dom) : Prop where
  mem_children_iff : ∀ p x, x ∈ dom.children p ↔ dom.parent? x = some p
  nodup_children : ∀ p, (dom.children p).Nodup

namespace Linked

variable {dom dom' : Dom} {parent child : NodeId}

theorem empty : ({} : Dom).Linked := by
  have hchildren : ∀ p, ({} : Dom).children p = [] := fun p => children_of_size_le (Nat.zero_le _)
  have hparent : ∀ x, ({} : Dom).parent? x = none := fun x => parent?_of_size_le (Nat.zero_le _)
  refine ⟨fun p x => ?_, fun p => ?_⟩
  · simp [hchildren, hparent]
  · simp [hchildren]

/-- Nodes that are linked exist. -/
theorem index_lt (h : dom.Linked) {p x : NodeId} (hx : dom.parent? x = some p) :
    p.index < dom.size ∧ x.index < dom.size := by
  constructor
  · refine Nat.lt_of_not_le fun hle => ?_
    have hmem := (h.mem_children_iff p x).2 hx
    simp [children_of_size_le hle] at hmem
  · refine Nat.lt_of_not_le fun hle => ?_
    simp [parent?_of_size_le hle] at hx

/-- A child stands once among the children. -/
theorem not_mem_of_children_eq (h : dom.Linked) {p x : NodeId} {before after : List NodeId}
    (hchildren : dom.children p = before ++ x :: after) : x ∉ before ∧ x ∉ after := by
  have hnodup := h.nodup_children p
  rw [hchildren, List.nodup_append, List.nodup_cons] at hnodup
  obtain ⟨-, ⟨hafter, -⟩, hapart⟩ := hnodup
  exact ⟨fun hbefore => hapart x hbefore x List.mem_cons_self rfl, hafter⟩

/-- Links do not depend on data. -/
theorem congr (h : dom.Linked) (hparent : ∀ x, dom'.parent? x = dom.parent? x)
    (hchildren : ∀ p, dom'.children p = dom.children p) : dom'.Linked := by
  refine ⟨fun p x => ?_, fun p => ?_⟩
  · rw [hparent, hchildren]
    exact h.mem_children_iff p x
  · rw [hchildren]
    exact h.nodup_children p

theorem changeData (h : dom.Linked) (id : NodeId) (f : NodeData → NodeData) :
    (dom.modify id fun r => { r with data := f r.data }).Linked := by
  refine h.congr (fun x => ?_) fun p => ?_
  · rw [parent?, record_modify]
    split <;> rfl
  · rw [children, record_modify]
    split <;> rfl

theorem create (h : dom.Linked) (data : NodeData) : (dom.create data).2.Linked := by
  refine h.congr (fun x => ?_) fun p => ?_
  · rw [parent?, record_create]
    split
    · next hx => rw [parent?_of_size_le (Nat.le_of_eq hx.symm)]
    · rfl
  · rw [children, record_create]
    split
    · next hp => rw [children_of_size_le (Nat.le_of_eq hp.symm)]
    · rfl

/-! ## removing -/

theorem removeChild (h : dom.Linked) (parent child : NodeId) :
    (dom.removeChild parent child).Linked := by
  refine ⟨fun p x => ?_, fun p => ?_⟩
  · rw [children_removeChild, parent?_removeChild]
    have hiff := h.mem_children_iff p x
    by_cases hp : p = parent
    · subst hp
      by_cases hx : x = child
      · subst hx
        by_cases hparent : dom.parent? x = some p <;> simp [hparent]
      · simp [hx, hiff]
    · rw [if_neg hp, hiff]
      by_cases hx : x = child ∧ dom.parent? x = some parent
      · rw [if_pos hx, hx.2]
        simp [Ne.symm hp]
      · rw [if_neg hx]
  · rw [children_removeChild]
    split
    · exact (h.nodup_children p).filter _
    · exact h.nodup_children p

theorem removeNodes (h : dom.Linked) (parent : NodeId) (nodes : List NodeId) :
    (Morph.removeNodes dom parent nodes).Linked := by
  induction nodes generalizing dom with
  | nil => exact h
  | cons node nodes ih => exact ih (h.removeChild parent node)

/-! ## inserting -/

/-- Nodes with other parents are not missed among the children. -/
theorem filter_children (h : dom.Linked) {p : NodeId} {nodes : List NodeId}
    (hnodes : ∀ x ∈ nodes, dom.parent? x ≠ some p) :
    (dom.children p).filter (· ∉ nodes) = dom.children p := by
  refine List.filter_eq_self.2 fun x hx => decide_eq_true fun hmem => ?_
  exact hnodes x hmem ((h.mem_children_iff p x).1 hx)

/-- The nodes that are moved are no longer anyone's children. -/
theorem children_lift (h : dom.Linked) (child p : NodeId) :
    (dom.lift child).2.children p = (dom.children p).filter (· ∉ dom.moved child) := by
  rw [lift, moved]
  by_cases hfragment : (dom.data child).isFragment
  · rw [if_pos hfragment, if_pos hfragment, children_setChildren]
    by_cases hp : p = child
    · subst hp
      have hnone : (dom.children p).filter (· ∉ dom.children p) = [] :=
        List.filter_eq_nil_iff.2 fun x hx => by simpa using hx
      rw [hnone]
      split
      · rfl
      · next hlt => exact children_of_size_le (Nat.not_lt.1 fun hp => hlt ⟨rfl, hp⟩)
    · rw [if_neg (fun h => hp h.1), h.filter_children fun x hx hparent => ?_]
      rw [h.mem_children_iff, hparent] at hx
      exact hp (Option.some.inj hx)
  · rw [if_neg hfragment, if_neg hfragment, detach]
    split
    · next q hq =>
      rw [children_removeChild]
      by_cases hp : p = q
      · rw [if_pos hp]
        exact List.filter_congr fun x _ => by simp
      · rw [if_neg hp, h.filter_children fun x hx hparent => ?_]
        rw [List.mem_singleton.1 hx, hq] at hparent
        exact hp (Option.some.inj hparent).symm
    · next hq =>
      rw [h.filter_children fun x hx hparent => ?_]
      rw [List.mem_singleton.1 hx, hq] at hparent
      cases hparent

theorem moved_lt (h : dom.Linked) (hchild : child.index < dom.size) :
    ∀ x ∈ dom.moved child, x.index < dom.size := by
  intro x hx
  rw [moved] at hx
  split at hx
  · exact (h.index_lt ((h.mem_children_iff child x).1 hx)).2
  · rwa [List.mem_singleton.1 hx]

/-- Inserting gives the moved nodes their new parent, whatever place they had. -/
theorem parent?_insertBefore (h : dom.Linked) (hchild : child.index < dom.size) (parent : NodeId)
    (reference : Option NodeId) (x : NodeId) :
    (dom.insertBefore parent child reference).parent? x =
      if x ∈ dom.moved child then some parent else dom.parent? x := by
  rw [insertBefore_eq, parent?_setChildren, parent?_adopt, size_lift]
  by_cases hx : x ∈ dom.moved child
  · rw [if_pos ⟨hx, h.moved_lt hchild x hx⟩, if_pos hx]
  · rw [if_neg (fun h => hx h.1), if_neg hx, parent?_lift hx]

/-- Inserting takes the moved nodes from where they were, and puts them among the children of the
new parent. -/
theorem children_insertBefore (h : dom.Linked) (hparent : parent.index < dom.size)
    (child : NodeId) (reference : Option NodeId) (p : NodeId) :
    (dom.insertBefore parent child reference).children p =
      if p = parent then
        insertAmong ((dom.children p).filter (· ∉ dom.moved child)) (dom.moved child) reference
      else (dom.children p).filter (· ∉ dom.moved child) := by
  rw [insertBefore_eq, children_setChildren, children_adopt, size_adopt, size_lift,
    h.children_lift, h.children_lift]
  by_cases hp : p = parent
  · subst hp
    rw [if_pos ⟨rfl, hparent⟩, if_pos rfl]
  · rw [if_neg (fun h => hp h.1), if_neg hp]

theorem insertBefore (h : dom.Linked) (hparent : parent.index < dom.size)
    (hchild : child.index < dom.size) (reference : Option NodeId) :
    (dom.insertBefore parent child reference).Linked := by
  have hmoved : (dom.moved child).Nodup := by
    rw [moved]
    split
    · exact h.nodup_children child
    · exact List.pairwise_singleton ..
  refine ⟨fun p x => ?_, fun p => ?_⟩
  · rw [h.parent?_insertBefore hchild, h.children_insertBefore hparent]
    by_cases hp : p = parent
    · subst hp
      rw [if_pos rfl, mem_insertAmong, List.mem_filter, h.mem_children_iff]
      by_cases hx : x ∈ dom.moved child <;> simp [hx]
    · rw [if_neg hp, List.mem_filter, h.mem_children_iff]
      by_cases hx : x ∈ dom.moved child
      · simp [hx, Ne.symm hp]
      · simp [hx]
  · have hnodup := (h.nodup_children p).filter (· ∉ dom.moved child)
    rw [h.children_insertBefore hparent]
    split
    · rw [(perm_insertAmong _ _ _).nodup_iff, List.nodup_append]
      refine ⟨hnodup, hmoved, ?_⟩
      rintro x hx _ hx' rfl
      simpa [hx'] using (List.mem_filter.1 hx).2
    · exact hnodup

/-! ## planting -/

mutual

theorem plantTree {dom : Dom} (h : dom.Linked) : (parent : NodeId) → (t : Markup) →
    parent.index < dom.size →
      (dom.plantTree parent t).Linked ∧ dom.size ≤ (dom.plantTree parent t).size
  | parent, .node _ data ts, hparent => by
    have hsize := size_append_create dom parent data
    have hnew : (⟨dom.size⟩ : NodeId).index < (dom.create data).2.size := by
      rw [size_create]
      exact Nat.lt_succ_self _
    have hlinked : ((dom.create data).2.appendChild parent ⟨dom.size⟩).Linked :=
      (h.create data).insertBefore (by rw [size_create]; omega) hnew none
    have hrest := plant hlinked ⟨dom.size⟩ ts (by rw [hsize]; exact Nat.lt_succ_self _)
    rw [Dom.plantTree]
    refine ⟨hrest.1, ?_⟩
    have := hrest.2
    simp only [create_fst]
    omega

theorem plant {dom : Dom} (h : dom.Linked) : (parent : NodeId) → (ts : List Markup) →
    parent.index < dom.size → (dom.plant parent ts).Linked ∧ dom.size ≤ (dom.plant parent ts).size
  | parent, [], hparent => ⟨h, Nat.le_refl _⟩
  | parent, t :: ts, hparent => by
    have hfirst := plantTree h parent t hparent
    have hle := hfirst.2
    have hrest := plant hfirst.1 parent ts (by omega)
    rw [Dom.plant]
    exact ⟨hrest.1, Nat.le_trans hle hrest.2⟩

end

theorem plantFragment {dom : Dom} (h : dom.Linked) (forest : List Markup) :
    (dom.plantFragment forest).2.Linked ∧ dom.size < (dom.plantFragment forest).2.size := by
  have hsize := size_create dom .fragment
  obtain ⟨hlinked, hle⟩ := (h.create .fragment).plant ⟨dom.size⟩ forest
    (by rw [hsize]; exact Nat.lt_succ_self _)
  rw [hsize] at hle
  exact ⟨hlinked, hle⟩

/-! ## showing values -/

/-- Showing a value creates nodes at most, and the node that shows it exists. -/
theorem content (h : dom.Linked) (m : Morph) {value : Value}
    (hvalue : ∀ id, value = .node id → id.index < dom.size) :
    (m.content value dom).2.Linked ∧ dom.size ≤ (m.content value dom).2.size ∧
      ∀ id, (m.content value dom).1 = some id → id.index < (m.content value dom).2.size := by
  unfold Morph.content
  split
  · exact ⟨h, Nat.le_refl _, by simp⟩
  · exact ⟨h, Nat.le_refl _, by simp⟩
  · next id =>
    refine ⟨h, Nat.le_refl _, fun id' hid => ?_⟩
    obtain rfl := Option.some.inj hid
    exact hvalue id rfl
  · by_cases hescaped : m.escaped
    · have hsize := size_create dom (.text value.text)
      simp only [hescaped, if_pos, Option.some.injEq]
      refine ⟨h.create _, by omega, ?_⟩
      rintro id rfl
      rw [hsize]
      exact Nat.lt_succ_self _
    · obtain ⟨hlinked, hlt⟩ := h.plantFragment (forestOfHtml (dom.nsBelow m.context) value.text)
      simp only [hescaped, Bool.false_eq_true, if_false, Option.some.injEq]
      refine ⟨hlinked, Nat.le_of_lt hlt, ?_⟩
      rintro id rfl
      exact hlt

theorem update (h : dom.Linked) (m : Morph) {value : Value}
    (hvalue : ∀ id, value = .node id → id.index < dom.size) : (m.update value dom).2.Linked := by
  have hway := m.way_update value dom
  generalize m.update value dom = result at hway ⊢
  cases hway with
  | idle _ => exact h
  | detached _ _ => exact h
  | reuse _ _ _ => exact h.changeData _ _
  | @replace p _ hanchor _ =>
    have hlt := (h.index_lt hanchor).1
    obtain ⟨hlinked, hle, hid⟩ := (h.removeNodes p m.nodes).content m
      (by rwa [size_removeNodes] : ∀ id, value = .node id → id.index < _)
    rw [size_removeNodes] at hle
    rw [Morph.replace]
    split
    · next heq =>
      rw [heq] at hlinked
      exact hlinked
    · next id dom' heq =>
      rw [heq] at hlinked hle hid
      exact hlinked.insertBefore (Nat.lt_of_lt_of_le hlt hle) (hid id rfl) _

theorem unwrap (h : dom.Linked) (fragment : NodeId) : (dom.unwrap fragment).2.Linked := by
  rw [Dom.unwrap]
  split
  · split
    · exact h.removeChild ..
    · exact h
  · exact h

end Linked

end Dom

end LiveTemplate
