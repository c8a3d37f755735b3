import LiveTemplate.Proofs.Dom.Filling
import LiveTemplate.Proofs.Dom.Linking

/-!
# LiveTemplate.Proofs.Dom.Moving

Moving filled trees as a whole.

When the roots of the filled trees that a document shows are inserted somewhere outside
of them, the document shows the same trees there (`Dom.Shows.insertRoots`).
-/

namespace LiveTemplate

namespace Dom

/-- A node is another one, or stands below it. -/
inductive IsBelow (dom : Dom) : NodeId → NodeId → Prop where
  | refl (x : NodeId) : IsBelow dom x x
  | parent {x p top : NodeId} (hparent : dom.parent? x = some p) (hbelow : IsBelow dom p top) :
    IsBelow dom x top

variable {dom : Dom}

theorem IsBelow.trans {x y z : NodeId} (h : dom.IsBelow x y) (k : dom.IsBelow y z) :
    dom.IsBelow x z := by
  induction h with
  | refl x => exact k
  | parent hparent _ ih => exact .parent hparent (ih k)

/-- Trees that are held below a node stand below it. -/
theorem HoldsAll.isBelow {q : Option NodeId} {ts : List (Tree NodeId)} (h : dom.HoldsAll q ts)
    {top : NodeId} (htop : ∀ x ∈ rootLabels ts, dom.IsBelow x top) :
    ∀ x ∈ forestLabels ts, dom.IsBelow x top := by
  induction ts using forest_induction generalizing q with
  | nil => simp [forestLabels]
  | cons id data kids ts ihkids ihts =>
    obtain ⟨⟨-, hrecord, hkids⟩, hts⟩ := h
    simp only [rootLabels_cons, Tree.label, List.forall_mem_cons] at htop
    intro x hx
    simp only [forestLabels, Tree.labels, List.cons_append, List.mem_cons, List.mem_append] at hx
    rcases hx with rfl | hx | hx
    · exact htop.1
    · exact ihkids hkids (fun y hy => .parent (hkids.parent?_eq hy) htop.1) x hx
    · exact ihts hts htop.2 x hx

/-- A node of trees that are held is a root, or has its parent among them. -/
theorem HoldsAll.root_or_parent {q : Option NodeId} {ts : List (Tree NodeId)}
    (h : dom.HoldsAll q ts) {x : NodeId} (hx : x ∈ forestLabels ts) :
    x ∈ rootLabels ts ∨ ∃ p ∈ forestLabels ts, dom.parent? x = some p := by
  induction ts using forest_induction generalizing q with
  | nil => simp [forestLabels] at hx
  | cons id data kids ts ihkids ihts =>
    obtain ⟨⟨-, hrecord, hkids⟩, hts⟩ := h
    simp only [forestLabels, Tree.labels, List.cons_append, List.mem_cons, List.mem_append] at hx ⊢
    rcases hx with rfl | hx | hx
    · exact .inl List.mem_cons_self
    · rcases ihkids hkids hx with hroot | ⟨p, hp, hparent⟩
      · exact .inr ⟨id, .inl rfl, hkids.parent?_eq hroot⟩
      · exact .inr ⟨p, .inr (.inl hp), hparent⟩
    · rcases ihts hts hx with hroot | ⟨p, hp, hparent⟩
      · exact .inl (List.mem_cons_of_mem _ hroot)
      · exact .inr ⟨p, .inr (.inr hp), hparent⟩

/-- Nodes are inserted somewhere between the siblings. -/
theorem insertAmong_eq (siblings nodes : List NodeId) (reference : Option NodeId) :
    ∃ before after, siblings = before ++ after ∧
      insertAmong siblings nodes reference = before ++ nodes ++ after := by
  cases reference with
  | none => exact ⟨siblings, [], (List.append_nil _).symm, (List.append_nil _).symm⟩
  | some r => exact ⟨_, _, (List.takeWhile_append_dropWhile ..).symm, rfl⟩

/-- Elements exist. -/
theorem index_lt_of_isElement {x : NodeId} (h : (dom.data x).isElement = true) :
    x.index < dom.size := by
  refine Nat.lt_of_not_le fun hle => ?_
  rw [data, record_of_size_le hle] at h
  cases h

/-- An element is moved itself. -/
theorem moved_of_isElement {x : NodeId} (h : (dom.data x).isElement = true) :
    dom.moved x = [x] := by
  rw [moved, if_neg]
  cases hdata : dom.data x with
  | element tag ns attributes => simp [NodeData.isFragment]
  | text s => simp [NodeData.isFragment]
  | comment s => simp [NodeData.isFragment]
  | fragment =>
    rw [hdata] at h
    cases h

/-- A fragment gives its children away. -/
theorem moved_of_fragment {x : NodeId} (h : dom.data x = .fragment) :
    dom.moved x = dom.children x := by
  rw [moved, h]
  rfl

/-- Inserting a fragment without children changes nothing. -/
theorem Linked.extends_insertBefore (h : dom.Linked) {parent child : NodeId}
    (hmoved : dom.moved child = []) (hparent : parent.index < dom.size)
    (hchild : child.index < dom.size) (reference : Option NodeId) :
    dom.Extends (dom.insertBefore parent child reference) := by
  refine ⟨Nat.le_of_eq (size_insertBefore ..).symm, fun n _ => ?_⟩
  have hkept : ∀ siblings : List NodeId, siblings.filter (· ∉ ([] : List NodeId)) = siblings :=
    fun siblings => List.filter_eq_self.2 (by simp)
  rw [record_eq, record_eq, data_insertBefore, h.parent?_insertBefore hchild,
    h.children_insertBefore hparent, hmoved, if_neg (List.not_mem_nil), hkept, insertAmong_nil,
    ite_self]

namespace Shows

variable {host : Option NodeId} {before after : List NodeId} {F : Filling}
  {ts : List (Tree NodeId)} {child element : NodeId}

/-- The roots of filled trees are inserted outside of the trees. -/
theorem insertRoots (h : dom.Shows host before after F ts) (hlinked : dom.Linked)
    (hmoved : dom.moved child = rootLabels (F.forest ts)) (hchild : child.index < dom.size)
    (helement : element.index < dom.size) (hnot : element ∉ forestLabels (F.forest ts))
    (reference : Option NodeId) :
    ∃ before' after',
      (dom.insertBefore element child reference).Shows (some element) before' after' F ts := by
  have hsize : (dom.insertBefore element child reference).size = dom.size := size_insertBefore ..
  -- No root is a child of a node of the trees.
  have hkids : ∀ x ∈ forestLabels (F.forest ts),
      (dom.children x).filter (· ∉ dom.moved child) = dom.children x := by
    intro x hx
    refine hlinked.filter_children fun c hroot hparent => ?_
    rw [hmoved] at hroot
    rw [h.holds.parent?_eq hroot] at hparent
    exact h.host_not_mem x hparent hx
  have hself : (dom.insertBefore element child reference).children element =
      insertAmong ((dom.children element).filter (· ∉ dom.moved child)) (dom.moved child)
        reference := by
    rw [hlinked.children_insertBefore helement, if_pos rfl]
  obtain ⟨before', after', haround, hinserted⟩ := insertAmong_eq
    ((dom.children element).filter (· ∉ dom.moved child)) (dom.moved child) reference
  have hsibling : ∀ x ∈ before' ++ after', dom.parent? x = some element ∧
      x ∉ rootLabels (F.forest ts) := by
    intro x hx
    rw [← haround, List.mem_filter, hmoved, hlinked.mem_children_iff] at hx
    exact ⟨hx.1, by simpa using hx.2⟩
  refine ⟨before', after', ?_⟩
  constructor
  case apart => exact h.apart
  case nodup => exact h.nodup
  case holds =>
    refine h.holds.reparent (Nat.le_of_eq hsize.symm) h.nodup_forest fun x hx => ?_
    have hne : x ≠ element := by
      rintro rfl
      exact hnot hx
    rw [record_eq, data_insertBefore, hlinked.parent?_insertBefore hchild,
      hlinked.children_insertBefore helement, if_neg hne, hkids x hx, hmoved]
    by_cases hroot : x ∈ rootLabels (F.forest ts)
    · rw [if_pos hroot, if_pos hroot]
      rfl
    · rw [if_neg hroot, if_neg hroot]
      rfl
  case children =>
    rintro p hp
    obtain rfl := Option.some.inj hp
    rw [hself, hinserted, hmoved]
  case host_lt =>
    rintro p hp
    obtain rfl := Option.some.inj hp
    rw [hsize]
    exact helement
  case host_not_mem =>
    rintro p hp
    obtain rfl := Option.some.inj hp
    exact hnot
  case around_lt =>
    intro x hx
    rw [hsize]
    exact (hlinked.index_lt (hsibling x hx).1).2
  case around_not_mem =>
    intro x hx hmem
    obtain ⟨hparent, hroot⟩ := hsibling x hx
    rcases h.holds.root_or_parent hmem with hmem | ⟨p, hp, hparent'⟩
    · exact hroot hmem
    · rw [hparent] at hparent'
      obtain rfl := Option.some.inj hparent'
      exact hnot hp

end Shows

end Dom

end LiveTemplate
