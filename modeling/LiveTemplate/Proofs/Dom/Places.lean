import LiveTemplate.Proofs.Dom.Holding

/-!
# LiveTemplate.Proofs.Dom.Places

What taking nodes out of their places and putting them into new ones does to the
parent and to the children of every node of a document.

Each operation has one equation per view: `size`, `data`, `parent?`, `children`.
`insertBefore` lifts the nodes it moves first; for a node without a place there is
nothing to take it out of (`parent?_insertBefore`, `children_insertBefore`).
-/

namespace LiveTemplate

namespace Dom

/-! ## records -/

/-- A record is what the three views show of it. -/
theorem record_eq (dom : Dom) (n : NodeId) :
    dom.record n = ⟨dom.data n, dom.parent? n, dom.children n⟩ := rfl

theorem record_of_size_le {dom : Dom} {n : NodeId} (h : dom.size ≤ n.index) :
    dom.record n = { data := .fragment } := by
  have h' : dom.nodes.size ≤ n.index := h
  simp [record, h']

theorem children_of_size_le {dom : Dom} {n : NodeId} (h : dom.size ≤ n.index) :
    dom.children n = [] := by
  rw [children, record_of_size_le h]

theorem parent?_of_size_le {dom : Dom} {n : NodeId} (h : dom.size ≤ n.index) :
    dom.parent? n = none := by
  rw [parent?, record_of_size_le h]

@[simp] theorem size_setChildren (dom : Dom) (id : NodeId) (cs : List NodeId) :
    (dom.setChildren id cs).size = dom.size := size_modify ..

@[simp] theorem size_setParent (dom : Dom) (id : NodeId) (parent : Option NodeId) :
    (dom.setParent id parent).size = dom.size := size_modify ..

@[simp] theorem size_setText (dom : Dom) (id : NodeId) (text : String) :
    (dom.setText id text).size = dom.size := size_modify ..

@[simp] theorem parent?_setText (dom : Dom) (id n : NodeId) (text : String) :
    (dom.setText id text).parent? n = dom.parent? n := by
  simp only [parent?, setText, record_modify]; split <;> rfl

@[simp] theorem children_setText (dom : Dom) (id n : NodeId) (text : String) :
    (dom.setText id text).children n = dom.children n := by
  simp only [children, setText, record_modify]; split <;> rfl

theorem data_setText_of_ne {dom : Dom} {id n : NodeId} (h : n ≠ id) (text : String) :
    (dom.setText id text).data n = dom.data n := by
  rw [data, setText, record_modify, if_neg (fun hn => h hn.1), data]

/-- Changing a text makes no node a fragment, or anything else of one. -/
@[simp] theorem isFragment_setText (dom : Dom) (id n : NodeId) (text : String) :
    ((dom.setText id text).data n).isFragment = (dom.data n).isFragment := by
  simp only [data, setText, record_modify]
  split
  · cases (dom.record n).data <;> rfl
  · rfl

/-- A text has the content that it is given. -/
theorem data_setText_self {dom : Dom} {id : NodeId} (h : (dom.data id).isText = true)
    (text : String) : (dom.setText id text).data id = .text text := by
  have hlt : id.index < dom.size := by
    refine Nat.lt_of_not_le fun hle => ?_
    rw [data, record_of_size_le hle] at h
    cases h
  rw [data, setText, record_modify, if_pos ⟨rfl, hlt⟩]
  rw [data] at h
  cases hdata : (dom.record id).data <;> rw [hdata] at h <;> first | rfl | cases h

/-! ## creating -/

/-- A new node is created behind all others. -/
@[simp] theorem create_fst (dom : Dom) (data : NodeData) : (dom.create data).1 = ⟨dom.size⟩ := rfl

/-- Creating a node leaves the nodes that exist as they are. -/
theorem record_create_of_lt {dom : Dom} (data : NodeData) {n : NodeId} (h : n.index < dom.size) :
    (dom.create data).2.record n = dom.record n := by
  rw [record_create, if_neg (by omega)]

theorem record_create_new (dom : Dom) (data : NodeData) :
    (dom.create data).2.record ⟨dom.size⟩ = { data } := by
  rw [record_create, if_pos rfl]

/-! ## removing -/

@[simp] theorem size_removeChild (dom : Dom) (parent child : NodeId) :
    (dom.removeChild parent child).size = dom.size := by
  rw [removeChild]; split <;> simp

@[simp] theorem data_removeChild (dom : Dom) (parent child n : NodeId) :
    (dom.removeChild parent child).data n = dom.data n := by
  rw [removeChild]; split <;> simp

theorem children_removeChild (dom : Dom) (parent child n : NodeId) :
    (dom.removeChild parent child).children n =
      if n = parent then (dom.children n).filter (· ≠ child) else dom.children n := by
  have hset : (dom.setChildren parent ((dom.children parent).filter (· ≠ child))).children n =
      if n = parent then (dom.children n).filter (· ≠ child) else dom.children n := by
    rw [children_setChildren]
    by_cases hn : n = parent
    · subst hn
      by_cases hlt : n.index < dom.size
      · simp [hlt]
      · simp [hlt, children_of_size_le (Nat.not_lt.1 hlt)]
    · simp [hn]
  rw [removeChild]
  split
  · rw [children_setParent, hset]
  · exact hset

theorem parent?_removeChild (dom : Dom) (parent child n : NodeId) :
    (dom.removeChild parent child).parent? n =
      if n = child ∧ dom.parent? n = some parent then none else dom.parent? n := by
  rw [removeChild, parent?_setChildren]
  by_cases hp : dom.parent? child = some parent
  · rw [if_pos hp, parent?_setParent, parent?_setChildren, size_setChildren]
    by_cases hn : n = child
    · subst hn
      by_cases hlt : n.index < dom.size
      · simp [hp, hlt]
      · simp [parent?_of_size_le (Nat.not_lt.1 hlt)]
    · simp [hn]
  · rw [if_neg hp, parent?_setChildren]
    by_cases hn : n = child
    · subst hn; simp [hp]
    · simp [hn]

theorem detach_of_parent?_eq_none {dom : Dom} {id : NodeId} (h : dom.parent? id = none) :
    dom.detach id = dom := by
  rw [detach, h]

@[simp] theorem size_detach (dom : Dom) (id : NodeId) : (dom.detach id).size = dom.size := by
  rw [detach]; split <;> simp

@[simp] theorem data_detach (dom : Dom) (id n : NodeId) : (dom.detach id).data n = dom.data n := by
  rw [detach]; split <;> simp

/-! ## inserting -/

/-- The nodes that inserting `child` moves: a fragment's children, or the node itself. -/
def moved (dom : Dom) (child : NodeId) : List NodeId :=
  if (dom.data child).isFragment then dom.children child else [child]

/-- A document in which nodes have got one new parent. -/
def adopt (dom : Dom) (parent : NodeId) (nodes : List NodeId) : Dom :=
  nodes.foldl (fun dom id => dom.setParent id (some parent)) dom

@[simp] theorem size_adopt (dom : Dom) (parent : NodeId) (nodes : List NodeId) :
    (dom.adopt parent nodes).size = dom.size := by
  induction nodes generalizing dom with
  | nil => rfl
  | cons node nodes ih => exact (ih _).trans (size_setParent ..)

@[simp] theorem data_adopt (dom : Dom) (parent : NodeId) (nodes : List NodeId) (n : NodeId) :
    (dom.adopt parent nodes).data n = dom.data n := by
  induction nodes generalizing dom with
  | nil => rfl
  | cons node nodes ih => exact (ih _).trans (data_setParent ..)

@[simp] theorem children_adopt (dom : Dom) (parent : NodeId) (nodes : List NodeId) (n : NodeId) :
    (dom.adopt parent nodes).children n = dom.children n := by
  induction nodes generalizing dom with
  | nil => rfl
  | cons node nodes ih => exact (ih _).trans (children_setParent ..)

theorem parent?_adopt (dom : Dom) (parent : NodeId) (nodes : List NodeId) (n : NodeId) :
    (dom.adopt parent nodes).parent? n =
      if n ∈ nodes ∧ n.index < dom.size then some parent else dom.parent? n := by
  induction nodes generalizing dom with
  | nil => simp [adopt]
  | cons node nodes ih =>
    have hstep : dom.adopt parent (node :: nodes) =
        (dom.setParent node (some parent)).adopt parent nodes := rfl
    rw [hstep, ih, size_setParent, parent?_setParent]
    by_cases hlt : n.index < dom.size
    · by_cases hn : n = node
      · subst hn; simp [hlt]
      · simp [hn]
    · simp [hlt]

/-- Lifting takes the moved nodes out of their place. -/
theorem fst_lift (dom : Dom) (child : NodeId) : (dom.lift child).1 = dom.moved child := by
  rw [lift, moved]
  split <;> rfl

@[simp] theorem size_lift (dom : Dom) (child : NodeId) : (dom.lift child).2.size = dom.size := by
  rw [lift]
  split
  · exact size_setChildren ..
  · exact size_detach ..

@[simp] theorem data_lift (dom : Dom) (child n : NodeId) :
    (dom.lift child).2.data n = dom.data n := by
  rw [lift]
  split
  · exact data_setChildren ..
  · exact data_detach ..

/-- The nodes that do not move keep their parents. -/
theorem parent?_lift {dom : Dom} {child x : NodeId} (hx : x ∉ dom.moved child) :
    (dom.lift child).2.parent? x = dom.parent? x := by
  rw [moved] at hx
  rw [lift]
  split
  · exact parent?_setChildren ..
  · next hfragment =>
    rw [if_neg hfragment, List.mem_singleton] at hx
    rw [detach]
    split
    · exact (parent?_removeChild ..).trans (if_neg fun h => hx h.1)
    · rfl

/-- A node without a place is lifted by emptying it, if it is a fragment. -/
theorem snd_lift_of_parent?_eq_none {dom : Dom} {child : NodeId} (h : dom.parent? child = none) :
    (dom.lift child).2 = if (dom.data child).isFragment then dom.setChildren child [] else dom := by
  rw [lift, detach_of_parent?_eq_none h]
  split <;> rfl

section Insert

variable {dom : Dom} {parent child : NodeId} (reference : Option NodeId)

theorem insertBefore_eq (dom : Dom) (parent child : NodeId) (reference : Option NodeId) :
    dom.insertBefore parent child reference =
      ((dom.lift child).2.adopt parent (dom.moved child)).setChildren parent
        (insertAmong ((dom.lift child).2.children parent) (dom.moved child) reference) := by
  rw [insertBefore, ← fst_lift]
  rfl

@[simp] theorem size_insertBefore (dom : Dom) (parent child : NodeId) (reference : Option NodeId) :
    (dom.insertBefore parent child reference).size = dom.size := by
  rw [insertBefore_eq, size_setChildren, size_adopt, size_lift]

@[simp] theorem data_insertBefore (dom : Dom) (parent child : NodeId) (reference : Option NodeId)
    (n : NodeId) : (dom.insertBefore parent child reference).data n = dom.data n := by
  rw [insertBefore_eq, data_setChildren, data_adopt, data_lift]

/-- Insertion gives the moved nodes their new parent. -/
theorem parent?_insertBefore (h : dom.parent? child = none) (n : NodeId) :
    (dom.insertBefore parent child reference).parent? n =
      if n ∈ dom.moved child ∧ n.index < dom.size then some parent else dom.parent? n := by
  have hlift : (dom.lift child).2.parent? n = dom.parent? n := by
    rw [snd_lift_of_parent?_eq_none h]
    split
    · exact parent?_setChildren ..
    · rfl
  rw [insertBefore_eq, parent?_setChildren, parent?_adopt, size_lift, hlift]

/-- Insertion changes the children of the new parent, and empties a fragment. -/
theorem children_insertBefore (h : dom.parent? child = none) (hne : parent ≠ child) (n : NodeId) :
    (dom.insertBefore parent child reference).children n =
      if n = parent ∧ n.index < dom.size then
        insertAmong (dom.children n) (dom.moved child) reference
      else if n = child ∧ (dom.data child).isFragment then [] else dom.children n := by
  rw [insertBefore_eq, children_setChildren, children_adopt, size_adopt, size_lift,
    snd_lift_of_parent?_eq_none h]
  by_cases hf : (dom.data child).isFragment
  · simp only [if_pos hf]
    by_cases hn : n = parent ∧ n.index < dom.size
    · rw [if_pos hn, if_pos hn, children_setChildren, if_neg (fun hp => hne hp.1), hn.1]
    · rw [if_neg hn, if_neg hn, children_setChildren]
      by_cases hc : n = child
      · by_cases hlt : n.index < dom.size
        · simp [hc, hf, hc ▸ hlt]
        · simp [hc, hf, children_of_size_le (Nat.not_lt.1 (hc ▸ hlt))]
      · simp [hc]
  · simp only [if_neg hf]
    by_cases hn : n = parent ∧ n.index < dom.size
    · rw [if_pos hn, if_pos hn, hn.1]
    · rw [if_neg hn, if_neg hn, if_neg (fun hc => hf hc.2)]

end Insert

/-! ## lists of siblings -/

/-- Nodes are inserted directly in front of the reference where it stands. -/
theorem insertAmong_append_cons {pre post moved : List NodeId} {r : NodeId} (h : r ∉ pre) :
    insertAmong (pre ++ r :: post) moved (some r) = pre ++ moved ++ r :: post := by
  have hpre : ∀ a ∈ pre, decide (a ≠ r) = true := by
    intro a ha
    simp only [decide_eq_true_eq]
    exact fun hr => h (hr ▸ ha)
  rw [insertAmong, List.takeWhile_append_of_pos hpre, List.dropWhile_append_of_pos hpre]
  simp

@[simp] theorem insertAmong_nil (siblings : List NodeId) (reference : Option NodeId) :
    insertAmong siblings [] reference = siblings := by
  cases reference <;> simp [insertAmong, List.takeWhile_append_dropWhile]

/-- Inserting adds nodes to the siblings. -/
theorem perm_insertAmong (siblings nodes : List NodeId) (reference : Option NodeId) :
    (insertAmong siblings nodes reference).Perm (siblings ++ nodes) := by
  cases reference with
  | none => exact List.Perm.refl _
  | some r =>
    have hmove : (siblings.takeWhile (· ≠ r) ++ nodes ++ siblings.dropWhile (· ≠ r)).Perm
        (siblings.takeWhile (· ≠ r) ++ siblings.dropWhile (· ≠ r) ++ nodes) := by
      rw [List.append_assoc, List.append_assoc]
      exact List.Perm.append_left _ List.perm_append_comm
    rwa [List.takeWhile_append_dropWhile] at hmove

theorem mem_insertAmong {siblings nodes : List NodeId} {reference : Option NodeId} {x : NodeId} :
    x ∈ insertAmong siblings nodes reference ↔ x ∈ siblings ∨ x ∈ nodes := by
  rw [(perm_insertAmong siblings nodes reference).mem_iff, List.mem_append]

end Dom

end LiveTemplate
