import LiveTemplate.Proofs.Dom.Acyclicity
import LiveTemplate.Proofs.Morph.Updating
import Mathlib.Data.List.DropRight

/-!
# LiveTemplate.Proofs.Morph.Sharing

Morphs that hand a node on to each other.

Next to anchors the siblings are rows of nodes that morphs remember, each in front of the
anchor of its morph, and nodes that no morph remembers (`layout`, `Family.Laid`).  All
updates keep this order, whatever nodes they are given (`Family.Kept.run`).

A morph goes on remembering a node that has been handed on.  So an update of it leaves
another morph alone exactly if none of the nodes that are shown there is among those that it
remembers and takes out, or is the text that it reuses (`Family.Kept.undisturbed_iff`).
-/

namespace LiveTemplate

/-- What a morph shows: the longest row of nodes that it remembers directly before its anchor. -/
def Morph.region (m : Morph) (dom : Dom) : List NodeId :=
  match dom.parent? m.anchor with
  | none => []
  | some p => ((dom.children p).takeWhile (· ≠ m.anchor)).rtakeWhile (· ∈ m.nodes)

/-- What stands at a region and below it is left alone by an update with a value, but for the value
itself, which may have been taken out from below. -/
structure Morph.Undisturbed (m : Morph) (value : Value) (dom dom' : Dom) : Prop where
  region_eq : m.region dom' = m.region dom
  data_eq : ∀ top ∈ m.region dom, ∀ x, dom.IsBelow x top → dom'.data x = dom.data x
  children_eq : ∀ top ∈ m.region dom, (∀ id, value = .node id → ¬dom.IsBelow id top) →
    ∀ x, dom.IsBelow x top → dom'.children x = dom.children x

/-- None of the nodes is one that an update of the morph takes out or changes: the text that it
reuses has the content already, or the nodes that it remembers do not stand below its anchor's
parent. -/
def Morph.Spares (m : Morph) (value : Value) (dom : Dom) (nodes : List NodeId) : Prop :=
  m.shows value = false → ∀ p, dom.parent? m.anchor = some p →
    match m.reusable? value dom with
    | some n => n ∈ nodes → dom.data n = .text value.text
    | none => ∀ x ∈ m.nodes, x ∈ nodes → dom.parent? x ≠ some p

theorem Morph.region_subset (m : Morph) (dom : Dom) : ∀ x ∈ m.region dom, x ∈ m.nodes := by
  intro x hx
  rw [region] at hx
  split at hx
  · cases hx
  · simpa using List.mem_rtakeWhile_imp hx

theorem Morph.region_of_detached {m : Morph} {dom : Dom} (h : dom.parent? m.anchor = none) :
    m.region dom = [] := by
  simp [region, h]

/-! ## rows of siblings -/

/-- Siblings that stay, each behind the row of nodes in front of it. -/
def layout (row : NodeId → List NodeId) (skeleton : List NodeId) : List NodeId :=
  skeleton.flatMap fun a => row a ++ [a]

section Layout

variable {row row' : NodeId → List NodeId} {skeleton nodes : List NodeId} {a x : NodeId}

theorem layout_append (row : NodeId → List NodeId) (before after : List NodeId) :
    layout row (before ++ after) = layout row before ++ layout row after := List.flatMap_append

theorem layout_cons (row : NodeId → List NodeId) (a : NodeId) (after : List NodeId) :
    layout row (a :: after) = row a ++ a :: layout row after := by
  simp [layout]

theorem mem_layout : x ∈ layout row skeleton ↔ ∃ a ∈ skeleton, x ∈ row a ∨ x = a := by
  simp [layout]

theorem layout_congr (h : ∀ a ∈ skeleton, row a = row' a) :
    layout row skeleton = layout row' skeleton :=
  List.flatMap_congr fun a ha => by rw [h a ha]

/-- A sibling that is dropped has nothing in front of it. -/
theorem filter_layout {keep : NodeId → Bool} (h : ∀ a ∈ skeleton, keep a = false → row a = []) :
    (layout row skeleton).filter keep =
      layout (fun a => (row a).filter keep) (skeleton.filter keep) := by
  induction skeleton with
  | nil => rfl
  | cons a skeleton ih =>
    obtain ⟨ha, hrest⟩ := List.forall_mem_cons.1 h
    rw [layout_cons, List.filter_append, List.filter_cons, List.filter_cons, ih hrest]
    cases hkeep : keep a with
    | true => simp [layout_cons]
    | false => simp [ha hkeep]

/-- In front of a sibling there is its row, behind what belongs to siblings before it. -/
theorem exists_layout_eq (ha : a ∈ skeleton) (hnodup : (layout row skeleton).Nodup) :
    ∃ before after, skeleton = before ++ a :: after ∧ a ∉ before ∧ a ∉ after ∧
      a ∉ layout row before ++ row a ∧
      layout row skeleton = layout row before ++ row a ++ a :: layout row after := by
  obtain ⟨before, after, rfl⟩ := List.append_of_mem ha
  have hsplit : layout row (before ++ a :: after) =
      layout row before ++ row a ++ a :: layout row after := by
    rw [layout_append, layout_cons, List.append_assoc]
  rw [hsplit, List.nodup_append] at hnodup
  obtain ⟨-, hafter, hapart⟩ := hnodup
  have hself : a ∉ layout row before ++ row a := fun h => hapart _ h _ List.mem_cons_self rfl
  refine ⟨before, after, rfl, fun h => hself ?_, fun h => ?_, hself, hsplit⟩
  · exact List.mem_append_left _ (mem_layout.2 ⟨a, h, .inr rfl⟩)
  · exact (List.nodup_cons.1 hafter).1 (mem_layout.2 ⟨a, h, .inr rfl⟩)

/-- Nodes that are inserted in front of a sibling stand at the end of its row. -/
theorem insertAmong_layout (ha : a ∈ skeleton) (hnodup : (layout row skeleton).Nodup)
    (nodes : List NodeId) :
    Dom.insertAmong (layout row skeleton) nodes (some a) =
      layout (fun b => if b = a then row b ++ nodes else row b) skeleton := by
  obtain ⟨before, after, rfl, hbefore, hafter, hself, hsplit⟩ := exists_layout_eq ha hnodup
  have hother : ∀ others : List NodeId, a ∉ others →
      layout (fun b => if b = a then row b ++ nodes else row b) others = layout row others :=
    fun others hothers => layout_congr fun b hb => if_neg fun (h : b = a) => hothers (h ▸ hb)
  rw [hsplit, Dom.insertAmong_append_cons hself, layout_append, layout_cons, hother before hbefore,
    hother after hafter, if_pos rfl]
  simp

/-- The row in front of a sibling is the longest one of its nodes, where no sibling is one of
them. -/
theorem rtakeWhile_layout (ha : a ∈ skeleton) (hnodup : (layout row skeleton).Nodup)
    (hrow : row a ⊆ nodes) (hskeleton : ∀ b ∈ skeleton, b ∉ nodes) :
    ((layout row skeleton).takeWhile (· ≠ a)).rtakeWhile (· ∈ nodes) = row a := by
  obtain ⟨before, after, rfl, -, -, hself, hsplit⟩ := exists_layout_eq ha hnodup
  have htake : (layout row (before ++ a :: after)).takeWhile (· ≠ a) =
      layout row before ++ row a := by
    have hne : ∀ x ∈ layout row before ++ row a, decide (x ≠ a) = true :=
      fun x hx => decide_eq_true fun h => hself (h ▸ hx)
    rw [hsplit, List.takeWhile_append_of_pos hne]
    simp
  have hstop : (layout row before).reverse.takeWhile (· ∈ nodes) = [] := by
    rcases List.eq_nil_or_concat before with rfl | ⟨before, b, rfl⟩
    · rfl
    · simp [layout, hskeleton b (by simp)]
  rw [htake, List.rtakeWhile, List.reverse_append,
    List.takeWhile_append_of_pos fun x hx => decide_eq_true (hrow (List.mem_reverse.1 hx)), hstop]
  simp

end Layout

/-! ## morphs of one document -/

/-- Morphs of one document. -/
structure Family (ι : Type) where
  morph : ι → Morph
  dom : Dom

namespace Family

variable {ι : Type} {s s' : Family ι} {i j : ι} {value : Value} {p x : NodeId}

def anchor (s : Family ι) (i : ι) : NodeId := (s.morph i).anchor

/-- The values that may be shown: of the nodes those of the document that are neither fragments,
nor an anchor or anything above one. -/
def Accepts (s : Family ι) (value : Value) : Prop :=
  ∀ id, value = .node id → id.index < s.dom.size ∧ (s.dom.data id).isFragment = false ∧
    ∀ i, ¬s.dom.IsBelow (s.anchor i) id

/-- The morphs have anchors of their own, and show nothing yet. -/
structure Starts (s : Family ι) : Prop where
  linked : s.dom.Linked
  injective : Function.Injective s.anchor
  anchor_lt : ∀ i, (s.anchor i).index < s.dom.size
  nodes : ∀ i, (s.morph i).nodes = []

/-- What all updates keep besides the order of siblings: remembered nodes are not above anchors,
and stand next to anchors or nowhere. -/
structure Kept (s : Family ι) : Prop where
  linked : s.dom.Linked
  injective : Function.Injective s.anchor
  anchor_lt : ∀ i, (s.anchor i).index < s.dom.size
  index_lt : ∀ i, ∀ x ∈ (s.morph i).nodes, x.index < s.dom.size
  not_above : ∀ i j, ∀ x ∈ (s.morph i).nodes, ¬s.dom.IsBelow (s.anchor j) x
  beside : ∀ i, ∀ x ∈ (s.morph i).nodes, ∀ q, s.dom.parent? x = some q →
    ∃ j, s.dom.parent? (s.anchor j) = some q

/-- The order of siblings: next to anchors there are nodes that no morph remembers, and in front of
each anchor a row of nodes that its morph remembers. -/
structure Laid (s : Family ι) (skeleton row : NodeId → List NodeId) : Prop where
  children_eq : ∀ j q, s.dom.parent? (s.anchor j) = some q →
    s.dom.children q = layout row (skeleton q)
  not_mem_nodes : ∀ j q, s.dom.parent? (s.anchor j) = some q → ∀ a ∈ skeleton q,
    ∀ i, a ∉ (s.morph i).nodes
  row_subset : ∀ i, row (s.anchor i) ⊆ (s.morph i).nodes
  row_eq_nil : ∀ a, (∀ i, s.anchor i ≠ a) → row a = []

namespace Laid

variable {skeleton row : NodeId → List NodeId}

/-- A node of a row is remembered. -/
theorem exists_mem_nodes (h : s.Laid skeleton row) {a : NodeId} (hx : x ∈ row a) :
    ∃ i, s.anchor i = a ∧ x ∈ (s.morph i).nodes := by
  by_cases hanchor : ∃ i, s.anchor i = a
  · obtain ⟨i, rfl⟩ := hanchor
    exact ⟨i, rfl, h.row_subset i hx⟩
  · rw [h.row_eq_nil a fun i hi => hanchor ⟨i, hi⟩] at hx
    cases hx

/-- Anchors are among the nodes that no morph remembers. -/
theorem anchor_mem (h : s.Laid skeleton row) (hkept : s.Kept)
    (hanchor : s.dom.parent? (s.anchor j) = some p) : s.anchor j ∈ skeleton p := by
  have hmem := (hkept.linked.mem_children_iff p _).2 hanchor
  rw [h.children_eq j p hanchor] at hmem
  obtain ⟨a, ha, hrow | heq⟩ := mem_layout.1 hmem
  · obtain ⟨i, -, hi⟩ := h.exists_mem_nodes hrow
    exact absurd (.refl _) (hkept.not_above i j _ hi)
  · rwa [heq]

/-- The row in front of an anchor stands where the anchor does. -/
theorem parent?_eq (h : s.Laid skeleton row) (hkept : s.Kept)
    (hanchor : s.dom.parent? (s.anchor j) = some p) (hx : x ∈ row (s.anchor j)) :
    s.dom.parent? x = some p := by
  rw [← hkept.linked.mem_children_iff, h.children_eq j p hanchor]
  exact mem_layout.2 ⟨_, h.anchor_mem hkept hanchor, .inl hx⟩

/-- A morph shows the row in front of its anchor. -/
theorem region_eq (h : s.Laid skeleton row) (hkept : s.Kept)
    (hanchor : s.dom.parent? (s.anchor j) = some p) :
    (s.morph j).region s.dom = row (s.anchor j) := by
  have hanchor' : s.dom.parent? (s.morph j).anchor = some p := hanchor
  have hnodup := hkept.linked.nodup_children p
  rw [h.children_eq j p hanchor] at hnodup
  rw [Morph.region, hanchor']
  simp only [h.children_eq j p hanchor]
  exact rtakeWhile_layout (h.anchor_mem hkept hanchor) hnodup (h.row_subset j)
    fun b hb => h.not_mem_nodes j p hanchor b hb j

end Laid

/-- Nothing gets another place, and the morphs remember the same nodes. -/
structure Still (s s' : Family ι) : Prop where
  anchor_eq : ∀ k, s'.anchor k = s.anchor k
  nodes_eq : ∀ k, (s'.morph k).nodes = (s.morph k).nodes
  size_eq : s'.dom.size = s.dom.size
  parent?_eq : ∀ x, s'.dom.parent? x = s.dom.parent? x
  children_eq : ∀ x, s'.dom.children x = s.dom.children x

/-! ### what updates keep -/

theorem Still.kept (h : s.Still s') (hkept : s.Kept) (hlinked : s'.dom.Linked) : s'.Kept := by
  have hbelow : ∀ x y, s'.dom.IsBelow x y → s.dom.IsBelow x y := fun x y hxy =>
    hxy.of_links fun z _ => (h.parent?_eq z).symm
  constructor
  case linked => exact hlinked
  case injective =>
    intro i j hij
    refine hkept.injective ?_
    rwa [h.anchor_eq, h.anchor_eq] at hij
  case anchor_lt =>
    intro i
    rw [h.anchor_eq, h.size_eq]
    exact hkept.anchor_lt i
  case index_lt =>
    intro i x hx
    rw [h.size_eq]
    exact hkept.index_lt i x (h.nodes_eq i ▸ hx)
  case not_above =>
    intro i j x hx hxj
    rw [h.anchor_eq] at hxj
    exact hkept.not_above i j x (h.nodes_eq i ▸ hx) (hbelow _ _ hxj)
  case beside =>
    intro i x hx q hq
    rw [h.parent?_eq] at hq
    obtain ⟨j, hj⟩ := hkept.beside i x (h.nodes_eq i ▸ hx) q hq
    exact ⟨j, by rw [h.anchor_eq, h.parent?_eq, hj]⟩

theorem Still.laid (h : s.Still s') {skeleton row : NodeId → List NodeId}
    (hlaid : s.Laid skeleton row) : s'.Laid skeleton row where
  children_eq j q hq := by
    rw [h.anchor_eq, h.parent?_eq] at hq
    rw [h.children_eq, hlaid.children_eq j q hq]
  not_mem_nodes j q hq a ha i := by
    rw [h.anchor_eq, h.parent?_eq] at hq
    rw [h.nodes_eq]
    exact hlaid.not_mem_nodes j q hq a ha i
  row_subset i := by
    rw [h.anchor_eq, h.nodes_eq]
    exact hlaid.row_subset i
  row_eq_nil a ha := hlaid.row_eq_nil a fun i => h.anchor_eq i ▸ ha i

/-- An update of the morph `i` that places its value below `p`. -/
structure Turned (s : Family ι) (i : ι) (value : Value) (p : NodeId) (s' : Family ι) : Prop where
  anchor_eq : ∀ k, s'.anchor k = s.anchor k
  morph_eq : ∀ k, k ≠ i → s'.morph k = s.morph k
  parent?_anchor : s.dom.parent? (s.anchor i) = some p
  placed : (s.morph i).Placed value s.dom p (s'.morph i) s'.dom
  linked : s'.dom.Linked

/-- The rows after an update: what stays of them, and in front of the anchor what is shown. -/
def rowAfter (s : Family ι) (i : ι) (p : NodeId) (shown : List NodeId)
    (row : NodeId → List NodeId) (a : NodeId) : List NodeId :=
  (row a).filter ((s.morph i).stays s.dom p shown) ++ if a = s.anchor i then shown else []

namespace Turned

/-- A node that is neither remembered nor the value stays where it is. -/
theorem parent?_eq (h : s.Turned i value p s') (hx : x.index < s.dom.size)
    (hnodes : x ∉ (s.morph i).nodes) (hvalue : value ≠ .node x) :
    s'.dom.parent? x = s.dom.parent? x := by
  have hnot : x ∉ (s'.morph i).nodes := fun hmem => by
    rcases h.placed.new x hmem with hnode | hfresh
    · exact hvalue hnode
    · exact absurd hx (Nat.not_lt.2 hfresh)
  rw [h.placed.parent?_of_not_mem x hx hnot, if_neg fun hmem => hnodes hmem.1]

theorem anchor_not_mem (h : s.Turned i value p s') (hkept : s.Kept) (hvalue : s.Accepts value)
    (j : ι) : s.anchor j ∉ (s'.morph i).nodes := fun hmem => by
  rcases h.placed.new _ hmem with hnode | hfresh
  · exact (hvalue _ hnode).2.2 j (.refl _)
  · exact absurd (hkept.anchor_lt j) (Nat.not_lt.2 hfresh)

/-- Nothing above an anchor gets another place. -/
theorem parent?_above (h : s.Turned i value p s') (hkept : s.Kept) (hvalue : s.Accepts value)
    (hx : s.dom.IsBelow (s.anchor j) x) : s'.dom.parent? x = s.dom.parent? x :=
  h.parent?_eq (hx.index_lt hkept.linked (hkept.anchor_lt j))
    (fun hmem => hkept.not_above i j x hmem hx) fun hnode => (hvalue x hnode).2.2 j hx

theorem parent?_anchor_eq (h : s.Turned i value p s') (hkept : s.Kept) (hvalue : s.Accepts value)
    (j : ι) : s'.dom.parent? (s.anchor j) = s.dom.parent? (s.anchor j) :=
  h.parent?_above hkept hvalue (.refl _)

theorem isBelow (h : s.Turned i value p s') (hkept : s.Kept) (hvalue : s.Accepts value)
    (hx : s'.dom.IsBelow (s.anchor j) x) : s.dom.IsBelow (s.anchor j) x :=
  hx.of_links fun _ hy => (h.parent?_above hkept hvalue hy).symm

theorem kept (h : s.Turned i value p s') (hkept : s.Kept) (hvalue : s.Accepts value) :
    s'.Kept := by
  have hle := h.placed.size_le
  have hparent := h.parent?_anchor_eq hkept hvalue
  constructor
  case linked => exact h.linked
  case injective =>
    intro j k hjk
    refine hkept.injective ?_
    rwa [h.anchor_eq, h.anchor_eq] at hjk
  case anchor_lt =>
    intro j
    rw [h.anchor_eq]
    exact Nat.lt_of_lt_of_le (hkept.anchor_lt j) hle
  case index_lt =>
    intro k x hx
    by_cases hk : k = i
    · exact h.placed.index_lt x (hk ▸ hx)
    · rw [h.morph_eq k hk] at hx
      exact Nat.lt_of_lt_of_le (hkept.index_lt k x hx) hle
  case not_above =>
    intro k j x hx hbelow
    rw [h.anchor_eq] at hbelow
    have hold := h.isBelow hkept hvalue hbelow
    by_cases hk : k = i
    · rcases h.placed.new x (hk ▸ hx) with hnode | hfresh
      · exact (hvalue x hnode).2.2 j hold
      · exact absurd (hold.index_lt hkept.linked (hkept.anchor_lt j)) (Nat.not_lt.2 hfresh)
    · rw [h.morph_eq k hk] at hx
      exact hkept.not_above k j x hx hold
  case beside =>
    intro k x hx q hq
    simp only [h.anchor_eq, hparent]
    by_cases hnew : x ∈ (s'.morph i).nodes
    · rw [h.placed.parent?_of_mem x hnew] at hq
      exact ⟨i, by rw [h.parent?_anchor, hq]⟩
    · have hk : k ≠ i := fun hk => hnew (hk ▸ hx)
      rw [h.morph_eq k hk] at hx
      rw [h.placed.parent?_of_not_mem x (hkept.index_lt k x hx) hnew] at hq
      split at hq
      · cases hq
      · exact hkept.beside k x hx q hq

/-! #### the order of siblings -/

variable {skeleton row : NodeId → List NodeId}

/-- Nothing stays of the row in front of the anchor. -/
theorem rowAfter_anchor (h : s.Turned i value p s') (hkept : s.Kept) (hlaid : s.Laid skeleton row)
    (shown : List NodeId) : s.rowAfter i p shown row (s.anchor i) = shown := by
  have hgone : (row (s.anchor i)).filter ((s.morph i).stays s.dom p shown) = [] := by
    refine List.filter_eq_nil_iff.2 fun x hx => ?_
    have hparent := hlaid.parent?_eq hkept h.parent?_anchor hx
    simp [Morph.stays, hlaid.row_subset i hx, hparent]
  rw [rowAfter, hgone, if_pos rfl, List.nil_append]

theorem rowAfter_of_ne {a : NodeId} (ha : a ≠ s.anchor i) (shown : List NodeId) :
    s.rowAfter i p shown row a = (row a).filter ((s.morph i).stays s.dom p shown) := by
  rw [rowAfter, if_neg ha, List.append_nil]

/-- Next to an anchor the nodes that no morph remembers stay, but for the value, and the rows in
front of them change. -/
theorem children_eq (h : s.Turned i value p s') (hkept : s.Kept) (hvalue : s.Accepts value)
    (hlaid : s.Laid skeleton row) {q : NodeId} (hq : s.dom.parent? (s.anchor j) = some q) :
    s'.dom.children q =
      layout (s.rowAfter i p (s'.morph i).nodes row)
        ((skeleton q).filter (· ∉ (s'.morph i).nodes)) := by
  have hlt := (hkept.linked.index_lt hq).1
  have hskeleton : (skeleton q).filter ((s.morph i).stays s.dom p (s'.morph i).nodes) =
      (skeleton q).filter (· ∉ (s'.morph i).nodes) :=
    List.filter_congr fun a ha => by simp [Morph.stays, hlaid.not_mem_nodes j q hq a ha i]
  -- A sibling that is taken away is the value, and no anchor.
  have hbare : ∀ a ∈ skeleton q,
      (s.morph i).stays s.dom p (s'.morph i).nodes a = false → row a = [] := by
    intro a ha hstays
    have hnew : a ∈ (s'.morph i).nodes := by
      simpa [Morph.stays, hlaid.not_mem_nodes j q hq a ha i] using hstays
    refine hlaid.row_eq_nil a fun k hk => ?_
    rcases h.placed.new a hnew with hnode | hfresh
    · exact (hvalue a hnode).2.2 k (hk ▸ .refl _)
    · exact absurd (hk ▸ hkept.anchor_lt k) (Nat.not_lt.2 hfresh)
  have hrest : (s.dom.children q).filter ((s.morph i).stays s.dom p (s'.morph i).nodes) =
      layout (fun a => (row a).filter ((s.morph i).stays s.dom p (s'.morph i).nodes))
        ((skeleton q).filter (· ∉ (s'.morph i).nodes)) := by
    rw [hlaid.children_eq j q hq, filter_layout hbare, hskeleton]
  rw [h.placed.children_eq q hlt, hrest]
  by_cases hqp : q = p
  · subst hqp
    have hanchor : s.anchor i ∈ (skeleton q).filter (· ∉ (s'.morph i).nodes) :=
      List.mem_filter.2 ⟨hlaid.anchor_mem hkept h.parent?_anchor,
        by simpa using h.anchor_not_mem hkept hvalue i⟩
    rw [if_pos rfl, ← anchor, insertAmong_layout hanchor
      (hrest ▸ (hkept.linked.nodup_children q).filter _)]
    refine layout_congr fun a _ => ?_
    by_cases ha : a = s.anchor i <;> simp [rowAfter, ha]
  · rw [if_neg hqp]
    refine layout_congr fun a ha => ?_
    have hchild : a ∈ s.dom.children q := by
      rw [hlaid.children_eq j q hq]
      exact mem_layout.2 ⟨a, (List.mem_filter.1 ha).1, .inr rfl⟩
    have hne : a ≠ s.anchor i := by
      rintro rfl
      rw [hkept.linked.mem_children_iff, h.parent?_anchor] at hchild
      exact hqp (Option.some.inj hchild).symm
    rw [rowAfter_of_ne hne]

theorem laid (h : s.Turned i value p s') (hkept : s.Kept) (hvalue : s.Accepts value)
    (hlaid : s.Laid skeleton row) :
    s'.Laid (fun q => (skeleton q).filter (· ∉ (s'.morph i).nodes))
      (s.rowAfter i p (s'.morph i).nodes row) where
  children_eq j q hq := by
    rw [h.anchor_eq, h.parent?_anchor_eq hkept hvalue] at hq
    exact h.children_eq hkept hvalue hlaid hq
  not_mem_nodes j q hq a ha k := by
    rw [h.anchor_eq, h.parent?_anchor_eq hkept hvalue] at hq
    obtain ⟨ha, hnew⟩ := List.mem_filter.1 ha
    by_cases hk : k = i
    · rw [hk]
      simpa using hnew
    · rw [h.morph_eq k hk]
      exact hlaid.not_mem_nodes j q hq a ha k
  row_subset k := by
    rw [h.anchor_eq]
    by_cases hk : k = i
    · rw [hk, h.rowAfter_anchor hkept hlaid]
      exact List.Subset.refl _
    · rw [h.morph_eq k hk, rowAfter_of_ne fun heq => hk (hkept.injective heq)]
      exact fun x hx => hlaid.row_subset k (List.mem_filter.1 hx).1
  row_eq_nil a ha := by
    have hne : a ≠ s.anchor i := fun heq => ha i (by rw [h.anchor_eq, heq])
    rw [rowAfter_of_ne hne, hlaid.row_eq_nil a fun k => h.anchor_eq k ▸ ha k]
    rfl

/-- The morph shows what it remembers. -/
theorem region_self (h : s.Turned i value p s') (hkept : s.Kept) (hvalue : s.Accepts value)
    (hlaid : s.Laid skeleton row) : (s'.morph i).region s'.dom = (s'.morph i).nodes := by
  have hanchor : s'.dom.parent? (s'.anchor i) = some p := by
    rw [h.anchor_eq, h.parent?_anchor_eq hkept hvalue, h.parent?_anchor]
  rw [(h.laid hkept hvalue hlaid).region_eq (h.kept hkept hvalue) hanchor, h.anchor_eq,
    h.rowAfter_anchor hkept hlaid]

/-- Other morphs show what stays of what they have shown. -/
theorem region_of_ne (h : s.Turned i value p s') (hkept : s.Kept) (hvalue : s.Accepts value)
    (hlaid : s.Laid skeleton row) (hji : j ≠ i) :
    (s.morph j).region s'.dom =
      ((s.morph j).region s.dom).filter ((s.morph i).stays s.dom p (s'.morph i).nodes) := by
  have hkept' := h.parent?_anchor_eq hkept hvalue j
  cases hanchor : s.dom.parent? (s.anchor j) with
  | none =>
    rw [hanchor] at hkept'
    rw [Morph.region_of_detached hkept', Morph.region_of_detached hanchor]
    rfl
  | some q =>
    have hanchor' : s'.dom.parent? (s'.anchor j) = some q := by
      rw [h.anchor_eq, hkept', hanchor]
    rw [hlaid.region_eq hkept hanchor, ← h.morph_eq j hji,
      (h.laid hkept hvalue hlaid).region_eq (h.kept hkept hvalue) hanchor', h.anchor_eq,
      rowAfter_of_ne fun heq => hji (hkept.injective heq)]

/-- Nothing at or below a node that another morph shows is changed, but for the value. -/
theorem below (h : s.Turned i value p s') (hkept : s.Kept) {top : NodeId}
    (htop : top ∈ (s.morph j).nodes) (hx : s.dom.IsBelow x top) :
    s'.dom.data x = s.dom.data x ∧ ((∀ id, value = .node id → ¬s.dom.IsBelow id top) →
      s'.dom.children x = s.dom.children x) := by
  have hlt : x.index < s.dom.size := hx.index_lt_of_top hkept.linked (hkept.index_lt j top htop)
  refine ⟨h.placed.data_eq x hlt, fun hvalue => ?_⟩
  have hne : x ≠ p := by
    rintro rfl
    exact hkept.not_above j i top htop (.parent h.parent?_anchor hx)
  rw [h.placed.children_eq x hlt]
  simp only [if_neg hne]
  refine List.filter_eq_self.2 fun c hc => ?_
  have hparent := (hkept.linked.mem_children_iff x c).1 hc
  have hold : c ∉ (s'.morph i).nodes := fun hmem => by
    rcases h.placed.new c hmem with hnode | hfresh
    · exact hvalue c hnode (.parent hparent hx)
    · exact absurd (hkept.linked.index_lt hparent).2 (Nat.not_lt.2 hfresh)
  simp [Morph.stays, hold, hparent, hne]

/-- Another morph is left alone exactly if none of the nodes that it shows is taken out. -/
theorem undisturbed_iff (h : s.Turned i value p s') (hkept : s.Kept) (hvalue : s.Accepts value)
    (hlaid : s.Laid skeleton row) (hji : j ≠ i)
    (hnot : ∀ x ∈ (s.morph j).region s.dom, value ≠ .node x) :
    (s.morph j).Undisturbed value s.dom s'.dom ↔
      ∀ x ∈ (s.morph i).nodes, x ∈ (s.morph j).region s.dom → s.dom.parent? x ≠ some p := by
  have hregion := h.region_of_ne hkept hvalue hlaid hji
  have hmem : ∀ x ∈ (s.morph j).region s.dom, x ∈ (s.morph j).nodes := Morph.region_subset _ _
  have hold : ∀ x ∈ (s.morph j).region s.dom, x ∉ (s'.morph i).nodes := fun x hx hnew => by
    rcases h.placed.new x hnew with hnode | hfresh
    · exact hnot x hx hnode
    · exact absurd (hkept.index_lt j x (hmem x hx)) (Nat.not_lt.2 hfresh)
  constructor
  · intro hsame x hx hshown hparent
    have hstays := List.filter_eq_self.1 (hregion.symm.trans hsame.region_eq) x hshown
    simp [Morph.stays, hx, hparent] at hstays
  · intro hspares
    refine ⟨?_, fun top htop x hx => (h.below hkept (hmem top htop) hx).1,
      fun top htop hfree x hx => (h.below hkept (hmem top htop) hx).2 hfree⟩
    rw [hregion]
    refine List.filter_eq_self.2 fun x hx => ?_
    have hstays : x ∈ (s.morph i).nodes → s.dom.parent? x ≠ some p := fun hnode =>
      hspares x hnode hx
    simpa [Morph.stays, hold x hx, imp_iff_not_or] using hstays

end Turned

/-! ### texts that are changed -/

/-- Changing a text leaves a morph alone exactly if the text is not shown there, or the same. -/
theorem undisturbed_setText_iff (hkept : s.Kept) {n : NodeId}
    (hreusable : (s.morph i).reusable? value s.dom = some n) (j : ι) :
    (s.morph j).Undisturbed value s.dom (s.dom.setText n value.text) ↔
      (n ∈ (s.morph j).region s.dom → s.dom.data n = .text value.text) := by
  obtain ⟨-, -, hnodes, htext⟩ := Morph.reusable?_eq_some hreusable
  have hself := Dom.data_setText_self htext value.text
  have hn : n ∈ (s.morph i).nodes := by simp [hnodes]
  constructor
  · intro hsame hmem
    rw [← hsame.data_eq n hmem n (.refl n), hself]
  · intro hspares
    refine ⟨by simp [Morph.region], fun top htop x hx => ?_, by simp⟩
    by_cases hxn : x = n
    · subst hxn
      cases hx with
      | refl => rw [hself, hspares htop]
      | @parent _ q _ hparent hbelow =>
        -- A remembered node stands next to an anchor, below which no morph shows anything.
        obtain ⟨k, hk⟩ := hkept.beside i x hn q hparent
        exact absurd (.parent hk hbelow) (hkept.not_above j k top (Morph.region_subset _ _ _ htop))
    · exact Dom.data_setText_of_ne hxn value.text

/-! ### updates one after the other -/

theorem Starts.kept (h : s.Starts) : s.Kept where
  linked := h.linked
  injective := h.injective
  anchor_lt := h.anchor_lt
  index_lt i x hx := by simp [h.nodes i] at hx
  not_above i j x hx := by simp [h.nodes i] at hx
  beside i x hx := by simp [h.nodes i] at hx

theorem Starts.laid (h : s.Starts) : s.Laid s.dom.children fun _ => [] where
  children_eq j q _ := by simp [layout]
  not_mem_nodes j q _ a _ i := by simp [h.nodes i]
  row_subset i := by simp
  row_eq_nil a _ := rfl

section Take

variable [DecidableEq ι]

/-- Updates one of the morphs. -/
def take (s : Family ι) (i : ι) (value : Value) : Family ι :=
  let (m, dom) := (s.morph i).update value s.dom
  { morph := Function.update s.morph i m, dom }

/-- Updates morphs one after the other. -/
def run (s : Family ι) (turns : List (ι × Value)) : Family ι :=
  turns.foldl (fun s turn => s.take turn.1 turn.2) s

/-- Updates with values that may be shown. -/
def Allows (s : Family ι) : List (ι × Value) → Prop
  | [] => True
  | turn :: turns => s.Accepts turn.2 ∧ (s.take turn.1 turn.2).Allows turns

theorem morph_take_self (s : Family ι) (i : ι) (value : Value) :
    (s.take i value).morph i = ((s.morph i).update value s.dom).1 := Function.update_self ..

theorem morph_take_of_ne (hji : j ≠ i) (value : Value) :
    (s.take i value).morph j = s.morph j := Function.update_of_ne hji ..

theorem dom_take (s : Family ι) (i : ι) (value : Value) :
    (s.take i value).dom = ((s.morph i).update value s.dom).2 := rfl

@[simp] theorem anchor_take (s : Family ι) (i j : ι) (value : Value) :
    (s.take i value).anchor j = s.anchor j := by
  by_cases hji : j = i
  · subst hji
    rw [anchor, morph_take_self, Morph.anchor_update, anchor]
  · rw [anchor, morph_take_of_ne hji, anchor]

/-- What an update does: nothing, a text is changed, or what shows the value is placed. -/
inductive Takes (s : Family ι) (i : ι) (value : Value) (s' : Family ι) : Prop where
  | nothing (idle : (s.morph i).shows value = true ∨ s.dom.parent? (s.anchor i) = none)
    (still : s.Still s') (dom_eq : s'.dom = s.dom)
  | change (n p : NodeId) (shows : (s.morph i).shows value = false)
    (parent?_anchor : s.dom.parent? (s.anchor i) = some p)
    (reusable : (s.morph i).reusable? value s.dom = some n)
    (still : s.Still s') (dom_eq : s'.dom = s.dom.setText n value.text)
  | place (p : NodeId) (shows : (s.morph i).shows value = false)
    (reusable : (s.morph i).reusable? value s.dom = none) (turned : s.Turned i value p s')

/-- An update that leaves a morph its nodes and all nodes their places. -/
theorem still_take (hnodes : ((s.morph i).update value s.dom).1.nodes = (s.morph i).nodes)
    (hsize : ((s.morph i).update value s.dom).2.size = s.dom.size)
    (hparent : ∀ x, ((s.morph i).update value s.dom).2.parent? x = s.dom.parent? x)
    (hchildren : ∀ x, ((s.morph i).update value s.dom).2.children x = s.dom.children x) :
    s.Still (s.take i value) where
  anchor_eq k := s.anchor_take i k value
  nodes_eq k := by
    by_cases hk : k = i
    · rw [hk, morph_take_self, hnodes]
    · rw [morph_take_of_ne hk]
  size_eq := hsize
  parent?_eq := hparent
  children_eq := hchildren

theorem takes (hkept : s.Kept) (i : ι) (hvalue : s.Accepts value) :
    s.Takes i value (s.take i value) := by
  have hway := (s.morph i).way_update value s.dom
  generalize hupdate : (s.morph i).update value s.dom = result at hway
  cases hway with
  | idle hshows =>
    exact .nothing (.inl hshows) (still_take (by simp [hupdate]) (by simp [hupdate])
      (by simp [hupdate]) (by simp [hupdate])) (by rw [dom_take, hupdate])
  | detached _ hanchor =>
    exact .nothing (.inr hanchor) (still_take (by simp [hupdate]) (by simp [hupdate])
      (by simp [hupdate]) (by simp [hupdate])) (by rw [dom_take, hupdate])
  | @reuse p n hshows hanchor hreusable =>
    exact .change n p hshows hanchor hreusable (still_take (by rw [hupdate]; rfl)
      (by simp [hupdate]) (by simp [hupdate]) (by simp [hupdate])) (by rw [dom_take, hupdate])
  | @replace p hshows hanchor hreusable =>
    refine .place p hshows hreusable ⟨fun k => s.anchor_take i k value,
      fun k hk => morph_take_of_ne hk _, hanchor, ?_,
      hkept.linked.update _ fun id hid => (hvalue id hid).1⟩
    rw [morph_take_self]
    exact Morph.placed_update hkept.linked hshows hanchor hreusable
      fun id hid => ⟨(hvalue id hid).1, (hvalue id hid).2.1⟩

theorem Kept.take (hkept : s.Kept) (i : ι) (hvalue : s.Accepts value) : (s.take i value).Kept := by
  cases takes hkept i hvalue with
  | nothing _ still _ =>
    exact still.kept hkept (hkept.linked.update _ fun id hid => (hvalue id hid).1)
  | change _ _ _ _ _ still _ =>
    exact still.kept hkept (hkept.linked.update _ fun id hid => (hvalue id hid).1)
  | place _ _ _ turned => exact turned.kept hkept hvalue

theorem Laid.take {skeleton row : NodeId → List NodeId} (hlaid : s.Laid skeleton row)
    (hkept : s.Kept) (i : ι) (hvalue : s.Accepts value) :
    ∃ skeleton row, (s.take i value).Laid skeleton row := by
  cases takes hkept i hvalue with
  | nothing _ still _ => exact ⟨_, _, still.laid hlaid⟩
  | change _ _ _ _ _ still _ => exact ⟨_, _, still.laid hlaid⟩
  | place _ _ _ turned => exact ⟨_, _, turned.laid hkept hvalue hlaid⟩

/-- All updates keep the order of siblings and what goes with it. -/
theorem Kept.run (hkept : s.Kept) {skeleton row : NodeId → List NodeId}
    (hlaid : s.Laid skeleton row) {turns : List (ι × Value)} (hturns : s.Allows turns) :
    (s.run turns).Kept ∧ ∃ skeleton row, (s.run turns).Laid skeleton row := by
  induction turns generalizing s skeleton row with
  | nil => exact ⟨hkept, _, _, hlaid⟩
  | cons turn turns ih =>
    obtain ⟨_, _, hlaid'⟩ := hlaid.take hkept turn.1 hturns.1
    exact ih (hkept.take turn.1 hturns.1) hlaid' hturns.2

/-- Another morph is left alone by an update exactly if none of the nodes that it shows is taken out
or changed. -/
theorem Kept.undisturbed_iff (hkept : s.Kept) {skeleton row : NodeId → List NodeId}
    (hlaid : s.Laid skeleton row) (hvalue : s.Accepts value) (hji : j ≠ i)
    (hnot : ∀ x ∈ (s.morph j).region s.dom, value ≠ .node x) :
    (s.morph j).Undisturbed value s.dom (s.take i value).dom ↔
      (s.morph i).Spares value s.dom ((s.morph j).region s.dom) := by
  cases takes hkept i hvalue with
  | nothing idle still dom_eq =>
    rw [dom_eq]
    refine iff_of_true ⟨rfl, fun _ _ _ _ => rfl, fun _ _ _ _ _ => rfl⟩ fun hshows p hanchor => ?_
    rcases idle with hshows' | hdetached
    · rw [hshows] at hshows'
      cases hshows'
    · exact absurd (hdetached.symm.trans hanchor) (by simp)
  | change n p shows anchor reusable still dom_eq =>
    have hanchor : s.dom.parent? (s.morph i).anchor = some p := anchor
    rw [dom_eq, undisturbed_setText_iff hkept reusable j, Morph.Spares]
    simp [shows, hanchor, reusable]
  | place p shows reusable turned =>
    have hanchor : s.dom.parent? (s.morph i).anchor = some p := turned.parent?_anchor
    rw [turned.undisturbed_iff hkept hvalue hlaid hji hnot, Morph.Spares]
    simp [shows, hanchor, reusable]

/-- In whatever order morphs with anchors of their own are updated with values that may be shown, an
update with a value that another one does not show leaves that one alone exactly if it takes out and
changes none of the nodes that are shown there.  What an update places itself is all shown. -/
theorem undisturbed_run_iff (h : s.Starts) {turns : List (ι × Value)} (hturns : s.Allows turns)
    (hji : j ≠ i) (hvalue : (s.run turns).Accepts value)
    (hnot : ∀ x ∈ ((s.run turns).morph j).region (s.run turns).dom, value ≠ .node x) :
    let before := s.run turns
    let after := before.take i value
    after.morph j = before.morph j ∧
      ((before.morph j).Undisturbed value before.dom after.dom ↔
        (before.morph i).Spares value before.dom ((before.morph j).region before.dom)) ∧
      ((before.morph i).shows value = false → before.dom.parent? (before.anchor i) ≠ none →
        (before.morph i).reusable? value before.dom = none →
        (after.morph i).region after.dom = (after.morph i).nodes) := by
  intro before after
  obtain ⟨hkept, _, _, hlaid⟩ := h.kept.run h.laid hturns
  refine ⟨morph_take_of_ne hji value, hkept.undisturbed_iff hlaid hvalue hji hnot,
    fun hshows hanchor hreusable => ?_⟩
  cases takes hkept i hvalue with
  | nothing idle _ _ =>
    rcases idle with hshows' | hdetached
    · rw [hshows] at hshows'
      cases hshows'
    · exact absurd hdetached hanchor
  | change n p _ _ reusable _ _ =>
    rw [hreusable] at reusable
    cases reusable
  | place p _ _ turned => exact turned.region_self hkept hvalue hlaid

end Take

/-! ### a node that is handed on -/

/-- Two morphs in a `div`, with a `span` that stands nowhere. -/
def sample : Family Bool where
  morph i := .create (if i then ⟨2⟩ else ⟨1⟩) true none
  dom := [Dom.Operation.create (.element "div" .xhtml {}), .create (.text ""),
    .insertBefore ⟨0⟩ ⟨1⟩ none, .create (.text ""), .insertBefore ⟨0⟩ ⟨2⟩ none,
    .create (.element "span" .xhtml {})].foldl Dom.Operation.apply {}

theorem starts_sample : sample.Starts where
  linked := by
    have hreached : sample.dom.Reached := by
      refine Dom.Reached.empty.operations ⟨?_, ?_, ⟨by decide, by decide⟩, ?_,
        ⟨by decide, by decide⟩, ?_, trivial⟩
      · rintro _ _ _ ⟨⟩
        rfl
      · rintro _ _ _ ⟨⟩
      · rintro _ _ _ ⟨⟩
      · rintro _ _ _ ⟨⟩
        rfl
    exact hreached.consistent.linked
  injective i j := by
    revert i j
    decide
  anchor_lt := by decide
  nodes _ := rfl

/-- The `span` may be shown by one morph and then by the other one. -/
theorem allows_sample : sample.Allows [(false, .node ⟨3⟩), (true, .node ⟨3⟩)] := by
  have haccepts : ∀ s : Family Bool, s.Kept → s.dom.children ⟨3⟩ = [] →
      (⟨3⟩ : NodeId).index < s.dom.size → (s.dom.data ⟨3⟩).isFragment = false →
      (∀ i, s.anchor i ≠ ⟨3⟩) → s.Accepts (.node ⟨3⟩) := by
    rintro s hkept hchildren hlt hfragment hanchor _ ⟨⟩
    exact ⟨hlt, hfragment, fun i => Dom.not_isBelow_of_leaf hkept.linked hchildren (hanchor i)⟩
  have hfirst : sample.Accepts (.node ⟨3⟩) :=
    haccepts _ starts_sample.kept (by decide +kernel) (by decide +kernel) (by decide +kernel)
      (by decide +kernel)
  exact ⟨hfirst, haccepts _ (starts_sample.kept.take false hfirst) (by decide +kernel)
    (by decide +kernel) (by decide +kernel) (by decide +kernel), trivial⟩

theorem undisturbed_run_sample :
    let before := sample.run [(false, .node ⟨3⟩), (true, .node ⟨3⟩)]
    let after := before.take false (.string "x")
    sample.Starts ∧ sample.Allows [(false, .node ⟨3⟩), (true, .node ⟨3⟩)] ∧ true ≠ false ∧
      before.Accepts (.string "x") ∧
      (∀ x ∈ (before.morph true).region before.dom, Value.string "x" ≠ .node x) ∧
      after.morph true = before.morph true ∧
      ((before.morph true).Undisturbed (.string "x") before.dom after.dom ↔
        (before.morph false).Spares (.string "x") before.dom
          ((before.morph true).region before.dom)) ∧
      ((before.morph false).shows (.string "x") = false →
        before.dom.parent? (before.anchor false) ≠ none →
        (before.morph false).reusable? (.string "x") before.dom = none →
        (after.morph false).region after.dom = (after.morph false).nodes) := by
  intro before after
  have hvalue : before.Accepts (.string "x") := nofun
  have hnot : ∀ x ∈ (before.morph true).region before.dom, Value.string "x" ≠ .node x :=
    fun _ _ => nofun
  exact ⟨starts_sample, allows_sample, by decide, hvalue, hnot,
    undisturbed_run_iff starts_sample allows_sample (by decide) hvalue hnot⟩

/-- A node that was handed on to the next morph is taken out from there when the first one is
updated with a text. -/
theorem not_undisturbed_sample :
    let before := sample.run [(false, .node ⟨3⟩), (true, .node ⟨3⟩)]
    let after := before.take false (.string "x")
    sample.Starts ∧ sample.Allows [(false, .node ⟨3⟩), (true, .node ⟨3⟩)] ∧
      before.Accepts (.string "x") ∧
      (∀ x ∈ (before.morph true).region before.dom, Value.string "x" ≠ .node x) ∧
      (before.morph true).region before.dom = [⟨3⟩] ∧
      (before.morph true).region after.dom = [] ∧
      ¬(before.morph true).Undisturbed (.string "x") before.dom after.dom := by
  intro before after
  have hbefore : (before.morph true).region before.dom = [⟨3⟩] := by decide +kernel
  have hafter : (before.morph true).region after.dom = [] := by decide +kernel
  refine ⟨starts_sample, allows_sample, nofun, fun _ _ => nofun, hbefore, hafter, fun hsame => ?_⟩
  have heq := hsame.region_eq
  rw [hbefore, hafter] at heq
  cases heq

end Family

end LiveTemplate
