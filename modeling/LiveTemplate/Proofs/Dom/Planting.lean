import LiveTemplate.Proofs.Dom.Places

/-!
# LiveTemplate.Proofs.Dom.Planting

What planting a forest makes of a document.

The new nodes are numbered in document order, from the size of the document on:
`numberForest` labels a forest that way.  Planting changes the children of the
parent and no other node that was there (`Planted`), and the document then holds the
numbered forest.
-/

namespace LiveTemplate

/-! ## numbering -/

mutual

/-- The number of nodes of a tree. -/
def Tree.count {α : Type} : Tree α → Nat
  | .node _ _ ts => forestCount ts + 1

/-- The number of nodes of trees. -/
def forestCount {α : Type} : List (Tree α) → Nat
  | [] => 0
  | t :: ts => t.count + forestCount ts

end

mutual

/-- A tree labelled with numbers in document order, from `first` on. -/
def numberTree (first : Nat) : Markup → Tree NodeId
  | .node _ data ts => .node ⟨first⟩ data (numberForest (first + 1) ts)

/-- Trees labelled with numbers in document order, from `first` on. -/
def numberForest (first : Nat) : List Markup → List (Tree NodeId)
  | [] => []
  | t :: ts => numberTree first t :: numberForest (first + t.count) ts

end

theorem numberForest_append (first : Nat) (ts us : List Markup) :
    numberForest first (ts ++ us) =
      numberForest first ts ++ numberForest (first + forestCount ts) us := by
  induction ts generalizing first with
  | nil => rfl
  | cons t ts ih =>
    rw [List.cons_append, numberForest, numberForest, ih, forestCount, Nat.add_assoc,
      List.cons_append]

mutual

/-- The labels of a numbered tree follow each other. -/
theorem labels_numberTree : (first : Nat) → (t : Markup) →
    (numberTree first t).labels = (List.range' first t.count).map NodeId.mk
  | first, .node _ data ts => by
    rw [numberTree, Tree.labels, forestLabels_numberForest, Tree.count, List.range'_succ,
      List.map_cons]

theorem forestLabels_numberForest : (first : Nat) → (ts : List Markup) →
    forestLabels (numberForest first ts) = (List.range' first (forestCount ts)).map NodeId.mk
  | first, [] => rfl
  | first, t :: ts => by
    rw [numberForest, forestLabels, labels_numberTree, forestLabels_numberForest, forestCount,
      ← List.map_append, ← List.range'_append_1]

end

theorem mem_forestLabels_numberForest {first : Nat} {ts : List Markup} {x : NodeId} :
    x ∈ forestLabels (numberForest first ts) ↔
      first ≤ x.index ∧ x.index < first + forestCount ts := by
  rw [forestLabels_numberForest, List.mem_map]
  constructor
  · rintro ⟨n, hn, rfl⟩
    simpa using hn
  · intro h
    exact ⟨x.index, by simpa using h, rfl⟩

theorem nodup_forestLabels_numberForest (first : Nat) (ts : List Markup) :
    (forestLabels (numberForest first ts)).Nodup := by
  rw [forestLabels_numberForest]
  refine List.Pairwise.map _ ?_ List.nodup_range'
  intro a b hab heq
  exact hab (NodeId.mk.inj heq)

mutual

/-- Labels are not written. -/
theorem html_numberTree : (first : Nat) → (t : Markup) → (numberTree first t).html = t.html
  | first, .node _ data ts => by
    rw [numberTree, Tree.html, Tree.html, forestHtml_numberForest]

/-- Labels are not written. -/
theorem forestHtml_numberForest : (first : Nat) → (ts : List Markup) →
    forestHtml (numberForest first ts) = forestHtml ts
  | first, [] => rfl
  | first, t :: ts => by
    rw [numberForest, forestHtml, forestHtml, html_numberTree, forestHtml_numberForest]

end

mutual

/-- A tree without its labels. -/
def Tree.shape {α : Type} : Tree α → Markup
  | .node _ data ts => .node () data (shapes ts)

/-- Trees without their labels. -/
def shapes {α : Type} : List (Tree α) → List Markup
  | [] => []
  | t :: ts => t.shape :: shapes ts

end

theorem shapes_append {α : Type} (ts us : List (Tree α)) :
    shapes (ts ++ us) = shapes ts ++ shapes us := by
  induction ts with
  | nil => rfl
  | cons t ts ih => rw [List.cons_append, shapes, shapes, ih, List.cons_append]

/-- The labels of trees are not written. -/
theorem forestHtml_shapes {α : Type} (ts : List (Tree α)) :
    forestHtml (shapes ts) = forestHtml ts := by
  induction ts using forest_induction with
  | nil => rfl
  | cons _ data kids ts ihkids ihts =>
    rw [shapes, Tree.shape, forestHtml, forestHtml, Tree.html, Tree.html, ihkids, ihts]

/-- Numbering trees keeps their shapes. -/
theorem shapes_numberForest (first : Nat) (ts : List Markup) :
    shapes (numberForest first ts) = ts := by
  induction ts using forest_induction generalizing first with
  | nil => rfl
  | cons _ data kids ts ihkids ihts =>
    rw [numberForest, numberTree, shapes, Tree.shape, ihkids, ihts]

theorem length_labels_numberTree (first : Nat) (t : Markup) :
    (numberTree first t).labels.length = t.count := by
  rw [labels_numberTree, List.length_map, List.length_range']

@[simp] theorem length_rootLabels_numberForest (first : Nat) (ts : List Markup) :
    (rootLabels (numberForest first ts)).length = ts.length := by
  induction ts generalizing first with
  | nil => rfl
  | cons t ts ih => rw [numberForest, rootLabels_cons, List.length_cons, ih, List.length_cons]

/-! ## trees without fragments -/

mutual

/-- No node of a tree is a fragment.  Only such a tree is planted as it is: a fragment would give
its children away. -/
def Tree.Plantable {α : Type} : Tree α → Prop
  | .node _ data ts => data.isFragment = false ∧ PlantableAll ts

/-- No node of trees is a fragment. -/
def PlantableAll {α : Type} : List (Tree α) → Prop
  | [] => True
  | t :: ts => t.Plantable ∧ PlantableAll ts

end

theorem plantableAll_iff {α : Type} {ts : List (Tree α)} :
    PlantableAll ts ↔ ∀ t ∈ ts, t.Plantable := by
  induction ts with
  | nil => simp [PlantableAll]
  | cons t ts ih => simp [PlantableAll, ih]

theorem plantableAll_reverse {α : Type} {ts : List (Tree α)} :
    PlantableAll ts.reverse ↔ PlantableAll ts := by
  simp [plantableAll_iff]

namespace Dom

/-! ## appending a new node -/

section Append

variable {dom : Dom} {parent child : NodeId}

theorem children_appendChild (hfree : dom.parent? child = none) (hne : parent ≠ child)
    (n : NodeId) :
    (dom.appendChild parent child).children n =
      if n = parent ∧ n.index < dom.size then dom.children n ++ dom.moved child
      else if n = child ∧ (dom.data child).isFragment then [] else dom.children n := by
  rw [appendChild, children_insertBefore none hfree hne]
  rfl

/-- A node that exists is not the next one that is created. -/
theorem ne_new_of_index_lt {n : NodeId} (h : n.index < dom.size) : n ≠ ⟨dom.size⟩ := by
  rintro rfl
  exact Nat.lt_irrefl _ h

theorem size_append_create (dom : Dom) (parent : NodeId) (data : NodeData) :
    ((dom.create data).2.appendChild parent ⟨dom.size⟩).size = dom.size + 1 := by
  have hfree : (dom.create data).2.parent? ⟨dom.size⟩ = none := by
    rw [parent?, record_create_new]
  rw [appendChild, size_insertBefore, size_create]

/-- Appending a new node that is no fragment. -/
theorem record_append_create {data : NodeData} (hdata : data.isFragment = false)
    (hparent : parent.index < dom.size) (n : NodeId) :
    (((dom.create data).2.appendChild parent ⟨dom.size⟩)).record n =
      if n.index = dom.size then { data, parent := some parent }
      else if n = parent then { dom.record n with children := dom.children n ++ [⟨dom.size⟩] }
      else dom.record n := by
  have hne : parent ≠ ⟨dom.size⟩ := ne_new_of_index_lt hparent
  have hnew := record_create_new dom data
  have hfree : (dom.create data).2.parent? ⟨dom.size⟩ = none := by rw [parent?, hnew]
  have hnofrag : ((dom.create data).2.data ⟨dom.size⟩).isFragment = false := by
    rw [data_of_record hnew, hdata]
  have hmoved : (dom.create data).2.moved ⟨dom.size⟩ = [⟨dom.size⟩] := by
    rw [moved, if_neg (by simp [hnofrag])]
  rw [record_eq, children_appendChild hfree hne, appendChild, parent?_insertBefore none hfree,
    data_insertBefore, hmoved, hnofrag]
  have hrec := record_create dom data n
  by_cases hn : n.index = dom.size
  · have hid : n = ⟨dom.size⟩ := by cases n; simp_all
    rw [if_pos hn] at hrec
    simp [hid, hne.symm, data_of_record hnew, children_of_record hnew]
  · have hid : n ≠ ⟨dom.size⟩ := fun h => hn (by rw [h])
    rw [if_neg hn] at hrec
    rw [if_neg hn, data_of_record hrec, children_of_record hrec, parent?, hrec]
    by_cases hp : n = parent
    · subst hp
      have hlt : n.index < dom.size + 1 := by omega
      simp [hid, hlt, record_eq]
    · simp [hid, hp, record_eq]

end Append

/-! ## planting -/

/-- Trees were added at the end of the children of a node: the document holds them, their nodes
are new, and no other node has changed. -/
structure Planted (dom dom' : Dom) (parent : NodeId) (ts : List (Tree NodeId)) : Prop where
  size : dom'.size = dom.size + (forestLabels ts).length
  fresh : ∀ x ∈ forestLabels ts, dom.size ≤ x.index
  holds : dom'.HoldsAll (some parent) ts
  record_parent :
    dom'.record parent = { dom.record parent with children := dom.children parent ++ rootLabels ts }
  frame : ∀ n, n.index < dom.size → n ≠ parent → dom'.record n = dom.record n

theorem Planted.nil (dom : Dom) (parent : NodeId) : dom.Planted dom parent [] where
  size := rfl
  fresh := by simp [forestLabels]
  holds := trivial
  record_parent := by rw [rootLabels_nil, List.append_nil]; rfl
  frame _ _ _ := rfl

/-- Trees that are planted one after the other are planted. -/
theorem Planted.append {dom₁ dom₂ dom₃ : Dom} {parent : NodeId} {ts us : List (Tree NodeId)}
    (h₁ : dom₁.Planted dom₂ parent ts) (h₂ : dom₂.Planted dom₃ parent us)
    (hparent : parent.index < dom₁.size) : dom₁.Planted dom₃ parent (ts ++ us) where
  size := by
    rw [h₂.size, h₁.size, forestLabels_append, List.length_append]
    omega
  fresh := by
    intro x hx
    rw [forestLabels_append] at hx
    rcases List.mem_append.1 hx with hx | hx
    · exact h₁.fresh x hx
    · have := h₂.fresh x hx
      have := h₁.size
      omega
  holds := by
    refine holdsAll_append.2 ⟨?_, h₂.holds⟩
    have hsize : dom₂.size ≤ dom₃.size := by have := h₂.size; omega
    refine HoldsAll.congr hsize ts (fun x hx => ?_) h₁.holds
    refine h₂.frame x (h₁.holds.index_lt ts x hx) ?_
    rintro rfl
    have := h₁.fresh x hx
    omega
  record_parent := by
    rw [h₂.record_parent, children_of_record h₁.record_parent, h₁.record_parent,
      rootLabels_append, List.append_assoc]
  frame := by
    intro n hn hne
    have hsize := h₁.size
    rw [h₂.frame n (by omega) hne, h₁.frame n hn hne]

/-- A node is planted with its children once it is appended and they are planted below it. -/
theorem Planted.node {dom dom' : Dom} {parent : NodeId} {data : NodeData}
    {ts : List (Tree NodeId)} (hdata : data.isFragment = false) (hparent : parent.index < dom.size)
    (h : ((dom.create data).2.appendChild parent ⟨dom.size⟩).Planted dom' ⟨dom.size⟩ ts) :
    dom.Planted dom' parent [.node ⟨dom.size⟩ data ts] := by
  have hrec := record_append_create hdata hparent
  have hsize := size_append_create dom parent data
  have hne : parent ≠ ⟨dom.size⟩ := ne_new_of_index_lt hparent
  have hnew := hrec ⟨dom.size⟩
  rw [if_pos rfl] at hnew
  constructor
  case size =>
    rw [h.size, hsize]
    simp only [forestLabels, Tree.labels, List.length_append, List.length_cons, List.length_nil]
    omega
  case fresh =>
    intro x hx
    simp only [forestLabels, Tree.labels, List.append_nil, List.mem_cons] at hx
    rcases hx with rfl | hx
    · exact Nat.le_refl _
    · have := h.fresh x hx
      omega
  case holds =>
    refine ⟨⟨?_, ?_, h.holds⟩, trivial⟩
    · have := h.size
      simp only
      omega
    · rw [h.record_parent, children_of_record hnew, hnew]
      rfl
  case record_parent =>
    rw [h.frame parent (by omega) hne, hrec, if_neg (Nat.ne_of_lt hparent), if_pos rfl]
    rfl
  case frame =>
    intro n hn hnparent
    rw [h.frame n (by omega) (ne_new_of_index_lt hn), hrec, if_neg (Nat.ne_of_lt hn),
      if_neg hnparent]

mutual

/-- Planting a tree numbers it from the size of the document on. -/
theorem planted_plantTree : (parent : NodeId) → (t : Markup) → (dom : Dom) →
    parent.index < dom.size → t.Plantable →
      dom.Planted (dom.plantTree parent t) parent [numberTree dom.size t]
  | parent, .node _ data ts, dom, hparent, hplantable => by
    have hsize := size_append_create dom parent data
    have hbelow := planted_plant ⟨dom.size⟩ ts ((dom.create data).2.appendChild parent ⟨dom.size⟩)
      (by rw [hsize]; exact Nat.lt_succ_self _) hplantable.2
    rw [hsize] at hbelow
    rw [plantTree, numberTree]
    exact Planted.node hplantable.1 hparent hbelow

/-- Planting trees numbers them from the size of the document on. -/
theorem planted_plant : (parent : NodeId) → (ts : List Markup) → (dom : Dom) →
    parent.index < dom.size → PlantableAll ts →
      dom.Planted (dom.plant parent ts) parent (numberForest dom.size ts)
  | parent, [], dom, _, _ => by
    rw [plant, numberForest]
    exact Planted.nil dom parent
  | parent, t :: ts, dom, hparent, hplantable => by
    have hfirst := planted_plantTree parent t dom hparent hplantable.1
    have hsize : (dom.plantTree parent t).size = dom.size + t.count := by
      rw [hfirst.size, forestLabels, forestLabels, List.append_nil, length_labels_numberTree]
    have hrest := planted_plant parent ts (dom.plantTree parent t) (by omega) hplantable.2
    rw [hsize] at hrest
    rw [plant, numberForest]
    exact hfirst.append hrest hparent

end

/-! ## fragments -/

/-- A fragment was created with trees below it: the document holds it, and the nodes that were
there are unchanged. -/
structure FragmentPlanted (dom dom' : Dom) (fragment : NodeId) (ts : List (Tree NodeId)) :
    Prop where
  id_eq : fragment = ⟨dom.size⟩
  size : dom'.size = dom.size + 1 + (forestLabels ts).length
  holds : dom'.Holds none (.node fragment .fragment ts)
  frame : ∀ n, n.index < dom.size → dom'.record n = dom.record n

/-- A planted fragment holds its trees, numbered from behind it on. -/
theorem planted_plantFragment (dom : Dom) {ts : List Markup} (hplantable : PlantableAll ts) :
    dom.FragmentPlanted (dom.plantFragment ts).2 (dom.plantFragment ts).1
      (numberForest (dom.size + 1) ts) := by
  have hnew := record_create_new dom .fragment
  have hplanted := planted_plant ⟨dom.size⟩ ts (dom.create .fragment).2
    (by rw [size_create]; exact Nat.lt_succ_self _) hplantable
  rw [size_create] at hplanted
  have heq : (dom.plantFragment ts).2 = (dom.create .fragment).2.plant ⟨dom.size⟩ ts := rfl
  rw [heq]
  constructor
  case id_eq => rfl
  case size => rw [hplanted.size, size_create]
  case holds =>
    refine ⟨?_, ?_, hplanted.holds⟩
    · have hsize := hplanted.size
      rw [size_create] at hsize
      show dom.size < _
      omega
    · show (Dom.plant _ _ _).record ⟨dom.size⟩ = _
      rw [hplanted.record_parent, children_of_record hnew, hnew]
      rfl
  case frame =>
    intro n hn
    rw [hplanted.frame n (by rw [size_create]; omega) (ne_new_of_index_lt hn),
      record_create_of_lt .fragment hn]

end Dom

end LiveTemplate
