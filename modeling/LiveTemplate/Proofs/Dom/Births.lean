import LiveTemplate.Proofs.Dom.Building

/-!
# LiveTemplate.Proofs.Dom.Births

Documents as lists of births.

A birth says under which number a node is created, as a child of which node, and what it is.
Births in document order determine the new nodes of a document: all that is left to say of a
node are its children, and these are the nodes that are born to it, in order (`Dom.Grown`).
Planting trees is such a growth (`grown_plantFragment`).
-/

namespace LiveTemplate

/-- The creation of a node. -/
structure Birth where
  node : NodeId
  parent : NodeId
  data : NodeData

/-- The nodes that are born to a node, in order. -/
def bornTo (parent : NodeId) (births : List Birth) : List NodeId :=
  (births.filter fun b => b.parent = parent).map Birth.node

theorem bornTo_cons_of_ne {parent : NodeId} {b : Birth} (h : b.parent ≠ parent)
    (births : List Birth) : bornTo parent (b :: births) = bornTo parent births := by
  rw [bornTo, List.filter_cons_of_neg (by simpa using h)]
  rfl

theorem bornTo_cons_self (b : Birth) (births : List Birth) :
    bornTo b.parent (b :: births) = b.node :: bornTo b.parent births := by
  rw [bornTo, List.filter_cons_of_pos (by simp)]
  rfl

theorem bornTo_append (parent : NodeId) (births births' : List Birth) :
    bornTo parent (births ++ births') = bornTo parent births ++ bornTo parent births' := by
  rw [bornTo, List.filter_append, List.map_append]
  rfl

theorem bornTo_eq_nil {parent : NodeId} {births : List Birth}
    (h : ∀ b ∈ births, b.parent ≠ parent) : bornTo parent births = [] := by
  rw [bornTo, List.filter_eq_nil_iff.2 fun b hb => by simpa using h b hb]
  rfl

mutual

/-- The births of a tree in document order. -/
def Tree.births (parent : NodeId) : Tree NodeId → List Birth
  | .node id data kids => ⟨id, parent, data⟩ :: forestBirths id kids

/-- The births of trees in document order. -/
def forestBirths (parent : NodeId) : List (Tree NodeId) → List Birth
  | [] => []
  | t :: ts => t.births parent ++ forestBirths parent ts

end

theorem forestBirths_append (parent : NodeId) (ts us : List (Tree NodeId)) :
    forestBirths parent (ts ++ us) = forestBirths parent ts ++ forestBirths parent us := by
  induction ts with
  | nil => rfl
  | cons t ts ih => rw [List.cons_append, forestBirths, forestBirths, ih, List.append_assoc]

theorem map_node_forestBirths (parent : NodeId) (ts : List (Tree NodeId)) :
    (forestBirths parent ts).map Birth.node = forestLabels ts := by
  induction ts using forest_induction generalizing parent with
  | nil => rfl
  | cons id data kids ts ihkids ihts =>
    rw [forestBirths, Tree.births, forestLabels, Tree.labels, List.map_append, List.map_cons,
      ihkids, ihts]

theorem length_forestBirths_numberForest (parent : NodeId) (first : Nat) (ts : List Markup) :
    (forestBirths parent (numberForest first ts)).length = forestCount ts := by
  rw [← List.length_map Birth.node, map_node_forestBirths, forestLabels_numberForest,
    List.length_map, List.length_range']

/-- Nodes of trees are born to the parent of the trees or to one of their own nodes. -/
theorem parent_of_mem_forestBirths {parent : NodeId} {ts : List (Tree NodeId)} {b : Birth}
    (h : b ∈ forestBirths parent ts) : b.parent = parent ∨ b.parent ∈ forestLabels ts := by
  induction ts using forest_induction generalizing parent with
  | nil => cases h
  | cons id data kids ts ihkids ihts =>
    simp only [forestBirths, Tree.births, List.cons_append, List.mem_cons, List.mem_append] at h
    simp only [forestLabels, Tree.labels, List.cons_append, List.mem_cons, List.mem_append]
    rcases h with rfl | h | h
    · exact .inl rfl
    · exact (ihkids h).elim (fun h => .inr (.inl h)) fun h => .inr (.inr (.inl h))
    · exact (ihts h).imp_right fun h => .inr (.inr h)

/-- No node of trees is born to a node elsewhere. -/
theorem bornTo_forestBirths_of_not_mem {x parent : NodeId} {ts : List (Tree NodeId)}
    (hne : parent ≠ x) (hx : x ∉ forestLabels ts) : bornTo x (forestBirths parent ts) = [] := by
  refine bornTo_eq_nil fun b hb heq => ?_
  rcases parent_of_mem_forestBirths hb with h | h
  · exact hne (h.symm.trans heq)
  · exact hx (heq ▸ h)

/-- The roots of trees are born to their parent. -/
theorem bornTo_forestBirths {parent : NodeId} {ts : List (Tree NodeId)}
    (hparent : parent ∉ forestLabels ts) :
    bornTo parent (forestBirths parent ts) = rootLabels ts := by
  induction ts with
  | nil => rfl
  | cons t ts ih =>
    obtain ⟨id, data, kids⟩ := t
    simp only [forestLabels, Tree.labels, List.cons_append, List.mem_cons, List.mem_append,
      not_or] at hparent
    have hbelow := bornTo_forestBirths_of_not_mem (Ne.symm hparent.1) hparent.2.1
    have hown := bornTo_cons_self ⟨id, parent, data⟩ (forestBirths id kids)
    rw [forestBirths, Tree.births, bornTo_append, ih hparent.2.2, hown, hbelow]
    rfl

namespace Dom

/-! ## growth -/

/-- The nodes `below` are those below the nodes `tops`, and these themselves, in document order. -/
inductive Preorder (dom : Dom) : List NodeId → List NodeId → Prop
  | nil : Preorder dom [] []
  | cons {top : NodeId} {tops below rest : List NodeId} (hbelow : Preorder dom (dom.children top) below)
    (hrest : Preorder dom tops rest) : Preorder dom (top :: tops) (top :: below ++ rest)

/-- A document holds the nodes of trees in document order. -/
theorem HoldsAll.preorder {dom : Dom} {parent : Option NodeId} {ts : List (Tree NodeId)}
    (h : dom.HoldsAll parent ts) : dom.Preorder (rootLabels ts) (forestLabels ts) := by
  induction ts using forest_induction generalizing parent with
  | nil => exact .nil
  | cons id data kids ts ihkids ihts =>
    obtain ⟨⟨-, hrecord, hkids⟩, hts⟩ := h
    refine .cons ?_ (ihts hts)
    rw [Tree.label, children_of_record hrecord]
    exact ihkids hkids

/-- A node of held trees is what its birth says, and its children are the nodes born to it. -/
theorem HoldsAll.record_birth {dom : Dom} {parent : NodeId} {ts : List (Tree NodeId)}
    (h : dom.HoldsAll (some parent) ts) (hnodup : (forestLabels ts).Nodup)
    (hparent : parent ∉ forestLabels ts) :
    ∀ b ∈ forestBirths parent ts,
      dom.record b.node = ⟨b.data, some b.parent, bornTo b.node (forestBirths parent ts)⟩ := by
  induction ts using forest_induction generalizing parent with
  | nil =>
    intro b hb
    cases hb
  | cons id data kids ts ihkids ihts =>
    obtain ⟨⟨-, hrecord, hkids⟩, hts⟩ := h
    rw [forestLabels, Tree.labels, List.cons_append, List.nodup_cons, List.mem_append, not_or,
      List.nodup_append] at hnodup
    obtain ⟨⟨hidkids, hidts⟩, hnodupkids, hnodupts, hdisjoint⟩ := hnodup
    rw [forestLabels, Tree.labels, List.cons_append, List.mem_cons, List.mem_append, not_or,
      not_or] at hparent
    obtain ⟨hne, hparentkids, hparentts⟩ := hparent
    intro b hb
    rw [forestBirths, Tree.births, List.cons_append, List.mem_cons, List.mem_append] at hb
    rw [forestBirths, Tree.births, List.cons_append]
    rcases hb with rfl | hb | hb
    · rw [bornTo_cons_of_ne hne, bornTo_append, bornTo_forestBirths hidkids,
        bornTo_forestBirths_of_not_mem hne hidts, List.append_nil]
      exact hrecord
    · have hnode : b.node ∈ forestLabels kids :=
        map_node_forestBirths id kids ▸ List.mem_map_of_mem hb
      have hother : parent ≠ b.node := fun heq => hparentkids (heq ▸ hnode)
      rw [bornTo_cons_of_ne hother, bornTo_append, bornTo_forestBirths_of_not_mem hother
        fun hmem => hdisjoint _ hnode _ hmem rfl, List.append_nil]
      exact ihkids hkids hnodupkids hidkids b hb
    · have hnode : b.node ∈ forestLabels ts :=
        map_node_forestBirths parent ts ▸ List.mem_map_of_mem hb
      have hother : parent ≠ b.node := fun heq => hparentts (heq ▸ hnode)
      have hid : id ≠ b.node := fun heq => hidts (heq ▸ hnode)
      rw [bornTo_cons_of_ne hother, bornTo_append, bornTo_forestBirths_of_not_mem hid
        fun hmem => hdisjoint _ hmem _ hnode rfl, List.nil_append]
      exact ihts hts hnodupts hparentts b hb

/-- A document has grown by a fragment: the nodes below it were created in the order of their
births, which is that of the document, and no other node has changed. -/
structure Grown (dom dom' : Dom) (fragment : NodeId) (births : List Birth) : Prop where
  fragment_eq : fragment = ⟨dom.size⟩
  size : dom'.size = dom.size + 1 + births.length
  numbers : births.map Birth.node = (List.range' (dom.size + 1) births.length).map NodeId.mk
  frame : ∀ n, n.index < dom.size → dom'.record n = dom.record n
  record_fragment : dom'.record fragment = ⟨.fragment, none, bornTo fragment births⟩
  record : ∀ b ∈ births, dom'.record b.node = ⟨b.data, some b.parent, bornTo b.node births⟩
  preorder : dom'.Preorder (dom'.children fragment) (births.map Birth.node)

/-- A document grows by the trees that are planted in it. -/
theorem grown_plantFragment (dom : Dom) {ts : List Markup} (hplantable : PlantableAll ts) :
    dom.Grown (dom.plantFragment ts).2 (dom.plantFragment ts).1
      (forestBirths ⟨dom.size⟩ (numberForest (dom.size + 1) ts)) := by
  have hplanted := planted_plantFragment dom hplantable
  have hfragment : (dom.plantFragment ts).1 = ⟨dom.size⟩ := hplanted.id_eq
  obtain ⟨-, hrecord, hholds⟩ := hplanted.holds
  rw [hfragment] at hrecord hholds
  have hnodup := nodup_forestLabels_numberForest (dom.size + 1) ts
  have hnotmem : (⟨dom.size⟩ : NodeId) ∉ forestLabels (numberForest (dom.size + 1) ts) := by
    rw [mem_forestLabels_numberForest]
    simp only
    omega
  constructor
  case fragment_eq => exact hfragment
  case frame => exact hplanted.frame
  case record => exact hholds.record_birth hnodup hnotmem
  case size =>
    rw [← List.length_map Birth.node, map_node_forestBirths]
    exact hplanted.size
  case numbers =>
    rw [length_forestBirths_numberForest, map_node_forestBirths, forestLabels_numberForest]
  case record_fragment => rw [hfragment, hrecord, bornTo_forestBirths hnotmem]
  case preorder =>
    rw [hfragment, children_of_record hrecord, map_node_forestBirths]
    exact hholds.preorder

end Dom

end LiveTemplate
