import LiveTemplate.Dom.Arena

/-!
# LiveTemplate.Proofs.Dom.Holding

Documents that hold a tree.

`dom.Holds parent t` says that every node of the labelled tree `t` stands in the
document exactly as `t` has it: with its data, its children in order, and its
parent, which for the root is `parent`.  It speaks of the nodes of the tree and of
no others, so it survives every change elsewhere (`Holds.congr`).  A held tree with
no label twice is what the document writes at its root (`html_of_holds`).
-/

namespace LiveTemplate

/-! ## labels -/

mutual

/-- The labels of a tree, in document order. -/
def Tree.labels {α : Type} : Tree α → List α
  | .node l _ ts => l :: forestLabels ts

/-- The labels of trees, in document order. -/
def forestLabels {α : Type} : List (Tree α) → List α
  | [] => []
  | t :: ts => t.labels ++ forestLabels ts

end

mutual

theorem Tree.induction_children {α : Type} {motive : List (Tree α) → Prop} (nil : motive [])
    (cons : ∀ l data kids ts, motive kids → motive ts → motive (.node l data kids :: ts)) :
    (t : Tree α) → motive t.children
  | .node _ _ kids => forest_induction nil cons kids

/-- Induction over trees, their siblings and their children. -/
@[elab_as_elim]
theorem forest_induction {α : Type} {motive : List (Tree α) → Prop} (nil : motive [])
    (cons : ∀ l data kids ts, motive kids → motive ts → motive (.node l data kids :: ts)) :
    (ts : List (Tree α)) → motive ts
  | [] => nil
  | .node l data kids :: ts =>
    cons l data kids ts (Tree.induction_children nil cons (.node l data kids))
      (forest_induction nil cons ts)

end

/-- The labels of the roots. -/
def rootLabels {α : Type} (ts : List (Tree α)) : List α := ts.map Tree.label

section Labels

variable {α : Type}

@[simp] theorem forestLabels_append (ts us : List (Tree α)) :
    forestLabels (ts ++ us) = forestLabels ts ++ forestLabels us := by
  induction ts with
  | nil => rfl
  | cons t ts ih => simp [forestLabels, ih]

@[simp] theorem rootLabels_nil : rootLabels ([] : List (Tree α)) = [] := rfl

@[simp] theorem rootLabels_cons (t : Tree α) (ts : List (Tree α)) :
    rootLabels (t :: ts) = t.label :: rootLabels ts := rfl

@[simp] theorem rootLabels_append (ts us : List (Tree α)) :
    rootLabels (ts ++ us) = rootLabels ts ++ rootLabels us := List.map_append

theorem Tree.label_mem_labels (t : Tree α) : t.label ∈ t.labels := by
  cases t with
  | node l d ts => simp [Tree.label, Tree.labels]

theorem mem_forestLabels {x : α} {ts : List (Tree α)} :
    x ∈ forestLabels ts ↔ ∃ t ∈ ts, x ∈ t.labels := by
  induction ts with
  | nil => simp [forestLabels]
  | cons t ts ih => simp [forestLabels, ih]

theorem mem_forestLabels_of_mem_rootLabels {x : α} {ts : List (Tree α)} (h : x ∈ rootLabels ts) :
    x ∈ forestLabels ts := by
  obtain ⟨t, ht, rfl⟩ := List.mem_map.1 h
  exact mem_forestLabels.2 ⟨t, ht, t.label_mem_labels⟩

end Labels

namespace Dom

/-! ## holding -/

mutual

/-- The nodes of a tree stand in the document as the tree has them. -/
def Holds (dom : Dom) (parent : Option NodeId) : Tree NodeId → Prop
  | .node id data ts =>
    id.index < dom.size ∧ dom.record id = ⟨data, parent, rootLabels ts⟩ ∧
      dom.HoldsAll (some id) ts

/-- The nodes of trees with one parent stand in the document as the trees have them. -/
def HoldsAll (dom : Dom) (parent : Option NodeId) : List (Tree NodeId) → Prop
  | [] => True
  | t :: ts => dom.Holds parent t ∧ dom.HoldsAll parent ts

end

theorem holdsAll_iff {dom : Dom} {parent : Option NodeId} {ts : List (Tree NodeId)} :
    dom.HoldsAll parent ts ↔ ∀ t ∈ ts, dom.Holds parent t := by
  induction ts with
  | nil => simp [HoldsAll]
  | cons t ts ih => simp [HoldsAll, ih]

theorem holdsAll_append {dom : Dom} {parent : Option NodeId} {ts us : List (Tree NodeId)} :
    dom.HoldsAll parent (ts ++ us) ↔ dom.HoldsAll parent ts ∧ dom.HoldsAll parent us := by
  simp only [holdsAll_iff, List.mem_append]
  constructor
  · intro h
    exact ⟨fun t ht => h t (.inl ht), fun t ht => h t (.inr ht)⟩
  · rintro ⟨hts, hus⟩ t (ht | ht)
    · exact hts t ht
    · exact hus t ht

theorem Holds.record_label {dom : Dom} {parent : Option NodeId} {t : Tree NodeId}
    (h : dom.Holds parent t) : dom.record t.label = ⟨t.data, parent, rootLabels t.children⟩ := by
  cases t with
  | node id data ts => exact h.2.1

theorem Holds.children {dom : Dom} {parent : Option NodeId} {t : Tree NodeId}
    (h : dom.Holds parent t) : dom.HoldsAll (some t.label) t.children := by
  cases t with
  | node id data ts => exact h.2.2

theorem HoldsAll.parent?_eq {dom : Dom} {parent : Option NodeId} {ts : List (Tree NodeId)}
    (h : dom.HoldsAll parent ts) {x : NodeId} (hx : x ∈ rootLabels ts) :
    dom.parent? x = parent := by
  obtain ⟨t, ht, rfl⟩ := List.mem_map.1 hx
  rw [parent?, (holdsAll_iff.1 h t ht).record_label]

mutual

/-- Held nodes exist. -/
theorem Holds.index_lt {dom : Dom} {parent : Option NodeId} :
    (t : Tree NodeId) → dom.Holds parent t → ∀ x ∈ t.labels, x.index < dom.size
  | .node id data ts, h, x, hx => by
    rcases List.mem_cons.1 hx with rfl | hx
    · exact h.1
    · exact HoldsAll.index_lt ts h.2.2 x hx

theorem HoldsAll.index_lt {dom : Dom} {parent : Option NodeId} :
    (ts : List (Tree NodeId)) → dom.HoldsAll parent ts → ∀ x ∈ forestLabels ts, x.index < dom.size
  | [], _, x, hx => by simp [forestLabels] at hx
  | t :: ts, h, x, hx => by
    rcases List.mem_append.1 hx with hx | hx
    · exact Holds.index_lt t h.1 x hx
    · exact HoldsAll.index_lt ts h.2 x hx

end

mutual

/-- A held tree contains the children of its nodes. -/
theorem Holds.mem_of_mem_children {dom : Dom} {parent : Option NodeId} :
    (t : Tree NodeId) → dom.Holds parent t →
      ∀ x ∈ t.labels, ∀ c ∈ dom.children x, c ∈ t.labels
  | .node id data ts, h, x, hx, c, hc => by
    rcases List.mem_cons.1 hx with rfl | hx
    · rw [Dom.children, h.2.1] at hc
      exact List.mem_cons_of_mem _ (mem_forestLabels_of_mem_rootLabels hc)
    · exact List.mem_cons_of_mem _ (HoldsAll.mem_of_mem_children ts h.2.2 x hx c hc)

theorem HoldsAll.mem_of_mem_children {dom : Dom} {parent : Option NodeId} :
    (ts : List (Tree NodeId)) → dom.HoldsAll parent ts →
      ∀ x ∈ forestLabels ts, ∀ c ∈ dom.children x, c ∈ forestLabels ts
  | [], _, x, hx, _, _ => by simp [forestLabels] at hx
  | t :: ts, h, x, hx, c, hc => by
    rcases List.mem_append.1 hx with hx | hx
    · exact List.mem_append_left _ (Holds.mem_of_mem_children t h.1 x hx c hc)
    · exact List.mem_append_right _ (HoldsAll.mem_of_mem_children ts h.2 x hx c hc)

end

/-! ## changes elsewhere -/

mutual

/-- Holding a tree depends on nothing but the records of its nodes. -/
theorem Holds.congr {dom dom' : Dom} {parent : Option NodeId} (hsize : dom.size ≤ dom'.size) :
    (t : Tree NodeId) → (∀ x ∈ t.labels, dom'.record x = dom.record x) →
      dom.Holds parent t → dom'.Holds parent t
  | .node id data ts, hrec, h => by
    refine ⟨Nat.lt_of_lt_of_le h.1 hsize, ?_, ?_⟩
    · rw [hrec id List.mem_cons_self, h.2.1]
    · exact HoldsAll.congr hsize ts (fun x hx => hrec x (List.mem_cons_of_mem _ hx)) h.2.2

/-- Holding trees depends on nothing but the records of their nodes. -/
theorem HoldsAll.congr {dom dom' : Dom} {parent : Option NodeId} (hsize : dom.size ≤ dom'.size) :
    (ts : List (Tree NodeId)) → (∀ x ∈ forestLabels ts, dom'.record x = dom.record x) →
      dom.HoldsAll parent ts → dom'.HoldsAll parent ts
  | [], _, _ => trivial
  | t :: ts, hrec, h =>
    ⟨Holds.congr hsize t (fun x hx => hrec x (List.mem_append_left _ hx)) h.1,
      HoldsAll.congr hsize ts (fun x hx => hrec x (List.mem_append_right _ hx)) h.2⟩

end

/-! ## the HTML of a held tree -/

/-- There are no more distinct nodes than the document has. -/
theorem length_le_size {dom : Dom} {xs : List NodeId} (hnodup : xs.Nodup)
    (hlt : ∀ x ∈ xs, x.index < dom.size) : xs.length ≤ dom.size := by
  have hinj : (xs.map NodeId.index).Nodup := by
    refine List.Pairwise.map _ ?_ hnodup
    intro a b hab heq
    exact hab (by cases a; cases b; simp_all)
  have hsub : xs.map NodeId.index ⊆ List.range dom.size := by
    intro n hn
    obtain ⟨x, hx, rfl⟩ := List.mem_map.1 hn
    exact List.mem_range.2 (hlt x hx)
  have := hinj.length_le_of_subset hsub
  simpa using this

theorem data_of_record {dom : Dom} {id : NodeId} {r : NodeRecord} (h : dom.record id = r) :
    dom.data id = r.data := by rw [data, h]

theorem children_of_record {dom : Dom} {id : NodeId} {r : NodeRecord} (h : dom.record id = r) :
    dom.children id = r.children := by rw [children, h]

/-- The HTML of the tree at a node, one level deep. -/
theorem html_treeTo_succ (dom : Dom) (depth : Nat) (id : NodeId) :
    (dom.treeTo (depth + 1) id).html =
      (dom.data id).html (forestHtml ((dom.children id).map (dom.treeTo depth))) := by
  rw [treeTo]
  split
  · next s hs => simp [Tree.html, NodeData.html, hs]
  · next s hs => simp [Tree.html, NodeData.html, hs]
  · simp [Tree.html]

mutual

/-- Deep enough, the tree at the root of a held tree has its HTML. -/
theorem Holds.html_treeTo {dom : Dom} {parent : Option NodeId} :
    (depth : Nat) → (t : Tree NodeId) → dom.Holds parent t → t.labels.length ≤ depth →
      (dom.treeTo depth t.label).html = t.html
  | 0, .node id data ts, _, hlen => by simp [Tree.labels] at hlen
  | depth + 1, .node id data ts, h, hlen => by
    have hchildren : forestHtml ((rootLabels ts).map (dom.treeTo depth)) = forestHtml ts :=
      HoldsAll.html_treeTo depth ts h.2.2 (by simpa [Tree.labels] using hlen)
    rw [Tree.label, html_treeTo_succ, data_of_record h.2.1, children_of_record h.2.1, hchildren,
      Tree.html]

theorem HoldsAll.html_treeTo {dom : Dom} {parent : Option NodeId} :
    (depth : Nat) → (ts : List (Tree NodeId)) → dom.HoldsAll parent ts →
      (forestLabels ts).length ≤ depth →
      forestHtml ((rootLabels ts).map (dom.treeTo depth)) = forestHtml ts
  | _, [], _, _ => rfl
  | depth, t :: ts, h, hlen => by
    simp only [forestLabels, List.length_append] at hlen
    have htree := Holds.html_treeTo depth t h.1 (by omega)
    have hrest := HoldsAll.html_treeTo depth ts h.2 (by omega)
    rw [rootLabels_cons, List.map_cons, forestHtml, htree, hrest, forestHtml]

end

/-- A document writes the tree it holds. -/
theorem html_of_holds {dom : Dom} {parent : Option NodeId} {t : Tree NodeId}
    (h : dom.Holds parent t) (hnodup : t.labels.Nodup) :
    dom.html t.label = String.ofList t.html := by
  have hlen := length_le_size hnodup (h.index_lt t)
  rw [html, tree, h.html_treeTo dom.size t hlen]

mutual

/-- Deep enough, the tree at the root of a held tree is the same at every depth. -/
theorem Holds.treeTo_eq {dom : Dom} {parent : Option NodeId} :
    (depth depth' : Nat) → (t : Tree NodeId) → dom.Holds parent t → t.labels.length ≤ depth →
      t.labels.length ≤ depth' → dom.treeTo depth t.label = dom.treeTo depth' t.label
  | 0, _, .node id data ts, _, hlen, _ => by simp [Tree.labels] at hlen
  | _, 0, .node id data ts, _, _, hlen => by simp [Tree.labels] at hlen
  | depth + 1, depth' + 1, .node id data ts, h, hlen, hlen' => by
    have hchildren : (rootLabels ts).map (dom.treeTo depth) =
        (rootLabels ts).map (dom.treeTo depth') :=
      HoldsAll.map_treeTo_eq depth depth' ts h.2.2 (by simpa [Tree.labels] using hlen)
        (by simpa [Tree.labels] using hlen')
    rw [Tree.label, treeTo, treeTo, children_of_record h.2.1, hchildren]

theorem HoldsAll.map_treeTo_eq {dom : Dom} {parent : Option NodeId} :
    (depth depth' : Nat) → (ts : List (Tree NodeId)) → dom.HoldsAll parent ts →
      (forestLabels ts).length ≤ depth → (forestLabels ts).length ≤ depth' →
      (rootLabels ts).map (dom.treeTo depth) = (rootLabels ts).map (dom.treeTo depth')
  | _, _, [], _, _, _ => rfl
  | depth, depth', t :: ts, h, hlen, hlen' => by
    simp only [forestLabels, List.length_append] at hlen hlen'
    have htree := Holds.treeTo_eq depth depth' t h.1 (by omega) (by omega)
    have hrest := HoldsAll.map_treeTo_eq depth depth' ts h.2 (by omega) (by omega)
    rw [rootLabels_cons, List.map_cons, List.map_cons, htree, hrest]

end

/-- A document is deep enough for the tree it holds. -/
theorem treeTo_of_holds {dom : Dom} {parent : Option NodeId} {t : Tree NodeId}
    (h : dom.Holds parent t) (hnodup : t.labels.Nodup) {depth : Nat} (hdepth : dom.size ≤ depth) :
    dom.treeTo depth t.label = dom.tree t.label := by
  have hlen := length_le_size hnodup (h.index_lt t)
  exact h.treeTo_eq depth dom.size t (Nat.le_trans hlen hdepth) hlen

/-- Nodes as they are written one after the other. -/
def htmlOf (dom : Dom) (nodes : List NodeId) : String :=
  String.ofList (nodes.flatMap fun id => (dom.html id).toList)

/-- A document writes the trees it holds. -/
theorem htmlOf_rootLabels {dom : Dom} {parent : Option NodeId} {ts : List (Tree NodeId)}
    (h : dom.HoldsAll parent ts) (hnodup : (forestLabels ts).Nodup) :
    dom.htmlOf (rootLabels ts) = String.ofList (forestHtml ts) := by
  rw [htmlOf]
  congr 1
  induction ts with
  | nil => rfl
  | cons t ts ih =>
    rw [forestLabels, List.nodup_append] at hnodup
    rw [rootLabels_cons, List.flatMap_cons, html_of_holds h.1 hnodup.1, ih h.2 hnodup.2.1,
      forestHtml, String.toList_ofList]

end Dom

end LiveTemplate
