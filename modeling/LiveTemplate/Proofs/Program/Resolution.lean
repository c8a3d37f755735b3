import LiveTemplate.Proofs.Program.Occurrence

/-!
# LiveTemplate.Proofs.Program.Resolution

The paths of sites lead to the nodes the sites belong to.

Paths are counted on the template, and followed in the document.  They agree because
every node of a body is built as exactly one node (`isBuilt_compileBody`): this follows
the nodes of the body and of the document together.
-/

namespace LiveTemplate

namespace Dom

/-! ## walking -/

/-- The node that child indices lead to, if there is one. -/
def walk? (dom : Dom) (node : NodeId) : List Nat → Option NodeId
  | [] => some node
  | index :: path =>
    match (dom.children node)[index]? with
    | some child => dom.walk? child path
    | none => none

/-- One step further, the way leads to a child, whose parent is where it led before. -/
theorem walk?_concat {dom : Dom} {node id child : NodeId} {path : List Nat} {index : Nat}
    (hwalk : dom.walk? node path = some id) (hchild : (dom.children id)[index]? = some child)
    (parent : NodeId) :
    dom.walk? node (path ++ [index]) = some child ∧
      dom.resolve node parent (path ++ [index]) = (child, id) := by
  induction path generalizing node parent with
  | nil =>
    cases hwalk
    simp [walk?, resolve, hchild]
  | cons i path ih =>
    rw [walk?] at hwalk
    split at hwalk
    · next next hnext =>
      rw [List.cons_append, walk?, resolve, hnext]
      exact ih hwalk node
    · exact absurd hwalk (by simp)

/-- A way of one step more goes through a parent of where it ends. -/
theorem exists_of_walk?_concat {dom : Dom} {node child : NodeId} {path : List Nat} {index : Nat}
    (h : dom.walk? node (path ++ [index]) = some child) :
    ∃ id, dom.walk? node path = some id ∧ (dom.children id)[index]? = some child := by
  induction path generalizing node with
  | nil =>
    rw [List.nil_append, walk?] at h
    split at h
    · next c hc => exact ⟨node, rfl, by rw [hc]; exact h⟩
    · exact absurd h (by simp)
  | cons i path ih =>
    rw [List.cons_append, walk?] at h
    rw [walk?]
    split at h
    · next c hc => exact ih h
    · exact absurd h (by simp)

end Dom

/-! ## built nodes -/

/-- The node `id`, below `parent`, is what the node of an occurrence was built as, and the path of
the occurrence leads to it. -/
structure Occurrence.IsBuilt (o : Occurrence) (root : Namespace) (dom : Dom)
    (fragment id parent : NodeId) : Prop where
  /-- The way does not end before. -/
  walk : dom.walk? fragment o.path = some id
  resolve : dom.resolve fragment fragment o.path = (id, parent)
  parent?_eq : dom.parent? id = some parent
  mem_children : id ∈ dom.children parent
  data_eq : dom.data id = o.node.data root o.around
  length_children : (dom.children id).length = o.node.children.length

/-- A document that holds the static trees of nodes, numbered one after the other, has built them:
the paths below a node lead where they lead in the template. -/
theorem isBuilt_occurrencesOf {root : Namespace} {dom : Dom} {fragment : NodeId} {offset : Nat}
    (nodes : List Node) (path : List Nat) (around : Option Namespace) (number base : Nat)
    (parent : NodeId) (before : List NodeId)
    (hwalk : dom.walk? fragment path = some parent)
    (hchildren : dom.children parent =
      before ++ rootLabels (numberForest (offset + number) (skeletons root around nodes)))
    (hholds : dom.HoldsAll (some parent)
      (numberForest (offset + number) (skeletons root around nodes))) :
    ∀ o ∈ occurrencesOf path around before.length number base nodes,
      ∃ parent, o.IsBuilt root dom fragment ⟨offset + o.number⟩ parent := by
  induction nodes using nodes_induction
      generalizing path around number base parent before with
  | nil => simp [occurrencesOf]
  | cons node nodes ihchildren ihnodes =>
    simp only [skeletons, skeleton_eq, numberForest, numberTree, rootLabels_cons, Tree.label,
      Dom.HoldsAll, Dom.Holds] at hchildren hholds
    obtain ⟨⟨hlt, hrecord, hbelow⟩, hrest⟩ := hholds
    have hindex : (dom.children parent)[before.length]? = some ⟨offset + number⟩ := by
      rw [hchildren, List.getElem?_append_right (Nat.le_refl _), Nat.sub_self,
        List.getElem?_cons_zero]
    obtain ⟨hstep, hresolve⟩ := Dom.walk?_concat hwalk hindex fragment
    have hkids := Dom.children_of_record hrecord
    intro o ho
    rw [occurrencesOf_cons, List.mem_cons, List.mem_append] at ho
    rcases ho with rfl | ho | ho
    · refine ⟨parent, hstep, hresolve, by rw [Dom.parent?, hrecord], ?_,
        Dom.data_of_record hrecord, ?_⟩
      · rw [hchildren]
        simp
      · rw [hkids, length_rootLabels_numberForest, length_skeletons]
    · exact ihchildren _ _ (number + 1) _ ⟨offset + number⟩ [] hstep hkids hbelow o ho
    · have hcount : (Tree.node () (node.data root around)
          (skeletons root (node.nsBelow around) node.children)).count = node.count := by
        rw [Tree.count, forestCount_skeletons, count_eq]
      rw [hcount, Nat.add_assoc] at hchildren hrest
      refine ihnodes path around (number + node.count) (base + node.bodies) parent
        (before ++ [⟨offset + number⟩]) hwalk ?_ hrest o ?_
      · rw [hchildren, List.append_assoc]
        rfl
      · rw [List.length_append]
        exact ho

/-- The parent of a built node is the fragment, or what the node around was built as. -/
theorem parent_isBuilt {body : Body Node} {root : Namespace} {dom : Dom} {fragment : NodeId}
    {first : Nat} (hbuilt : ∀ o ∈ body.occurrences,
      ∃ parent, o.IsBuilt root dom fragment ⟨first + o.number⟩ parent)
    {o : Occurrence} (ho : o ∈ body.occurrences) {id parent : NodeId}
    (h : o.IsBuilt root dom fragment id parent) :
    (parent = fragment ∧ o.around = none) ∨
      ∃ o' ∈ body.occurrences, parent = ⟨first + o'.number⟩ ∧
        o.around = o'.node.nsBelow o'.around := by
  have hparent : ∀ path j, o.path = path ++ [j] → dom.walk? fragment path = some parent := by
    intro path j hpath
    have hwalk := h.walk
    rw [hpath] at hwalk
    obtain ⟨q, hq, hchild⟩ := Dom.exists_of_walk?_concat hwalk
    have hresolve := (Dom.walk?_concat hq hchild fragment).2
    rw [← hpath, h.resolve] at hresolve
    rw [hq, (Prod.mk.inj hresolve).2]
  rcases parent_of_mem_occurrencesOf _ _ _ _ _ _ o ho with
    ⟨j, hpath, haround⟩ | ⟨o', ho', j, hpath, haround⟩
  · have hwalk := hparent [] j hpath
    exact .inl ⟨(Option.some.inj hwalk).symm, haround⟩
  · obtain ⟨q, hq⟩ := hbuilt o' ho'
    have hwalk := hparent o'.path j hpath
    rw [hq.walk] at hwalk
    exact .inr ⟨o', ho', (Option.some.inj hwalk).symm, haround⟩

/-- What nodes are built as are nodes of the static trees. -/
theorem mem_forestLabels_compileBody {body : Body Node} {o : Occurrence} (ho : o ∈ body.occurrences)
    (root : Namespace) (first : Nat) :
    (⟨first + o.number⟩ : NodeId) ∈
      forestLabels (numberForest first ((compileBody body).forest root)) := by
  have hmem := List.mem_map_of_mem (f := Occurrence.number) ho
  rw [numbers_bodyOccurrences, List.mem_range] at hmem
  rw [mem_forestLabels_numberForest, forest_compileBody, forestCount_skeletons]
  exact ⟨Nat.le_add_right .., Nat.add_lt_add_left hmem first⟩

/-- The fragment of a compiled body has the static trees of its nodes. -/
theorem holds_compileBody (body : Body Node) (dom : Dom) (root : Namespace) :
    (dom.plantFragment ((compileBody body).forest root)).2.Holds none
      (.node (dom.plantFragment ((compileBody body).forest root)).1 .fragment
        (numberForest (dom.size + 1) (skeletons root none body.children))) := by
  rw [← forest_compileBody root body]
  exact (Dom.planted_plantFragment dom ((compileBody body).plantableAll_forest root)).holds

/-- Every node of a compiled body is built as the static node of its number. -/
theorem isBuilt_compileBody (body : Body Node) (dom : Dom) (root : Namespace) :
    ∀ o ∈ body.occurrences, ∃ parent,
      o.IsBuilt root (dom.plantFragment ((compileBody body).forest root)).2
        (dom.plantFragment ((compileBody body).forest root)).1 ⟨dom.size + 1 + o.number⟩
        parent := by
  have hholds := holds_compileBody body dom root
  refine isBuilt_occurrencesOf body.children [] none 0 0 _ [] rfl ?_ hholds.children
  exact Dom.children_of_record hholds.record_label

/-- Building a compiled body in any document, as the content of any element, makes a fragment with
the static trees of the body's nodes, one for each and in their order.  The sites come from the
nodes in document order, a node's before those of the nodes below it; the path of every node leads
to what it was built as, which the instruction of its number has created; and different nodes are
built as different ones. -/
theorem resolve_compileBody (body : Body Node) (dom : Dom) (context : Option NodeId) :
    let root := dom.nsBelow context
    let program := compileBody body
    let fragment := (dom.plantFragment (program.forest root)).1
    let built := (dom.plantFragment (program.forest root)).2
    built.Holds none (.node fragment .fragment
        (numberForest (dom.size + 1) (skeletons root none body.children))) ∧
      program.sites = body.occurrences.flatMap Occurrence.sites ∧
      body.occurrences.Pairwise (fun o o' => o.path < o'.path) ∧
      (∀ o ∈ body.occurrences,
        nodeAt? body.children o.path = some o.node ∧
        (program.build.filter Instruction.creates)[o.number]? = some o.creation ∧
        ∃ parent, o.IsBuilt root built fragment ⟨dom.size + 1 + o.number⟩ parent) ∧
      ∀ o ∈ body.occurrences, ∀ o' ∈ body.occurrences, o.path ≠ o'.path →
        (built.resolve fragment fragment o.path).1 ≠
          (built.resolve fragment fragment o'.path).1 := by
  intro root program fragment built
  have hbuilt := isBuilt_compileBody body dom root
  refine ⟨holds_compileBody body dom root, sites_compileBody body, pairwise_path_occurrencesOf ..,
    fun o ho => ⟨?_, ?_, ?_⟩, ?_⟩
  · exact nodeAt?_iff.2 ⟨o, ho, rfl, rfl⟩
  · rw [creations_compileBody, List.getElem?_map, getElem?_number_of_mem ho, Option.map_some]
  · exact hbuilt o ho
  · intro o ho o' ho' hne heq
    obtain ⟨parent, hid⟩ := hbuilt o ho
    obtain ⟨parent', hid'⟩ := hbuilt o' ho'
    rw [hid.resolve, hid'.resolve] at heq
    have hnumber : o.number = o'.number := by
      simpa using heq
    have hget := getElem?_number_of_mem ho
    rw [hnumber, getElem?_number_of_mem ho'] at hget
    exact hne (by rw [Option.some.inj hget])

end LiveTemplate
