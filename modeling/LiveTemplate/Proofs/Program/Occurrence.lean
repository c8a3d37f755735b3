import Mathlib.Data.List.Basic
import LiveTemplate.Proofs.Program.Skeleton

/-!
# LiveTemplate.Proofs.Program.Occurrence

The nodes of a body where they occur, and the sites that come from them.

`occurrencesOf` walks the nodes of a body in document order, into elements and not
into the bodies of blocks and components, and gives each node its path, its number
and the number of bodies before it.

1. The paths are those at which the body has nodes (`nodeAt?_iff`), and ascend.
2. The numbers count from zero on.
3. The sites of the compiled body are those of its nodes, node by node
   (`sites_compileBody`), and so are the instructions that create nodes.
-/

namespace LiveTemplate

/-! ## counting -/

mutual

/-- The number of nodes that are built for a node. -/
def Node.count : Node → Nat
  | .element _ children _ => countOf children + 1
  | .text .. | .comment .. | .insertion _ | .block .. | .component .. => 1

/-- The number of nodes that are built for nodes. -/
def countOf : List Node → Nat
  | [] => 0
  | node :: nodes => node.count + countOf nodes

end

mutual

/-- The number of bodies that are compiled for a node. -/
def Node.bodies : Node → Nat
  | .element _ children _ => bodiesOf children
  | .block _ _ inverse _ => (compileInverse inverse).length + 1
  | .component .. => 1
  | .text .. | .comment .. | .insertion _ => 0

/-- The number of bodies that are compiled for nodes. -/
def bodiesOf : List Node → Nat
  | [] => 0
  | node :: nodes => node.bodies + bodiesOf nodes

end

/-- A node is built with all below it. -/
theorem count_eq (node : Node) : node.count = countOf node.children + 1 := by
  cases node <;> rfl

theorem forestCount_skeletons (root : Namespace) (around : Option Namespace) (nodes : List Node) :
    forestCount (skeletons root around nodes) = countOf nodes := by
  induction nodes using nodes_induction generalizing around with
  | nil => rfl
  | cons node nodes ihchildren ihnodes =>
    rw [skeletons, forestCount, skeleton_eq, Tree.count, ihchildren, ihnodes, countOf, count_eq]

/-- The bodies of a compiled element are those of its children. -/
theorem children_compile_element (tag : ElementTag) (children : List Node) (span : Span)
    (path : List Nat) (around : Option Namespace) (base : Nat) :
    ((Node.element tag children span).compile path around base).children =
      (compileNodes path ((Node.element tag children span).nsBelow around) 0 base
        children).children := by
  have htag : (tag.compile path (knownNamespace tag.name around)).children = [] := by
    rw [ElementTag.compile, Program.children_append, (Program.sitesAt_parts ..).2.1]
    rfl
  rw [Node.compile, Program.children_append, Program.children_append, htag, List.nil_append]
  exact List.append_nil _

theorem children_insertion (i : Insertion) (path : List Nat) : (i.compile path).children = [] := by
  rw [Insertion.compile]
  split <;> rfl

mutual

theorem length_children_compile : (node : Node) → (path : List Nat) →
    (around : Option Namespace) → (base : Nat) →
      (node.compile path around base).children.length = node.bodies
  | .text s span, path, around, base => rfl
  | .comment s span, path, around, base => rfl
  | .insertion i, path, around, base => by
    rw [Node.compile, children_insertion, Node.bodies]
    rfl
  | .element tag children span, path, around, base => by
    rw [children_compile_element, length_children_compileNodes children, Node.bodies]
  | .block call body inverse span, path, around, base => by
    rw [Node.compile, Node.bodies]
    simp [Program.site]
  | .component tag body span, path, around, base => by
    rw [Node.compile, Node.bodies]
    simp [Program.site]

theorem length_children_compileNodes : (nodes : List Node) → (parent : List Nat) →
    (around : Option Namespace) → (index base : Nat) →
      (compileNodes parent around index base nodes).children.length = bodiesOf nodes
  | [], parent, around, index, base => rfl
  | node :: nodes, parent, around, index, base => by
    rw [compileNodes, Program.children_append, List.length_append, length_children_compile node,
      length_children_compileNodes nodes, bodiesOf]

end

/-! ## occurrences -/

/-- A node where it stands in a body. -/
structure Occurrence where
  node : Node
  /-- The child indices that lead to the node. -/
  path : List Nat
  /-- The namespace that the elements around the node have determined. -/
  around : Option Namespace
  /-- The number of nodes before it, in document order. -/
  number : Nat
  /-- The number of bodies before it. -/
  base : Nat

mutual

/-- A node with all below it, in document order. -/
def Node.occurrences (path : List Nat) (around : Option Namespace) (number base : Nat)
    (node : Node) : List Occurrence :=
  ⟨node, path, around, number, base⟩ ::
    match node with
    | .element tag children _ =>
      occurrencesOf path (knownNamespaceBelow tag.name (knownNamespace tag.name around)) 0
        (number + 1) base children
    | .text .. | .comment .. | .insertion _ | .block .. | .component .. => []

/-- Siblings from the one at `index` on with all below them, in document order. -/
def occurrencesOf (parent : List Nat) (around : Option Namespace) (index number base : Nat) :
    List Node → List Occurrence
  | [] => []
  | node :: nodes =>
    node.occurrences (parent ++ [index]) around number base ++
      occurrencesOf parent around (index + 1) (number + node.count) (base + node.bodies) nodes

end

/-- The nodes of a body where they occur. -/
def Body.occurrences (body : Body Node) : List Occurrence :=
  occurrencesOf [] none 0 0 0 body.children

/-- A node occurs before all below it, and this before its later siblings. -/
theorem occurrencesOf_cons (parent : List Nat) (around : Option Namespace)
    (index number base : Nat) (node : Node) (nodes : List Node) :
    occurrencesOf parent around index number base (node :: nodes) =
      ⟨node, parent ++ [index], around, number, base⟩ ::
        (occurrencesOf (parent ++ [index]) (node.nsBelow around) 0 (number + 1) base
            node.children ++
          occurrencesOf parent around (index + 1) (number + node.count) (base + node.bodies)
            nodes) := by
  rw [occurrencesOf]
  cases node <;> rfl

/-- Nodes are numbered in the order in which they occur. -/
theorem numbers_occurrencesOf (nodes : List Node) (parent : List Nat) (around : Option Namespace)
    (index number base : Nat) :
    (occurrencesOf parent around index number base nodes).map Occurrence.number =
      List.range' number (countOf nodes) := by
  induction nodes using nodes_induction generalizing parent around index number base with
  | nil => rfl
  | cons node nodes ihchildren ihnodes =>
    rw [occurrencesOf_cons, List.map_cons, List.map_append, ihchildren, ihnodes, countOf, count_eq,
      ← Nat.add_assoc, Nat.add_right_comm, List.range'_append_1, Nat.add_right_comm,
      List.range'_succ]

/-- The numbers of the nodes of a body count from zero on. -/
theorem numbers_bodyOccurrences (body : Body Node) :
    body.occurrences.map Occurrence.number = List.range (countOf body.children) := by
  rw [Body.occurrences, numbers_occurrencesOf, List.range_eq_range']

/-- The number of an occurrence is its index. -/
theorem getElem?_number_of_mem {body : Body Node} {o : Occurrence} (ho : o ∈ body.occurrences) :
    body.occurrences[o.number]? = some o := by
  obtain ⟨k, hk, rfl⟩ := List.getElem_of_mem ho
  have hmap : k < (body.occurrences.map Occurrence.number).length := by simpa using hk
  have hnumber : (body.occurrences.map Occurrence.number)[k] = k := by
    simp only [numbers_bodyOccurrences, List.getElem_range]
  rw [List.getElem_map] at hnumber
  rw [hnumber, List.getElem?_eq_getElem hk]

/-! ## paths -/

/-- The node that child indices lead to from a node. -/
def Node.at? (node : Node) : List Nat → Option Node
  | [] => some node
  | index :: path =>
    match node.children[index]? with
    | some child => child.at? path
    | none => none

/-- The node that child indices lead to in a list of nodes. -/
def nodeAt? (nodes : List Node) : List Nat → Option Node
  | [] => none
  | index :: path => nodes[index]?.bind (·.at? path)

theorem Node.at?_cons (node : Node) (index : Nat) (path : List Nat) :
    node.at? (index :: path) = nodeAt? node.children (index :: path) := by
  rw [Node.at?, nodeAt?]
  cases node.children[index]? <;> rfl

/-- A listed path leads to the node it is listed with. -/
theorem nodeAt?_of_mem_occurrencesOf (nodes : List Node) (parent : List Nat)
    (around : Option Namespace) (index number base : Nat) :
    ∀ o ∈ occurrencesOf parent around index number base nodes,
      ∃ j rest, o.path = parent ++ (index + j) :: rest ∧
        nodeAt? nodes (j :: rest) = some o.node := by
  induction nodes using nodes_induction generalizing parent around index number base with
  | nil => simp [occurrencesOf]
  | cons node nodes ihchildren ihnodes =>
    intro o ho
    rw [occurrencesOf_cons, List.mem_cons, List.mem_append] at ho
    rcases ho with rfl | ho | ho
    · exact ⟨0, [], rfl, rfl⟩
    · obtain ⟨j, rest, hpath, hat⟩ := ihchildren _ _ _ _ _ o ho
      refine ⟨0, j :: rest, by simp [hpath], ?_⟩
      rw [nodeAt?, List.getElem?_cons_zero, Option.bind_some, node.at?_cons, hat]
    · obtain ⟨j, rest, hpath, hat⟩ := ihnodes _ _ _ _ _ o ho
      refine ⟨j + 1, rest, ?_, hat⟩
      rw [hpath, Nat.add_assoc, Nat.add_comm 1 j]

/-- Every path that leads to a node is listed with it. -/
theorem exists_mem_occurrencesOf (nodes : List Node) (parent : List Nat)
    (around : Option Namespace) (index number base : Nat) {j : Nat} {rest : List Nat} {node : Node}
    (h : nodeAt? nodes (j :: rest) = some node) :
    ∃ o ∈ occurrencesOf parent around index number base nodes,
      o.path = parent ++ (index + j) :: rest ∧ o.node = node := by
  induction nodes using nodes_induction generalizing parent around index number base j rest with
  | nil => simp [nodeAt?] at h
  | cons first nodes ihchildren ihnodes =>
    simp only [occurrencesOf_cons, List.mem_cons, List.mem_append]
    cases j with
    | zero =>
      rw [nodeAt?, List.getElem?_cons_zero, Option.bind_some] at h
      cases rest with
      | nil =>
        cases h
        exact ⟨_, .inl rfl, rfl, rfl⟩
      | cons i rest =>
        rw [first.at?_cons] at h
        obtain ⟨o, ho, hpath, hnode⟩ := ihchildren (parent ++ [index]) _ 0 (number + 1) base h
        exact ⟨o, .inr (.inl ho), by simp [hpath], hnode⟩
    | succ j =>
      obtain ⟨o, ho, hpath, hnode⟩ := ihnodes parent around (index + 1) _ _ h
      refine ⟨o, .inr (.inr ho), ?_, hnode⟩
      rw [hpath, Nat.add_assoc, Nat.add_comm 1 j]

/-- The paths of the occurrences are those at which a body has nodes. -/
theorem nodeAt?_iff {body : Body Node} {path : List Nat} {node : Node} :
    nodeAt? body.children path = some node ↔
      ∃ o ∈ body.occurrences, o.path = path ∧ o.node = node := by
  constructor
  · intro h
    cases path with
    | nil => simp [nodeAt?] at h
    | cons j rest =>
      obtain ⟨o, ho, hpath, hnode⟩ := exists_mem_occurrencesOf body.children [] none 0 0 0 h
      exact ⟨o, ho, by simpa using hpath, hnode⟩
  · rintro ⟨o, ho, rfl, rfl⟩
    obtain ⟨j, rest, hpath, hat⟩ := nodeAt?_of_mem_occurrencesOf _ _ _ _ _ _ o ho
    rw [hpath, List.nil_append, Nat.zero_add, hat]

/-- A node stands among those that are listed, or directly below one of the nodes around. -/
theorem parent_of_mem_occurrencesOf (nodes : List Node) (parent : List Nat)
    (around : Option Namespace) (index number base : Nat) :
    ∀ o ∈ occurrencesOf parent around index number base nodes,
      (∃ j, o.path = parent ++ [j] ∧ o.around = around) ∨
        ∃ o' ∈ occurrencesOf parent around index number base nodes,
          ∃ j, o.path = o'.path ++ [j] ∧ o.around = o'.node.nsBelow o'.around := by
  induction nodes using nodes_induction generalizing parent around index number base with
  | nil => simp [occurrencesOf]
  | cons node nodes ihchildren ihnodes =>
    intro o ho
    simp only [occurrencesOf_cons, List.mem_cons, List.mem_append] at ho ⊢
    rcases ho with rfl | ho | ho
    · exact .inl ⟨index, rfl, rfl⟩
    · rcases ihchildren _ _ _ _ _ o ho with ⟨j, hpath, haround⟩ | ⟨o', ho', j, hpath, haround⟩
      · exact .inr ⟨_, .inl rfl, j, hpath, haround⟩
      · exact .inr ⟨o', .inr (.inl ho'), j, hpath, haround⟩
    · rcases ihnodes _ _ _ _ _ o ho with ⟨j, hpath, haround⟩ | ⟨o', ho', j, hpath, haround⟩
      · exact .inl ⟨j, hpath, haround⟩
      · exact .inr ⟨o', .inr (.inr ho'), j, hpath, haround⟩

/-- What holds of nodes and is handed on to the nodes below them holds wherever nodes occur. -/
theorem forall_mem_occurrencesOf {P : Node → Prop}
    (hbelow : ∀ node, P node → ∀ child ∈ node.children, P child) {nodes : List Node}
    (h : ∀ node ∈ nodes, P node) (parent : List Nat) (around : Option Namespace)
    (index number base : Nat) :
    ∀ o ∈ occurrencesOf parent around index number base nodes, P o.node := by
  induction nodes using nodes_induction generalizing parent around index number base with
  | nil => simp [occurrencesOf]
  | cons node nodes ihchildren ihnodes =>
    obtain ⟨hnode, hnodes⟩ := List.forall_mem_cons.1 h
    intro o ho
    rw [occurrencesOf_cons, List.mem_cons, List.mem_append] at ho
    rcases ho with rfl | ho | ho
    · exact hnode
    · exact ihchildren (hbelow node hnode) _ _ _ _ _ o ho
    · exact ihnodes hnodes _ _ _ _ _ o ho

/-! ## document order -/

/-- Paths ascend in the order in which they are listed: a node stands before those below it, and
these before its later siblings. -/
theorem pairwise_path_occurrencesOf (nodes : List Node) (parent : List Nat)
    (around : Option Namespace) (index number base : Nat) :
    (occurrencesOf parent around index number base nodes).Pairwise
      fun o o' => o.path < o'.path := by
  induction nodes using nodes_induction generalizing parent around index number base with
  | nil => exact List.Pairwise.nil
  | cons node nodes ihchildren ihnodes =>
    have hbelow := nodeAt?_of_mem_occurrencesOf node.children (parent ++ [index])
      (node.nsBelow around) 0 (number + 1) base
    have hafter := nodeAt?_of_mem_occurrencesOf nodes parent around (index + 1)
      (number + node.count) (base + node.bodies)
    rw [occurrencesOf_cons, List.pairwise_cons, List.pairwise_append]
    refine ⟨fun o ho => ?_, ihchildren _ _ _ _ _, ihnodes _ _ _ _ _, fun o ho o' ho' => ?_⟩
    · rcases List.mem_append.1 ho with ho | ho
      · obtain ⟨j, rest, hpath, -⟩ := hbelow o ho
        rw [hpath, List.append_assoc]
        exact List.append_left_lt (List.cons_lt_cons_iff.2 (.inr ⟨rfl, List.nil_lt_cons ..⟩))
      · obtain ⟨j, rest, hpath, -⟩ := hafter o ho
        rw [hpath]
        exact List.append_left_lt (List.cons_lt_cons_iff.2 (.inl (by omega)))
    · obtain ⟨j, rest, hpath, -⟩ := hbelow o ho
      obtain ⟨j', rest', hpath', -⟩ := hafter o' ho'
      rw [hpath, hpath', List.append_assoc]
      exact List.append_left_lt (List.cons_lt_cons_iff.2 (.inl (by omega)))

/-! ## bodies -/

/-- The bodies of a node, in the order of their programs: the part of a block behind `else` comes
after its body. -/
def Node.enclosed : Node → List (Body Node)
  | .block _ body inverse _ => body :: inverse.toList
  | .component _ body _ => [body]
  | .text .. | .comment .. | .insertion _ | .element .. => []

mutual

theorem Node.induction_enclosed {motive : Body Node → Prop}
    (step : ∀ body : Body Node, (∀ o ∈ body.occurrences, ∀ inside ∈ o.node.enclosed,
      motive inside) → motive body) :
    (node : Node) → ∀ path around number base,
      ∀ o ∈ node.occurrences path around number base, ∀ inside ∈ o.node.enclosed, motive inside
  | .element tag children span => by
    intro path around number base o ho inside hinside
    rw [Node.occurrences, List.mem_cons] at ho
    rcases ho with rfl | ho
    · simp [Node.enclosed] at hinside
    · exact nodes_induction_enclosed step children _ _ _ _ _ o ho inside hinside
  | .block call body none span => by
    intro path around number base o ho inside hinside
    obtain rfl := List.mem_singleton.1 ho
    rw [List.mem_singleton.1 hinside]
    exact body_induction step body
  | .block call body (some inverse) span => by
    intro path around number base o ho inside hinside
    obtain rfl := List.mem_singleton.1 ho
    have hcase : inside = body ∨ inside = inverse := by simpa [Node.enclosed] using hinside
    rcases hcase with hinside | hinside
    · rw [hinside]
      exact body_induction step body
    · rw [hinside]
      exact body_induction step inverse
  | .component tag body span => by
    intro path around number base o ho inside hinside
    obtain rfl := List.mem_singleton.1 ho
    rw [List.mem_singleton.1 hinside]
    exact body_induction step body
  | .text .. | .comment .. | .insertion _ => by
    intro path around number base o ho inside hinside
    obtain rfl := List.mem_singleton.1 ho
    simp [Node.enclosed] at hinside

/-- Induction over bodies: what holds of a body if it holds of the bodies of its blocks and
components, in elements at any depth, holds of every body. -/
@[elab_as_elim]
theorem body_induction {motive : Body Node → Prop}
    (step : ∀ body : Body Node, (∀ o ∈ body.occurrences, ∀ inside ∈ o.node.enclosed,
      motive inside) → motive body) :
    (body : Body Node) → motive body
  | ⟨children, _, _⟩ =>
    step _ (nodes_induction_enclosed step children [] none 0 0 0)

theorem nodes_induction_enclosed {motive : Body Node → Prop}
    (step : ∀ body : Body Node, (∀ o ∈ body.occurrences, ∀ inside ∈ o.node.enclosed,
      motive inside) → motive body) :
    (nodes : List Node) → ∀ parent around index number base,
      ∀ o ∈ occurrencesOf parent around index number base nodes, ∀ inside ∈ o.node.enclosed,
        motive inside
  | [] => by simp [occurrencesOf]
  | node :: nodes => by
    intro parent around index number base o ho inside hinside
    rw [occurrencesOf, List.mem_append] at ho
    rcases ho with ho | ho
    · exact node.induction_enclosed step _ _ _ _ o ho inside hinside
    · exact nodes_induction_enclosed step nodes _ _ _ _ _ o ho inside hinside

end

/-- The programs of the bodies of a node come one after the other. -/
theorem children_compile_of_not_element (node : Node) (hchildren : node.children = [])
    (path : List Nat) (around : Option Namespace) (base : Nat) :
    (node.compile path around base).children = node.enclosed.map compileBody := by
  cases node with
  | text s span => rfl
  | comment s span => rfl
  | insertion i => exact children_insertion i path
  | element tag children span =>
    obtain rfl : children = [] := hchildren
    rw [children_compile_element]
    rfl
  | block call body inverse span => cases inverse <;> rfl
  | component tag body span => rfl

/-- The bodies of a node are those of their numbers. -/
theorem getElem?_children_of_mem_occurrencesOf (nodes : List Node) (parent : List Nat)
    (around : Option Namespace) (index number : Nat) (before after : List Program) :
    ∀ o ∈ occurrencesOf parent around index number before.length nodes,
      ∀ (k : Nat) (inside : Body Node), o.node.enclosed[k]? = some inside →
        (before ++ (compileNodes parent around index before.length nodes).children ++
          after)[o.base + k]? = some (compileBody inside) := by
  induction nodes using nodes_induction
      generalizing parent around index number before after with
  | nil => simp [occurrencesOf]
  | cons node nodes ihchildren ihnodes =>
    intro o ho k inside hinside
    rw [compileNodes, Program.children_append, length_children_compile]
    rw [occurrencesOf_cons, List.mem_cons, List.mem_append] at ho
    rcases ho with rfl | ho | ho
    · cases hchildren : node.children with
      | nil =>
        have hlt : k < (node.enclosed.map compileBody).length := by
          rw [List.length_map]
          exact (List.getElem?_eq_some_iff.1 hinside).1
        rw [children_compile_of_not_element node hchildren, List.append_assoc, List.append_assoc,
          List.getElem?_append_right (Nat.le_add_right ..), Nat.add_sub_cancel_left,
          List.getElem?_append_left hlt, List.getElem?_map, hinside]
        rfl
      | cons child children =>
        cases node with
        | element tag children' span => simp [Node.enclosed] at hinside
        | _ => cases hchildren
    · cases node with
      | element tag' children span' =>
        rw [children_compile_element, ← List.append_assoc, List.append_assoc]
        exact ihchildren _ _ 0 (number + 1) before _ o ho k inside hinside
      | _ => simp [Node.children, occurrencesOf] at ho
    · have hlength : (before ++ (node.compile (parent ++ [index]) around
          before.length).children).length = before.length + node.bodies := by
        rw [List.length_append, length_children_compile]
      rw [← hlength] at ho
      have hbody := ihnodes parent around (index + 1) _ _ after o ho k inside hinside
      rwa [hlength, List.append_assoc before] at hbody

/-- The program of a body has at the number of a node the programs of the bodies of the node. -/
theorem getElem?_children_compileBody {body : Body Node} {o : Occurrence}
    (ho : o ∈ body.occurrences) {k : Nat} {inside : Body Node}
    (hinside : o.node.enclosed[k]? = some inside) :
    (compileBody body).children[o.base + k]? = some (compileBody inside) := by
  obtain ⟨children, blockParams, _⟩ := body
  have hchild :=
    getElem?_children_of_mem_occurrencesOf children [] none 0 0 [] [] o ho k inside hinside
  rwa [List.nil_append, List.append_nil] at hchild

/-! ## sites and instructions -/

/-- The argument that a mustache becomes: its path, if that is all there is to it, or its call. -/
def Insertion.argument (i : Insertion) : Param :=
  match i.call with
  | ⟨path, none, [], []⟩ => .id path
  | call => .call call

/-- The argument that a part of a value becomes. -/
def AttributePart.argument : AttributePart → Param
  | .text s => .string s
  | .insertion i => i.argument

/-- The argument that the value of an attribute becomes for a component. -/
def AttributeValue.argument : AttributeValue → Param
  | .static s => .string s
  | .bare i => i.argument
  | .joined parts => .call { path := "concat", params := parts.map AttributePart.argument }

/-- What happens at an element for one of its attributes.  A value without a mustache is set when
the element is built. -/
def Attribute.actions (a : Attribute) : List Action :=
  match a.value with
  | .static _ => []
  | .bare i => [.attr a.name false [i.argument]]
  | .joined parts => [.attr a.name true (parts.map AttributePart.argument)]

/-- What happens at a node, with `base` bodies before it: modifiers come before attributes. -/
def Node.actions (base : Nat) : Node → List Action
  | .element tag _ _ => tag.modifiers.map Action.modifier ++ tag.attributes.flatMap Attribute.actions
  | .insertion i => [.content i.call i.escaped]
  | .block call _ inverse _ => [.block call base (inverse.map fun _ => base + 1)]
  | .component tag _ _ =>
    [.component tag.name (tag.attributes.map fun a => (a.name, a.value.argument)) base]
  | .text .. | .comment .. => []

theorem Insertion.param_eq (i : Insertion) : i.param = i.argument := by
  obtain ⟨⟨path, literal, params, hash⟩, escaped, span⟩ := i
  cases literal <;> cases params <;> cases hash <;> rfl

theorem AttributePart.param_eq (part : AttributePart) : part.param = part.argument := by
  cases part with
  | text s => rfl
  | insertion i => exact i.param_eq

theorem AttributeValue.param_eq (value : AttributeValue) : value.param = value.argument := by
  cases value with
  | static s => rfl
  | bare i => exact i.param_eq
  | joined parts => rw [param, argument, funext AttributePart.param_eq, Builtin.name]

theorem Attribute.action?_eq (a : Attribute) : a.action?.toList = a.actions := by
  rw [action?, actions]
  cases a.value with
  | static s => rfl
  | bare i => exact congrArg (fun p => [Action.attr a.name false [p]]) i.param_eq
  | joined parts =>
    exact congrArg (fun f => [Action.attr a.name true (parts.map f)]) (funext AttributePart.param_eq)

/-- The sites of an element are those that its attributes have. -/
theorem actions_element (tag : ElementTag) (children : List Node) (span : Span) (base : Nat) :
    (Node.element tag children span).actions base =
      tag.modifiers.map Action.modifier ++ tag.attributes.filterMap Attribute.action? := by
  rw [Node.actions, List.filterMap_eq_flatMap_toList, funext Attribute.action?_eq]

theorem actions_component (tag : ComponentTag) (body : Body Node) (span : Span) (base : Nat) :
    (Node.component tag body span).actions base =
      [.component tag.name (tag.attributes.map fun a => (a.name, a.value.param)) base] := by
  simp only [Node.actions, AttributeValue.param_eq]

/-- What happens at an element are its modifiers and attributes. -/
theorem ElementTag.cases_of_mem_actions {tag : ElementTag} {children : List Node} {span : Span}
    {base : Nat} {action : Action} (h : action ∈ (Node.element tag children span).actions base) :
    (∃ call, action = .modifier call) ∨ ∃ name quoted parts, action = .attr name quoted parts := by
  rcases List.mem_append.1 h with hmodifier | hattribute
  · obtain ⟨call, -, rfl⟩ := List.mem_map.1 hmodifier
    exact .inl ⟨call, rfl⟩
  · obtain ⟨a, -, ha⟩ := List.mem_flatMap.1 hattribute
    rw [Attribute.actions] at ha
    split at ha <;> simp at ha <;> exact .inr ⟨_, _, _, ha⟩

/-- Elements have modifiers and attributes, and what happens anywhere else happens at the node of a
mustache, a block or a component. -/
theorem cases_of_mem_actions {node : Node} {base : Nat} {action : Action}
    (h : action ∈ node.actions base) :
    (∃ i, node = .insertion i ∧ action = .content i.call i.escaped) ∨
    (∃ call body inverse span, node = .block call body inverse span ∧
      action = .block call base (inverse.map fun _ => base + 1)) ∨
    (∃ tag body span, node = .component tag body span ∧
      action = .component tag.name (tag.attributes.map fun a => (a.name, a.value.param)) base) ∨
    (∃ tag children span, node = .element tag children span ∧
      ((∃ call, action = .modifier call) ∨
        ∃ name quoted parts, action = .attr name quoted parts)) := by
  cases node with
  | text s span => cases h
  | comment s span => cases h
  | insertion i => exact .inl ⟨i, rfl, List.mem_singleton.1 h⟩
  | block call body inverse span =>
    exact .inr (.inl ⟨call, body, inverse, span, rfl, List.mem_singleton.1 h⟩)
  | component tag body span =>
    rw [actions_component, List.mem_singleton] at h
    exact .inr (.inr (.inl ⟨tag, body, span, rfl, h⟩))
  | element tag children span =>
    exact .inr (.inr (.inr ⟨tag, children, span, rfl, ElementTag.cases_of_mem_actions h⟩))

/-- The sites that come from a node. -/
def Occurrence.sites (o : Occurrence) : List Site :=
  (o.node.actions o.base).map fun action => ⟨o.path, action⟩

/-- The instruction that creates a node. -/
def Node.creation (around : Option Namespace) : Node → Instruction
  | .text s _ => .text s
  | .comment s _ => .comment s
  | .element tag _ _ => .openElement tag.name (knownNamespace tag.name around)
  | .insertion _ | .block .. | .component .. => .placeholder

/-- The instruction that creates the node of an occurrence. -/
def Occurrence.creation (o : Occurrence) : Instruction := o.node.creation o.around

/-- Whether an instruction creates a node. -/
def Instruction.creates : Instruction → Bool
  | .openElement .. | .text _ | .comment _ | .placeholder => true
  | .setAttribute .. | .closeElement => false

theorem sites_insertion (i : Insertion) (path : List Nat) :
    (i.compile path).sites = [⟨path, .content i.call i.escaped⟩] := by
  rw [Insertion.compile]
  split <;> rfl

/-- The sites of a compiled node: its own, and those of its children. -/
theorem sites_compile (node : Node) (path : List Nat) (around : Option Namespace) (base : Nat) :
    (node.compile path around base).sites =
      (node.actions base).map (fun action => ⟨path, action⟩) ++
      (compileNodes path (node.nsBelow around) 0 base node.children).sites := by
  cases node with
  | element tag children span =>
    rw [Node.compile, Program.sites_append, Program.sites_append, ElementTag.compile,
      Program.sites_append, (Program.sitesAt_parts ..).2.2]
    simp [Program.instruction, actions_element, Node.children, Node.nsBelow]
  | insertion i =>
    rw [Node.compile, sites_insertion]
    rfl
  | text s span => rfl
  | comment s span => rfl
  | block call body inverse span => rfl
  | component tag body span =>
    rw [actions_component]
    rfl

/-- The nodes a compiled node creates: its own, and those of its children. -/
theorem creations_compile (node : Node) (path : List Nat) (around : Option Namespace)
    (base : Nat) :
    (node.compile path around base).build.filter Instruction.creates = node.creation around ::
      (compileNodes path (node.nsBelow around) 0 base node.children).build.filter
        Instruction.creates := by
  cases node with
  | element tag children span =>
    have hattributes : (tag.attributes.filterMap Attribute.instruction?).filter
        Instruction.creates = [] := by
      rw [List.filter_eq_nil_iff]
      intro i hi
      obtain ⟨a, -, ha⟩ := List.mem_filterMap.1 hi
      rw [a.instruction?_eq] at ha
      obtain ⟨pair, -, rfl⟩ := Option.map_eq_some_iff.1 ha
      simp [Instruction.creates]
    rw [Node.compile, Program.build_append, Program.build_append, ElementTag.compile,
      Program.build_append, (Program.sitesAt_parts ..).1, List.append_nil]
    simp [Program.instruction, List.filter_append, List.filter_cons, hattributes,
      Instruction.creates, Node.creation, Node.children, Node.nsBelow]
  | insertion i =>
    rw [Node.compile, build_insertion]
    rfl
  | text s span => rfl
  | comment s span => rfl
  | block call body inverse span => rfl
  | component tag body span => rfl

theorem sites_compileNodes (nodes : List Node) (parent : List Nat) (around : Option Namespace)
    (index number base : Nat) :
    (compileNodes parent around index base nodes).sites =
      (occurrencesOf parent around index number base nodes).flatMap Occurrence.sites := by
  induction nodes using nodes_induction generalizing parent around index number base with
  | nil => rfl
  | cons node nodes ihchildren ihnodes =>
    rw [compileNodes, Program.sites_append, sites_compile, length_children_compile,
      ihchildren _ _ _ (number + 1), ihnodes _ _ _ (number + node.count), occurrencesOf_cons,
      List.flatMap_cons, List.flatMap_append, List.append_assoc]
    rfl

theorem creations_compileNodes (nodes : List Node) (parent : List Nat)
    (around : Option Namespace) (index number base : Nat) :
    (compileNodes parent around index base nodes).build.filter Instruction.creates =
      (occurrencesOf parent around index number base nodes).map Occurrence.creation := by
  induction nodes using nodes_induction generalizing parent around index number base with
  | nil => rfl
  | cons node nodes ihchildren ihnodes =>
    rw [compileNodes, Program.build_append, List.filter_append, creations_compile,
      length_children_compile, ihchildren _ _ _ (number + 1), ihnodes _ _ _ (number + node.count),
      occurrencesOf_cons, List.map_cons, List.map_append]
    rfl

/-- The sites of a compiled body are those of its nodes, in document order. -/
theorem sites_compileBody (body : Body Node) :
    (compileBody body).sites = body.occurrences.flatMap Occurrence.sites := by
  obtain ⟨children, blockParams, span⟩ := body
  rw [compileBody]
  exact sites_compileNodes children [] none 0 0 0

/-- The instructions of a compiled body create its nodes, in document order. -/
theorem creations_compileBody (body : Body Node) :
    (compileBody body).build.filter Instruction.creates =
      body.occurrences.map Occurrence.creation := by
  obtain ⟨children, blockParams, span⟩ := body
  rw [compileBody]
  exact creations_compileNodes children [] none 0 0 0

/-! ## features -/

/-- Whether an action shows a partial. -/
def Action.isPartial : Action → Bool
  | content call _ => call.isPartial
  | block .. | component .. | attr .. | modifier _ => false

/-- Whether an action makes use of a feature. -/
def Action.uses (action : Action) (f : Feature) : Bool :=
  f == action.feature || (f == .partials && action.isPartial)

namespace Program

/-- A program has the features that its sites make use of, and no others. -/
def Exact (p : Program) : Prop := ∀ f, p.features.has f = p.sites.any (·.action.uses f)

theorem Exact.append {p q : Program} (hp : p.Exact) (hq : q.Exact) : (p ++ q).Exact := by
  intro f
  show (p.features.has f || q.features.has f) = (p.sites ++ q.sites).any _
  rw [hp f, hq f, List.any_append]

theorem exact_of_sites_eq_nil {p : Program} (hsites : p.sites = [])
    (hfeatures : p.features = Features.empty) : p.Exact := by
  intro f
  rw [hsites, hfeatures]
  rfl

theorem exact_site {s : Site} (h : s.action.isPartial = false) : (site s).Exact := by
  intro f
  simp [site, Features.singleton, Action.uses, h]

theorem exact_sitesAt (path : List Nat) {actions : List Action}
    (h : ∀ action ∈ actions, action.isPartial = false) : (sitesAt path actions).Exact := by
  induction actions with
  | nil => exact exact_of_sites_eq_nil rfl rfl
  | cons action actions ih =>
    rw [List.forall_mem_cons] at h
    exact (exact_site (s := ⟨path, action⟩) h.1).append (ih h.2)

/-- A program without features has no sites, and one without sites has no features. -/
theorem Exact.isStatic_iff {p : Program} (h : p.Exact) : p.isStatic = true ↔ p.sites = [] := by
  rw [isStatic, Features.isEmpty_iff]
  constructor
  · intro hnone
    rw [List.eq_nil_iff_forall_not_mem]
    intro s hs
    have hunused := (h s.action.feature).symm.trans (hnone _)
    rw [List.any_eq_false] at hunused
    exact hunused s hs (by simp [Action.uses])
  · intro hsites f
    rw [h f, hsites]
    rfl

end Program

theorem exact_compileTag (tag : ElementTag) (path : List Nat) (ns : Option Namespace) :
    (tag.compile path ns).Exact := by
  rw [ElementTag.compile]
  refine (Program.exact_of_sites_eq_nil rfl rfl).append (Program.exact_sitesAt path ?_)
  intro action haction
  rw [← actions_element tag [] {} 0] at haction
  rcases ElementTag.cases_of_mem_actions haction with ⟨_, rfl⟩ | ⟨_, _, _, rfl⟩ <;> rfl

theorem exact_insertion (i : Insertion) (path : List Nat) : (i.compile path).Exact := by
  rw [Insertion.compile]
  split
  · next hpartial =>
    intro f
    cases f <;> simp [Program.site, Action.uses, Action.isPartial, hpartial, Action.feature] <;> rfl
  · next hpartial =>
    exact (Program.exact_of_sites_eq_nil rfl rfl).append
      (Program.exact_site (Bool.eq_false_iff.2 hpartial))

/-- Compiled nodes have the features that their sites make use of. -/
theorem exact_compileNodes (nodes : List Node) (parent : List Nat) (around : Option Namespace)
    (index base : Nat) : (compileNodes parent around index base nodes).Exact := by
  induction nodes using nodes_induction generalizing parent around index base with
  | nil => exact Program.exact_of_sites_eq_nil rfl rfl
  | cons node nodes ihchildren ihnodes =>
    rw [compileNodes]
    refine Program.Exact.append ?_ (ihnodes _ _ _ _)
    cases node with
    | text s span => exact Program.exact_of_sites_eq_nil rfl rfl
    | comment s span => exact Program.exact_of_sites_eq_nil rfl rfl
    | insertion i =>
      rw [Node.compile]
      exact exact_insertion i _
    | element tag children span =>
      rw [Node.compile]
      exact ((exact_compileTag tag _ _).append (ihchildren _ _ _ _)).append
        (Program.exact_of_sites_eq_nil rfl rfl)
    | block call body inverse span =>
      rw [Node.compile]
      exact (Program.exact_of_sites_eq_nil rfl rfl).append (Program.exact_site rfl)
    | component tag body span =>
      rw [Node.compile]
      exact (Program.exact_of_sites_eq_nil rfl rfl).append (Program.exact_site rfl)

/-- A compiled body has the features that its sites make use of. -/
theorem exact_compileBody (body : Body Node) : (compileBody body).Exact := by
  obtain ⟨children, blockParams, span⟩ := body
  rw [compileBody]
  exact exact_compileNodes children [] none 0 0

/-- A compiled body whose render ends with the static tree has no sites. -/
theorem sites_of_isStatic {body : Body Node} (h : (compileBody body).isStatic) :
    (compileBody body).sites = [] :=
  (exact_compileBody body).isStatic_iff.1 h

end LiveTemplate
