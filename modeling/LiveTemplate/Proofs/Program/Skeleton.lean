import LiveTemplate.Program.Compile
import LiveTemplate.Proofs.Dom.Building

/-!
# LiveTemplate.Proofs.Program.Skeleton

The static tree of a compiled body, read off the body itself.

A node of a template becomes one node of the static tree (`Node.skeleton`): texts and
comments become themselves, elements keep their static attributes and have one child
for each of theirs, and whatever is rendered later becomes an empty text.  Running
the instructions of the compiled node adds exactly this tree, whatever is open around
it (`build_compile`).
-/

namespace LiveTemplate

/-! ## parts of programs -/

namespace Program

@[simp] theorem build_append (p q : Program) : (p ++ q).build = p.build ++ q.build := rfl

@[simp] theorem sites_append (p q : Program) : (p ++ q).sites = p.sites ++ q.sites := rfl

@[simp] theorem children_append (p q : Program) : (p ++ q).children = p.children ++ q.children :=
  rfl

/-- The sites at one node build nothing and have no bodies. -/
theorem sitesAt_parts (path : List Nat) (actions : List Action) :
    (sitesAt path actions).build = [] ∧ (sitesAt path actions).children = [] ∧
      (sitesAt path actions).sites = actions.map fun action => ⟨path, action⟩ := by
  induction actions with
  | nil => exact ⟨rfl, rfl, rfl⟩
  | cons action actions ih =>
    obtain ⟨hbuild, hchildren, hsites⟩ := ih
    refine ⟨?_, ?_, ?_⟩
    · exact hbuild
    · exact hchildren
    · rw [List.map_cons, ← hsites]
      rfl

end Program

/-! ## the static tree -/

/-- The name and the value of an attribute whose value is static. -/
def Attribute.static? (a : Attribute) : Option (String × String) :=
  match a.value with
  | .static s => some (a.name, s)
  | .bare _ | .joined _ => none

/-- The static attributes of an element; of two with one name the last counts. -/
def ElementTag.staticAttributes (tag : ElementTag) : Dict String :=
  .ofPairs (tag.attributes.filterMap Attribute.static?)

/-- What a node is built as, apart from its children.  `around` is the namespace that the elements
around it have determined, `root` the one handed down where none has. -/
def Node.data (root : Namespace) (around : Option Namespace) : Node → NodeData
  | .text s _ => .text s
  | .comment s _ => .comment s
  | .element tag _ _ =>
    .element tag.name ((knownNamespace tag.name around).getD root) tag.staticAttributes
  | .insertion _ | .block .. | .component .. => .text ""

/-- The nodes that are built below a node. -/
def Node.children : Node → List Node
  | .element _ children _ => children
  | .text .. | .comment .. | .insertion _ | .block .. | .component .. => []

/-- The namespace that is determined for the children of a node. -/
def Node.nsBelow (around : Option Namespace) : Node → Option Namespace
  | .element tag _ _ => knownNamespaceBelow tag.name (knownNamespace tag.name around)
  | .text .. | .comment .. | .insertion _ | .block .. | .component .. => around

mutual

/-- The static tree of a node. -/
def Node.skeleton (root : Namespace) (around : Option Namespace) : Node → Markup
  | .element tag children span =>
    .node () (Node.data root around (.element tag children span))
      (skeletons root (Node.nsBelow around (.element tag children span)) children)
  | .text s span => .node () (Node.data root around (.text s span)) []
  | .comment s span => .node () (Node.data root around (.comment s span)) []
  | .insertion i => .node () (Node.data root around (.insertion i)) []
  | .block call body inverse span =>
    .node () (Node.data root around (.block call body inverse span)) []
  | .component tag body span => .node () (Node.data root around (.component tag body span)) []

/-- The static trees of nodes. -/
def skeletons (root : Namespace) (around : Option Namespace) : List Node → List Markup
  | [] => []
  | node :: nodes => node.skeleton root around :: skeletons root around nodes

end

mutual

theorem Node.induction_children {motive : List Node → Prop} (nil : motive [])
    (cons : ∀ node nodes, motive node.children → motive nodes → motive (node :: nodes)) :
    (node : Node) → motive node.children
  | .element _ children _ => nodes_induction nil cons children
  | .text .. | .comment .. | .insertion _ | .block .. | .component .. => nil

/-- Induction over nodes, their siblings and their children.  The bodies of blocks and components
do not take part in it. -/
@[elab_as_elim]
theorem nodes_induction {motive : List Node → Prop} (nil : motive [])
    (cons : ∀ node nodes, motive node.children → motive nodes → motive (node :: nodes)) :
    (nodes : List Node) → motive nodes
  | [] => nil
  | node :: nodes =>
    cons node nodes (node.induction_children nil cons) (nodes_induction nil cons nodes)

end

/-- The static tree of a node has its data, and the static trees of its children. -/
theorem skeleton_eq (root : Namespace) (around : Option Namespace) (node : Node) :
    node.skeleton root around =
      .node () (node.data root around) (skeletons root (node.nsBelow around) node.children) := by
  cases node <;> rfl

@[simp] theorem length_skeletons (root : Namespace) (around : Option Namespace)
    (nodes : List Node) : (skeletons root around nodes).length = nodes.length := by
  induction nodes with
  | nil => rfl
  | cons node nodes ih => rw [skeletons, List.length_cons, ih, List.length_cons]

/-! ## running the instructions -/

theorem Attribute.instruction?_eq (a : Attribute) :
    a.instruction? = a.static?.map fun pair => .setAttribute pair.1 pair.2 := by
  rw [Attribute.instruction?, Attribute.static?]
  cases a.value <;> rfl

/-- The static attributes are set on the element that was opened last, one after the other. -/
theorem foldl_instruction_attributes (root : Namespace) (attributes : List Attribute)
    (tag : String) (ns : Namespace) (d : Dict String) (before : List Markup) (b : Builder) :
    (attributes.filterMap Attribute.instruction?).foldl (Builder.instruction root)
        { b with opened := ⟨.element tag ns d, before⟩ :: b.opened } =
      { b with opened := ⟨.element tag ns ((attributes.filterMap Attribute.static?).foldl
          (fun d (name, value) => d.set name value) d), before⟩ :: b.opened } := by
  induction attributes generalizing d with
  | nil => rfl
  | cons a attributes ih =>
    have ha := a.instruction?_eq
    cases hstatic : a.static? with
    | none =>
      rw [hstatic] at ha
      rw [List.filterMap_cons_none ha, List.filterMap_cons_none hstatic, ih]
    | some pair =>
      rw [hstatic] at ha
      rw [List.filterMap_cons_some ha, List.filterMap_cons_some hstatic, List.foldl_cons,
        List.foldl_cons]
      exact ih (d.set pair.1 pair.2)

/-- Opening an element and setting its static attributes opens the element as it is built. -/
theorem build_compileTag (root : Namespace) (tag : ElementTag) (path : List Nat)
    (ns : Option Namespace) (b : Builder) :
    (tag.compile path ns).build.foldl (Builder.instruction root) b =
      b.enter (.element tag.name (ns.getD root) tag.staticAttributes) := by
  rw [ElementTag.compile, Program.build_append, (Program.sitesAt_parts ..).1, List.append_nil,
    List.foldl_cons]
  exact foldl_instruction_attributes root tag.attributes tag.name (ns.getD root) {} b.nodes
    { nodes := [], opened := b.opened }

/-- Closing an element leaves it in front of what was there before it was opened. -/
theorem leave_enter (b : Builder) (data : NodeData) (trees : List Markup) :
    ({ b.enter data with nodes := trees.reverse } : Builder).leave =
      { b with nodes := .node () data trees :: b.nodes } := by
  rw [Builder.enter, Builder.leave, List.reverse_reverse]

theorem build_insertion (i : Insertion) (path : List Nat) :
    (i.compile path).build = [.placeholder] := by
  rw [Insertion.compile]
  split <;> rfl

mutual

/-- Running the instructions of a node adds its static tree. -/
theorem build_compile (root : Namespace) : (node : Node) → (path : List Nat) →
    (around : Option Namespace) → (base : Nat) → (b : Builder) →
      (node.compile path around base).build.foldl (Builder.instruction root) b =
        { b with nodes := node.skeleton root around :: b.nodes }
  | .text s span, path, around, base, b => by
    rw [Node.compile, Node.skeleton]
    rfl
  | .comment s span, path, around, base, b => by
    rw [Node.compile, Node.skeleton]
    rfl
  | .insertion i, path, around, base, b => by
    rw [Node.compile, build_insertion, Node.skeleton]
    rfl
  | .element tag children span, path, around, base, b => by
    rw [Node.compile, Program.build_append, Program.build_append, List.foldl_append,
      List.foldl_append, build_compileTag, build_compileNodes root children]
    simp only [Program.instruction, List.foldl_cons, List.foldl_nil, Builder.instruction]
    rw [Builder.enter, List.append_nil, ← Builder.enter, leave_enter, Node.skeleton]
    rfl
  | .block call body inverse span, path, around, base, b => by
    rw [Node.compile, Node.skeleton]
    rfl
  | .component tag body span, path, around, base, b => by
    rw [Node.compile, Node.skeleton]
    rfl

/-- Running the instructions of siblings adds their static trees. -/
theorem build_compileNodes (root : Namespace) : (nodes : List Node) → (parent : List Nat) →
    (around : Option Namespace) → (index base : Nat) → (b : Builder) →
      (compileNodes parent around index base nodes).build.foldl (Builder.instruction root) b =
        { b with nodes := (skeletons root around nodes).reverse ++ b.nodes }
  | [], parent, around, index, base, b => by
    rw [compileNodes, skeletons]
    rfl
  | node :: nodes, parent, around, index, base, b => by
    rw [compileNodes, Program.build_append, List.foldl_append, build_compile root node,
      build_compileNodes root nodes, skeletons, List.reverse_cons, List.append_assoc]
    rfl

end

theorem blockParams_compileBody (body : Body Node) :
    (compileBody body).blockParams = body.blockParams := by
  obtain ⟨children, blockParams, span⟩ := body
  rfl

/-- The static trees of a compiled body are those of its nodes. -/
theorem forest_compileBody (root : Namespace) (body : Body Node) :
    (compileBody body).forest root = skeletons root none body.children := by
  obtain ⟨children, blockParams, span⟩ := body
  rw [compileBody, Program.forest, build_compileNodes root children, List.append_nil,
    Builder.finish]
  exact List.reverse_reverse _

end LiveTemplate
