import LiveTemplate.Proofs.Morph.Showing
import LiveTemplate.Proofs.Render.Evaluation

/-!
# LiveTemplate.Proofs.Render.Trees

The trees a template stands for, where no helpers and no partials are registered.

1. A mustache stands for an empty text, and in front of it for what shows its value: no
   tree, a text, or the trees of HTML.  The body of a block is not rendered, and the block
   stands for what the mustache of its call would.
2. A component stands for an element with its body in it, in front of an empty text.  It
   takes the namespace handed down where it is shown, which is not always the one that the
   elements around it have determined.
3. All else stands for itself, with its attributes evaluated.
-/

namespace LiveTemplate

/-! ## values -/

/-- The trees that show a value which is no node; `ns` is the namespace HTML is read in. -/
def valueTrees (escaped : Bool) (ns : Namespace) (value : Value) : List Markup :=
  if value.isNullish then []
  else if escaped then [.node () (.text value.text) []]
  else forestOfHtml ns value.text

/-- A morph shows a value as its trees, in new nodes. -/
theorem Morph.shapes_newTrees (m : Morph) (value : Value) (dom : Dom) :
    shapes (m.newTrees value dom) = valueTrees m.escaped (dom.nsBelow m.context) value := by
  rw [newTrees, valueTrees]
  split
  · rfl
  · split
    · rfl
    · exact shapes_numberForest ..

/-! ## nodes -/

section Trees

/-- Sets attributes to the texts of values, one after the other; nullish values set none. -/
def setParams (scope : Scope) (heap : Heap) : List (String × Param) → Dict String → Dict String
  | [], attributes => attributes
  | (name, p) :: pairs, attributes =>
    let value := p.value scope heap
    setParams scope heap pairs
      (if value.isNullish then attributes else attributes.set name value.text)

/-- The attributes of the element of a component. -/
def ComponentTag.evaluate (scope : Scope) (heap : Heap) (tag : ComponentTag) : Dict String :=
  setParams scope heap (tag.attributes.map fun a => (a.name, a.value.param)) {}

/-- The mustache of a call. -/
def Call.mustache (call : Call) : Insertion := { call, escaped := true, span := {} }

mutual

/-- The trees a node stands for.  `around` is the namespace that the elements around it have
determined, `root` the one handed down where none has, and `inherited` the one that the node above
it hands down. -/
def Node.trees (scope : Scope) (heap : Heap) (root : Namespace) (around : Option Namespace)
    (inherited : Namespace) : Node → List Markup
  | .text s _ => [.node () (.text s) []]
  | .comment s _ => [.node () (.comment s) []]
  | .insertion i =>
    valueTrees i.escaped inherited (i.value scope heap) ++ [.node () (.text "") []]
  | .element tag children _ =>
    let own := knownNamespace tag.name around
    let ns := own.getD root
    [.node () (.element tag.name ns (tag.evaluate scope heap))
      (nodesTrees scope heap root (knownNamespaceBelow tag.name own) (ns.below tag.name) children)]
  | .block call _ _ _ =>
    valueTrees true inherited (call.mustache.value scope heap) ++ [.node () (.text "") []]
  | .component tag body _ =>
    let ns := Namespace.ofElement tag.name inherited
    [.node () (.element tag.name ns (tag.evaluate scope heap))
      (bodyTrees scope heap (ns.below tag.name) body),
      .node () (.text "") []]

/-- The trees a body stands for, below a place that hands down `ns`.  Its block params are
undefined. -/
def bodyTrees (scope : Scope) (heap : Heap) (ns : Namespace) : Body Node → List Markup
  | ⟨children, blockParams, _⟩ => nodesTrees (scope.bind blockParams []) heap ns none ns children

/-- The trees nodes stand for, one after the other. -/
def nodesTrees (scope : Scope) (heap : Heap) (root : Namespace) (around : Option Namespace)
    (inherited : Namespace) : List Node → List Markup
  | [] => []
  | node :: nodes =>
    node.trees scope heap root around inherited ++
      nodesTrees scope heap root around inherited nodes

end

end Trees

variable (scope : Scope) (heap : Heap)

/-- The tree that shows a component, below a place that hands down `inherited`. -/
def ComponentTag.tree (inherited : Namespace) (tag : ComponentTag) (body : Body Node) : Markup :=
  .node () (.element tag.name (.ofElement tag.name inherited) (tag.evaluate scope heap))
    (bodyTrees scope heap ((Namespace.ofElement tag.name inherited).below tag.name) body)

/-- The trees that are shown in front of a node. -/
def Node.shownTrees (inherited : Namespace) : Node → List Markup
  | .insertion i => valueTrees i.escaped inherited (i.value scope heap)
  | .block call _ _ _ => valueTrees true inherited (call.mustache.value scope heap)
  | .component tag body _ => [tag.tree scope heap inherited body]
  | .text .. | .comment .. | .element .. => []

/-- What a node has become when its attributes are evaluated, apart from its children. -/
def Node.finalData (root : Namespace) (around : Option Namespace) : Node → NodeData
  | .element tag _ _ =>
    .element tag.name ((knownNamespace tag.name around).getD root) (tag.evaluate scope heap)
  | .text s _ => .text s
  | .comment s _ => .comment s
  | .insertion _ | .block .. | .component .. => .text ""

/-- A node stands for what is shown in front of it, and for itself with its children. -/
theorem trees_eq (root : Namespace) (around : Option Namespace) (inherited : Namespace)
    (node : Node) :
    node.trees scope heap root around inherited =
      node.shownTrees scope heap inherited ++
        [.node () (node.finalData scope heap root around)
          (nodesTrees scope heap root (node.nsBelow around) (node.data root around).nsBelow
            node.children)] := by
  cases node <;> rfl

/-- Evaluating attributes does not change what is handed down. -/
theorem nsBelow_finalData (root : Namespace) (around : Option Namespace) (node : Node) :
    (node.finalData scope heap root around).nsBelow = (node.data root around).nsBelow := by
  cases node <;> rfl

end LiveTemplate
