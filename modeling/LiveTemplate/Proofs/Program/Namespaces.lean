import LiveTemplate.Proofs.Dom.Inheriting
import LiveTemplate.Proofs.Program.Skeleton

/-!
# LiveTemplate.Proofs.Program.Namespaces

The namespaces of the elements a compiled body is built as.

Where an element around has determined the namespace, the compiler follows the rule
from the top down (`inheritsAll_skeletons_some`).  Where none has, it leaves the
namespace to the place the program is rendered in, but takes every integration point
for one, whichever foreign namespace it turns out to be in.  So the rule holds exactly
where the integration points that are met first go with the namespace handed down to
the root (`SettledAll`).
-/

namespace LiveTemplate

/-! ## conditions -/

/-- A node that takes no namespace from its parent: no element, or one whose tag fixes its own. -/
def Node.IsFixed : Node → Prop
  | .element tag _ _ => (Namespace.fixedBy? tag.name).isSome
  | .text .. | .comment .. | .insertion _ | .block .. | .component .. => True

mutual

/-- The integration points of a node that no element around gives a namespace hand down XHTML in
the namespace `root`, or else no element below them inherits what they hand down. -/
def Node.Settled (root : Namespace) : Node → Prop
  | .element tag children _ =>
    (Namespace.fixedBy? tag.name).isSome ∨
      if isIntegrationPoint tag.name then
        root.below tag.name = .xhtml ∨ ∀ child ∈ children, child.IsFixed
      else SettledAll root children
  | .text .. | .comment .. | .insertion _ | .block .. | .component .. => True

/-- The integration points of nodes that no element around gives a namespace go with `root`. -/
def SettledAll (root : Namespace) : List Node → Prop
  | [] => True
  | node :: nodes => node.Settled root ∧ SettledAll root nodes

end

/-- Below XHTML every node is settled. -/
theorem settledAll_xhtml (nodes : List Node) : SettledAll .xhtml nodes := by
  induction nodes using nodes_induction with
  | nil => trivial
  | cons node nodes ihchildren ihnodes =>
    refine ⟨?_, ihnodes⟩
    cases node with
    | element tag children span =>
      rw [Node.Settled]
      split
      · exact .inr (.inl (Namespace.below_xhtml tag.name))
      · exact .inr ihchildren
    | _ => trivial

/-! ## built trees -/

/-- In a namespace that is determined, an element that is built follows the rule below `inherited`
if that is the namespace, or if its tag fixes its own. -/
theorem inherits_data_some_iff {root ns inherited : Namespace} (node : Node) :
    (node.data root (some ns)).Inherits inherited ↔ node.IsFixed ∨ ns = inherited := by
  cases node with
  | element tag children span =>
    rw [Node.data, NodeData.inherits_element, knownNamespace, Namespace.ofElement, Node.IsFixed]
    cases Namespace.fixedBy? tag.name <;> simp
  | _ => exact iff_of_true (NodeData.inherits_of_not_isElement rfl inherited) (.inl trivial)

/-- An element whose namespace nothing around it determines follows the rule at the root. -/
theorem inherits_data_none (root : Namespace) (node : Node) :
    (node.data root none).Inherits root := by
  cases node with
  | element tag children span =>
    rw [Node.data, NodeData.inherits_element, knownNamespace, Namespace.ofElement, Option.or_none]
  | _ => exact NodeData.inherits_of_not_isElement rfl root

/-- Where the namespace of an element is known, so is the one it hands down. -/
theorem nsBelow_eq_of_known {root ns : Namespace} {around : Option Namespace} {tag : ElementTag}
    {children : List Node} {span : Span} (h : knownNamespace tag.name around = some ns) :
    (Node.element tag children span).nsBelow around =
      some (((Node.element tag children span).data root around).nsBelow) := by
  rw [Node.nsBelow, Node.data, NodeData.nsBelow, h]
  rfl

/-- Below a namespace that is determined the rule is followed. -/
theorem inheritsAll_skeletons_some (root ns : Namespace) (nodes : List Node) :
    InheritsAll ns (skeletons root (some ns) nodes) := by
  induction nodes using nodes_induction generalizing ns with
  | nil => trivial
  | cons node nodes ihchildren ihnodes =>
    rw [skeletons, skeleton_eq]
    refine ⟨⟨(inherits_data_some_iff node).2 (.inr rfl), ?_⟩, ihnodes ns⟩
    cases node with
    | element tag children span =>
      have hknown : knownNamespace tag.name (some ns) =
          some ((Namespace.fixedBy? tag.name).getD ns) := by
        rw [knownNamespace]
        cases Namespace.fixedBy? tag.name <;> rfl
      rw [nsBelow_eq_of_known hknown]
      exact ihchildren _
    | _ => trivial

/-- Below a node that hands down `inherited`, where the compiler has determined `ns`, the rule is
followed if these are the same, or if no node inherits anything. -/
theorem inheritsAll_skeletons_some_iff {root ns inherited : Namespace} (nodes : List Node) :
    InheritsAll inherited (skeletons root (some ns) nodes) ↔
      inherited = ns ∨ ∀ node ∈ nodes, node.IsFixed := by
  by_cases hns : inherited = ns
  · subst hns
    exact iff_of_true (inheritsAll_skeletons_some root inherited nodes) (.inl rfl)
  · rw [or_iff_right hns]
    induction nodes with
    | nil => simp [skeletons, InheritsAll]
    | cons node nodes ih =>
      have hkids := (inheritsAll_skeletons_some root ns [node]).1
      rw [skeleton_eq] at hkids
      rw [skeletons, skeleton_eq, InheritsAll, ih, Tree.Inherits, inherits_data_some_iff,
        or_iff_left (Ne.symm hns), and_iff_left hkids.2, List.forall_mem_cons]

/-- Below a root that hands down `root`, where nothing is determined, the rule is followed exactly
by settled nodes. -/
theorem inheritsAll_skeletons_none_iff (root : Namespace) (nodes : List Node) :
    InheritsAll root (skeletons root none nodes) ↔ SettledAll root nodes := by
  induction nodes using nodes_induction with
  | nil => exact Iff.rfl
  | cons node nodes ihchildren ihnodes =>
    rw [skeletons, skeleton_eq, InheritsAll, ihnodes, Tree.Inherits, SettledAll,
      and_iff_right (inherits_data_none root node)]
    refine and_congr_left fun _ => ?_
    cases node with
    | element tag children span =>
      rw [Node.Settled]
      cases hfixed : Namespace.fixedBy? tag.name with
      | some ns =>
        rw [nsBelow_eq_of_known (by rw [knownNamespace, hfixed]; rfl)]
        exact iff_of_true (inheritsAll_skeletons_some ..) (.inl rfl)
      | none =>
        have hunknown : knownNamespace tag.name none = none := by
          rw [knownNamespace, hfixed]
          rfl
        have hdata : ((Node.element tag children span).data root none).nsBelow =
            root.below tag.name := by
          rw [Node.data, NodeData.nsBelow, hunknown]
          rfl
        rw [hdata, Node.nsBelow, hunknown, knownNamespaceBelow]
        simp only [Option.isSome_none, Bool.false_eq_true, false_or]
        split
        · exact inheritsAll_skeletons_some_iff children
        · next hpoint =>
          rw [Namespace.below_of_not_isIntegrationPoint root (Bool.eq_false_iff.2 hpoint)]
          exact ihchildren
    | _ => exact iff_of_true trivial trivial

/-! ## building -/

/-- Building a program in a document, as the content of an element or of none, gives every element
that it creates the namespace its tag fixes, or else the one its parent hands down.  The roots
inherit what the element hands down that they are built for. -/
def Program.InheritsBuilt (p : Program) (dom : Dom) (context : Option NodeId) : Prop :=
  let root := dom.nsBelow context
  let fragment := (dom.plantFragment (p.forest root)).1
  let built := (dom.plantFragment (p.forest root)).2
  ∀ x : NodeId, dom.size ≤ x.index → x.index < built.size →
    (built.data x).Inherits (built.inherited fragment root x)

/-- The rule holds for the elements of a compiled body exactly if the body is settled for the
namespace that its roots inherit. -/
theorem inheritsBuilt_compileBody_iff (body : Body Node) (dom : Dom) (context : Option NodeId) :
    (compileBody body).InheritsBuilt dom context ↔
      SettledAll (dom.nsBelow context) body.children := by
  rw [Program.InheritsBuilt]
  generalize dom.nsBelow context = root
  have hplanted := dom.planted_plantFragment ((compileBody body).plantableAll_forest root)
  generalize dom.plantFragment ((compileBody body).forest root) = planted at hplanted ⊢
  obtain ⟨fragment, built⟩ := planted
  obtain ⟨hid, hsize, hholds, -⟩ := hplanted
  simp only at hid hsize hholds ⊢
  have hnumber : ∀ x : NodeId,
      x ∈ forestLabels (numberForest (dom.size + 1) ((compileBody body).forest root)) ↔
        dom.size + 1 ≤ x.index ∧ x.index < built.size := by
    intro x
    rw [mem_forestLabels_numberForest, hsize, forestLabels_numberForest, List.length_map,
      List.length_range']
  have hroot : (built.data fragment).Inherits (built.inherited fragment root fragment) :=
    NodeData.inherits_of_not_isElement (by rw [Dom.data_of_record hholds.2.1]; rfl) _
  rw [← inheritsAll_skeletons_none_iff, ← forest_compileBody,
    ← inheritsAll_numberForest (dom.size + 1),
    hholds.2.2.inheritsAll_iff (if_pos rfl).symm
      (by rw [hid, hnumber]; exact fun h => Nat.lt_irrefl _ h.1)]
  constructor
  · intro hall x hx
    have hbounds := (hnumber x).1 hx
    exact hall x (by omega) hbounds.2
  · intro hall x hfirst hlast
    by_cases hx : x = fragment
    · rw [hx]
      exact hroot
    · have hne : x.index ≠ dom.size := fun h => hx (by rw [hid, ← h])
      exact hall x ((hnumber x).2 ⟨by omega, hlast⟩)

/-- In a document whose first node is a `math` element, built for that element, a `title` hands
XHTML down although it is no element of SVG. -/
theorem not_inheritsBuilt_title :
    ∃ t, Template.ofSource {} "<title><p></p></title>" = .ok t ∧
      ¬ t.compile.InheritsBuilt (({} : Dom).create (.element "math" .mathml {})).2 (some ⟨0⟩) := by
  have hbuilt : (Template.ofSource {} "<title><p></p></title>").toOption.map (fun t =>
      (({} : Dom).create (.element "math" .mathml {})).2.plantFragment (t.compile.forest .mathml)) =
      some (⟨1⟩, ⟨#[⟨.element "math" .mathml {}, none, []⟩, ⟨.fragment, none, [⟨2⟩]⟩,
        ⟨.element "title" .mathml {}, some ⟨1⟩, [⟨3⟩]⟩,
        ⟨.element "p" .xhtml {}, some ⟨2⟩, []⟩]⟩) := by
    decide +kernel
  cases ht : Template.ofSource {} "<title><p></p></title>" with
  | error e =>
    rw [ht] at hbuilt
    cases hbuilt
  | ok t =>
    rw [ht] at hbuilt
    have hplanted := Option.some.inj hbuilt
    simp only at hplanted
    refine ⟨t, rfl, fun hall => ?_⟩
    have hroot : (({} : Dom).create (.element "math" .mathml {})).2.nsBelow (some ⟨0⟩) = .mathml :=
      rfl
    rw [Program.InheritsBuilt, hroot, hplanted] at hall
    have hns : Namespace.xhtml = .ofElement "p" .mathml :=
      hall ⟨3⟩ (by decide) (by decide) _ _ _ rfl
    exact absurd hns (by decide)

end LiveTemplate
