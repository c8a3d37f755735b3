import LiveTemplate.Proofs.Markup.Plain
import LiveTemplate.Proofs.Program.Skeleton
import LiveTemplate.Proofs.Template.Nesting

/-!
# LiveTemplate.Proofs.Program.Static

Templates that are the same in every render.

Plain tokens make static nodes: texts, comments, and elements whose attributes all have
static values.  A compiled body of static nodes has no sites, so that its static trees are
all that is rendered.
-/

namespace LiveTemplate

/-! ## static nodes -/

mutual

/-- A node that is the same in every render: a text, a comment, or an element of such nodes with
nothing but static attributes. -/
def Node.IsStatic : Node → Prop
  | .text .. | .comment .. => True
  | .element tag children _ =>
    tag.modifiers = [] ∧ (∀ a ∈ tag.attributes, a.value.isStatic = true) ∧ StaticAll children
  | .insertion _ | .block .. | .component .. => False

/-- Nodes that are the same in every render. -/
def StaticAll : List Node → Prop
  | [] => True
  | node :: nodes => node.IsStatic ∧ StaticAll nodes

end

theorem staticAll_iff {nodes : List Node} : StaticAll nodes ↔ ∀ node ∈ nodes, node.IsStatic := by
  induction nodes with
  | nil => simp [StaticAll]
  | cons node nodes ih => simp [StaticAll, ih]

/-- Static nodes have no sites. -/
theorem sites_compileNodes_of_static {nodes : List Node} (h : StaticAll nodes) (parent : List Nat)
    (around : Option Namespace) (index base : Nat) :
    (compileNodes parent around index base nodes).sites = [] := by
  induction nodes using nodes_induction generalizing parent around index base with
  | nil => rfl
  | cons node nodes ihchildren ihnodes =>
    rw [compileNodes, Program.sites_append, ihnodes h.2, List.append_nil]
    cases node with
    | text s span => rfl
    | comment s span => rfl
    | element tag children span =>
      obtain ⟨hmodifiers, hattributes, hchildren⟩ := h.1
      have hactions : tag.attributes.filterMap Attribute.action? = [] := by
        refine List.filterMap_eq_nil_iff.2 fun a ha => ?_
        have hstatic := hattributes a ha
        rw [Attribute.action?]
        cases hvalue : a.value <;> rw [hvalue] at hstatic <;> first | rfl | cases hstatic
      have hbelow := fun parent around => ihchildren hchildren parent around 0 base
      rw [Node.children] at hbelow
      rw [Node.compile, Program.sites_append, Program.sites_append, hbelow, ElementTag.compile,
        Program.sites_append, (Program.sitesAt_parts ..).2.2, hmodifiers, hactions]
      rfl
    | insertion i => exact h.1.elim
    | block call body inverse span => exact h.1.elim
    | component tag body span => exact h.1.elim

/-- Static trees of siblings, one by one. -/
theorem skeletons_eq_map (root : Namespace) (around : Option Namespace) (nodes : List Node) :
    skeletons root around nodes = nodes.map (Node.skeleton root around) := by
  induction nodes with
  | nil => rfl
  | cons node nodes ih => rw [skeletons, ih, List.map_cons]

/-- At the root of XHTML it makes no difference that no namespace has been determined. -/
theorem skeletons_xhtml (nodes : List Node) :
    skeletons .xhtml none nodes = skeletons .xhtml (some .xhtml) nodes := by
  induction nodes using nodes_induction with
  | nil => rfl
  | cons node nodes ihchildren ihnodes =>
    rw [skeletons, skeletons, ihnodes]
    congr 1
    cases node with
    | element tag children span =>
      rw [Node.skeleton, Node.skeleton]
      cases hfixed : Namespace.fixedBy? tag.name with
      | some ns => simp [Node.data, Node.nsBelow, knownNamespace, hfixed]
      | none =>
        by_cases hpoint : isIntegrationPoint tag.name = true
        · simp [Node.data, Node.nsBelow, knownNamespace, hfixed, knownNamespaceBelow, hpoint,
            Namespace.below]
        · simpa [Node.data, Node.nsBelow, knownNamespace, hfixed, knownNamespaceBelow, hpoint,
            Namespace.below, Node.children] using ihchildren
    | _ => rfl

/-! ## plain attributes -/

/-- A plain attribute has a static value. -/
theorem Attribute.ofRaw_of_isPlain {raw : RawAttribute} (h : raw.value.IsPlain) :
    Attribute.ofRaw raw =
      .ok { name := raw.name, value := .static raw.value.staticText, span := raw.span } := by
  rw [Attribute.ofRaw, RawValue.staticText]
  rcases h with hchunks | ⟨s, hchunks⟩
  · rw [hchunks]
    rfl
  · rw [hchunks]
    simp [AttributePart.ofChunks, AttributePart.consText, AttributeValue.ofParts, bind, Except.bind,
      Chunk.staticText, String.join]

theorem mapM_ofRaw_of_isPlain {raws : List RawAttribute} (h : ∀ a ∈ raws, a.value.IsPlain) :
    raws.mapM Attribute.ofRaw = .ok (raws.map fun raw =>
      { name := raw.name, value := .static raw.value.staticText, span := raw.span }) := by
  induction raws with
  | nil => rfl
  | cons raw raws ih =>
    obtain ⟨hraw, hraws⟩ := List.forall_mem_cons.1 h
    rw [List.mapM_cons, Attribute.ofRaw_of_isPlain hraw, ih hraws]
    rfl

end LiveTemplate
