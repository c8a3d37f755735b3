import LiveTemplate.Proofs.Render.Making

/-!
# LiveTemplate.Proofs.Render.Agreement

Rendering a compiled template writes what evaluating the template prints.

A render makes the trees the template stands for (`exists_renderSites`), and for a plain
template these are written as evaluation prints it (`forestHtml_nodesTrees`): where there
are no integration points, the namespace that the elements around a node have determined
is the one handed down to it.
-/

namespace LiveTemplate

section Written

variable {root : Namespace} {scope : Scope} {heap : Heap}

/-- The namespace below a plain node, where it is known and where it is not. -/
theorem nsBelow_getD {tag : ElementTag} (htag : isIntegrationPoint tag.name = false)
    (around : Option Namespace) (root : Namespace) :
    (knownNamespaceBelow tag.name (knownNamespace tag.name around)).getD root =
      ((knownNamespace tag.name around).getD root).below tag.name := by
  cases knownNamespace tag.name around with
  | some ns => rfl
  | none =>
    rw [knownNamespaceBelow, htag, Option.getD_none,
      Namespace.below_of_not_isIntegrationPoint root htag]
    rfl

theorem knownNamespace_getD (tag : String) (around : Option Namespace) (root : Namespace) :
    (knownNamespace tag around).getD root = Namespace.ofElement tag (around.getD root) := by
  rw [knownNamespace, Namespace.ofElement]
  cases Namespace.fixedBy? tag <;> rfl

theorem arePlain_iff {nodes : List Node} : ArePlain nodes ↔ ∀ node ∈ nodes, node.IsPlain := by
  induction nodes with
  | nil => simp [ArePlain]
  | cons node nodes ih => simp [ArePlain, ih]

theorem arePlain_children {node : Node} (h : node.IsPlain) : ArePlain node.children := by
  cases node with
  | element tag children span => exact h.2.2
  | text s span => trivial
  | comment s span => trivial
  | insertion i => trivial
  | block call body inverse span => trivial
  | component tag body span => trivial

theorem isUnmodified_of_isPlain {node : Node} (h : node.IsPlain)
    (hchildren : UnmodifiedAll node.children) : node.IsUnmodified := by
  cases node with
  | element tag children span => exact ⟨h.1, hchildren⟩
  | text s span => trivial
  | comment s span => trivial
  | insertion i => trivial
  | block call body inverse span => exact h.elim
  | component tag body span => exact h.elim

theorem unmodifiedAll_of_arePlain {nodes : List Node} (h : ArePlain nodes) :
    UnmodifiedAll nodes := by
  induction nodes using nodes_induction with
  | nil => trivial
  | cons node nodes ihchildren ihnodes =>
    exact ⟨isUnmodified_of_isPlain h.1 (ihchildren (arePlain_children h.1)), ihnodes h.2⟩

/-- What shows a mustache is written as its evaluation. -/
theorem forestHtml_valueTrees (ns : Namespace) (i : Insertion) :
    forestHtml (valueTrees i.escaped ns (i.value scope heap)) = i.evaluate scope heap ns := by
  rw [valueTrees, Insertion.evaluate]
  split
  · rfl
  · split
    · exact List.append_nil _
    · rfl

/-- The trees of a plain node are written as its evaluation, if those of its children are. -/
theorem forestHtml_trees {node : Node} (hplain : node.IsPlain) (around : Option Namespace)
    (hchildren : forestHtml (nodesTrees scope heap root (node.nsBelow around)
        (node.data root around).nsBelow node.children) =
      evaluateNodes scope heap (node.data root around).nsBelow node.children) :
    forestHtml (node.trees scope heap root around (around.getD root)) =
      node.evaluate scope heap (around.getD root) := by
  cases node with
  | text s span => exact List.append_nil _
  | comment s span => exact List.append_nil _
  | insertion i =>
    rw [Node.trees, forestHtml_append, forestHtml_valueTrees]
    exact List.append_nil _
  | element tag children span =>
    rw [trees_eq, forestHtml_append, forestHtml, forestHtml, Tree.html, hchildren]
    simp only [Node.shownTrees, forestHtml, List.nil_append, List.append_nil, Node.finalData,
      Node.data, NodeData.html, NodeData.hasContent, NodeData.nsBelow, knownNamespace_getD,
      Node.children, Node.evaluate]
    by_cases hvoid : Namespace.ofElement tag.name (around.getD root) = .xhtml ∧ isVoidTag tag.name
    · rw [if_pos hvoid, if_neg (by simp [hvoid.1, hvoid.2])]
    · have hcontent : (!(Namespace.ofElement tag.name (around.getD root) == .xhtml &&
          isVoidTag tag.name)) = true := by
        rw [Bool.not_eq_true', Bool.eq_false_iff]
        exact fun h => hvoid (by simpa using h)
      rw [if_neg hvoid, if_pos hcontent]
      rfl
  | block call body inverse span => exact hplain.elim
  | component tag body span => exact hplain.elim

/-- The trees of plain nodes are written as evaluation prints them. -/
theorem forestHtml_nodesTrees {nodes : List Node} (hplain : ArePlain nodes)
    (around : Option Namespace) :
    forestHtml (nodesTrees scope heap root around (around.getD root) nodes) =
      evaluateNodes scope heap (around.getD root) nodes := by
  induction nodes using nodes_induction generalizing around with
  | nil => rfl
  | cons node nodes ihchildren ihnodes =>
    rw [nodesTrees, forestHtml_append, ihnodes hplain.2, evaluateNodes]
    congr 1
    refine forestHtml_trees hplain.1 around ?_
    have hchildren := ihchildren (arePlain_children hplain.1) (node.nsBelow around)
    cases node with
    | element tag children span =>
      have hbelow := nsBelow_getD hplain.1.2.1 around root
      rw [Node.nsBelow, hbelow] at hchildren
      exact hchildren
    | _ => rfl

end Written

/-! ## renders -/

/-- The sites of a plain body, rendered in the fragment that has been built, fill it as evaluation
says. -/
theorem renderSites_compileBody {σ : Type} {self : Hooks σ} (hself : self.Plain)
    (hjoining : self.Joining) (body : Body Node) (hplain : ArePlain body.children) (scope : Scope)
    (context : Option NodeId) (w : World σ) (hscope : scope.NodeFree w.heap)
    (hcontext : ∀ id, context = some id → id.index < w.dom.size) :
    ∃ morphs w' ts F, (compileBody body).renderSites (.defaults {} self) scope
        ((compileBody body).plant w.dom context).1 context
        { w with dom := ((compileBody body).plant w.dom context).2 } = some (morphs, w') ∧
      Stage w.dom ((compileBody body).plant w.dom context).1 ts F w'.dom ∧
      forestHtml (F.forest ts) =
        evaluateNodes scope w.heap (w.dom.nsBelow context) body.children := by
  have hnone : ∀ o ∈ body.occurrences, ∀ tag inside span, o.node = .component tag inside span →
      self.Invokes tag inside := by
    intro o ho tag inside span hnode
    have hplain' := forall_mem_occurrencesOf (P := Node.IsPlain)
      (fun node h => arePlain_iff.1 (arePlain_children h)) (arePlain_iff.1 hplain) [] none 0 0 0 o
      ho
    rw [hnode] at hplain'
    exact hplain'.elim
  obtain ⟨morphs, w', ts, F, hsites, hrendering, hshapes⟩ :=
    exists_renderSites (.plain scope w.heap (w.dom.nsBelow context))
      (settles_occurrences hself hjoining (unmodifiedAll_of_arePlain hplain) hnone hscope _)
      hcontext
  refine ⟨morphs, w', ts, F, hsites, hrendering.stage, ?_⟩
  rw [← forestHtml_shapes, hshapes]
  exact forestHtml_nodesTrees hplain none

/-- Rendering a compiled template without blocks, components, modifiers and integration points, in
an environment without helpers and partials and with values none of which is a node, has a result,
which is written as evaluating the template prints it. -/
theorem render_compile {σ : Type} (t : Template) (hplain : ArePlain t.children) (scope : Scope)
    (context : Option NodeId) (w : World σ) (hscope : scope.NodeFree w.heap)
    (hcontext : ∀ id, context = some id → id.index < w.dom.size) (depth : Nat) :
    ∃ rendered w', t.compile.render (({} : Environment σ).hooks (depth + 3)) scope context w =
        some (rendered, w') ∧
      w'.dom.html rendered.root.node =
        String.ofList (evaluateNodes scope w.heap (w.dom.nsBelow context) t.children) := by
  have hself : ((({} : Environment σ).hooks (depth + 2))).Plain :=
    Hooks.plain_defaults (({} : Environment σ).hooks (depth + 1))
  have hjoining : ((({} : Environment σ).hooks (depth + 2))).Joining :=
    fun scope w parts _ htypes => Hooks.concat_defaults
      (Hooks.plain_defaults (({} : Environment σ).hooks depth)) scope w parts htypes
  obtain ⟨morphs, w', ts, F, hsites, hstage, hhtml⟩ :=
    renderSites_compileBody hself hjoining t hplain scope context w hscope hcontext
  obtain ⟨root, hroot, hloose, hwritten⟩ := hstage.loose_unwrap
  refine ⟨_, _, Program.render_of_eq hsites, ?_⟩
  show (w'.dom.unwrap ((compileBody t).plant w.dom context).1).2.html
    (w'.dom.unwrap ((compileBody t).plant w.dom context).1).1.node = _
  rw [hroot, Dom.html_of_holds hloose.holds hloose.nodup, hwritten, hhtml]

/-- A paragraph with a class that is joined, and a mustache in its text. -/
def greeting : Template where
  children := [.element
    { name := "p", ns := .xhtml, modifiers := [], selfClosing := false
      attributes :=
        [⟨"class", .joined [.text "to-", .insertion ⟨⟨"this", none, [], []⟩, true, {}⟩], {}⟩] }
    [.text "Hello, " {}, .insertion ⟨⟨"this", none, [], []⟩, true, {}⟩, .comment "!" {}] {}]

theorem render_compile_greeting :
    ArePlain greeting.children ∧ Scope.NodeFree { context := .string "R & D" } {} ∧
      ∃ rendered w', greeting.compile.render (({} : Environment Unit).hooks 3)
          { context := .string "R & D" } none { notes := () } = some (rendered, w') ∧
        w'.dom.html rendered.root.node =
          "<p class=\"to-R &amp; D\">Hello, R &amp; D<!--!--></p>" := by
  have hplain : ArePlain greeting.children :=
    ⟨⟨rfl, rfl, trivial, trivial, trivial, trivial⟩, trivial⟩
  have hscope := Scope.nodeFree_string "R & D" {}
  obtain ⟨rendered, w', hrender, hhtml⟩ := render_compile greeting hplain
    { context := .string "R & D" } none ({ notes := () } : World Unit) hscope (by simp) 0
  refine ⟨hplain, hscope, rendered, w', hrender, ?_⟩
  rw [hhtml]
  decide +kernel

end LiveTemplate
