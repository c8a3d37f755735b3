import LiveTemplate.Proofs.Dom.Nested
import LiveTemplate.Proofs.Program.Static
import LiveTemplate.Proofs.Render.Sites
import LiveTemplate.Proofs.Render.Stage

/-!
# LiveTemplate.Proofs.Render.Readers

Templates without mustaches, rendered and read as HTML.

The template of a source and the trees that are built of the same tokens grow alike
(`Mirrors`): what is open in one is open in the other, and the nodes of the template have
these trees for their static trees.  So a template without mustaches is rendered as the
trees that nested reading makes of its tokens, and whether reading the source as HTML gives
the same is a question of depths.
-/

namespace LiveTemplate

/-! ## elements -/

/-- The element of a start tag whose attributes are all static. -/
def StartTag.plainElement (tag : StartTag) (ns : Namespace) : ElementTag :=
  tag.element ns (tag.attributes.map fun a =>
    { name := a.name, value := .static a.value.staticText, span := a.span }) []

theorem filterMap_static?_plain (raws : List RawAttribute) :
    (raws.map fun a => ({ name := a.name, value := .static a.value.staticText, span := a.span } :
        Attribute)).filterMap Attribute.static? =
      raws.map fun a => (a.name, a.value.staticText) := by
  induction raws with
  | nil => rfl
  | cons raw raws ih => exact congrArg (_ :: ·) ih

namespace StartTag

variable (tag : StartTag) (ns : Namespace)

/-- The element of a start tag is built with the data that reading the tag gives. -/
theorem data_plainElement (children : List Node) (span : Span) :
    Node.data .xhtml (some ns) (.element (tag.plainElement ns) children span) =
      NodeData.ofStartTag tag ns := by
  rw [Node.data, NodeData.ofStartTag, ElementTag.staticAttributes, plainElement, element,
    filterMap_static?_plain, knownNamespace, Namespace.ofElement]
  cases Namespace.fixedBy? tag.name <;> rfl

theorem nsBelow_plainElement (children : List Node) (span : Span) :
    Node.nsBelow (some ns) (.element (tag.plainElement ns) children span) =
      some (NodeData.ofStartTag tag ns).nsBelow := by
  rw [Node.nsBelow, plainElement, element, NodeData.ofStartTag, NodeData.nsBelow, knownNamespace,
    Namespace.ofElement]
  cases Namespace.fixedBy? tag.name <;> rfl

theorem skeleton_plainElement (children : List Node) (span : Span) :
    Node.skeleton .xhtml (some ns) (.element (tag.plainElement ns) children span) =
      .node () (NodeData.ofStartTag tag ns)
        (children.map (Node.skeleton .xhtml (some (NodeData.ofStartTag tag ns).nsBelow))) := by
  rw [Node.skeleton, data_plainElement, nsBelow_plainElement, skeletons_eq_map]

theorem isStatic_plainElement {children : List Node} (span : Span)
    (h : ∀ node ∈ children, node.IsStatic) :
    (Node.element (tag.plainElement ns) children span).IsStatic := by
  refine ⟨rfl, fun a ha => ?_, staticAll_iff.2 h⟩
  obtain ⟨raw, -, rfl⟩ := List.mem_map.1 ha
  rfl

/-- A plain start tag has no other element. -/
theorem element_of_isPlain (hplain : (Token.startTag tag).IsPlain)
    {attributes : List Attribute} {modifiers : List Call}
    (hattributes : tag.attributes.mapM Attribute.ofRaw = .ok attributes)
    (hmodifiers : (withoutComments tag.modifiers).mapM Mustache.modifier = .ok modifiers) :
    tag.element ns attributes modifiers = tag.plainElement ns := by
  rw [mapM_ofRaw_of_isPlain hplain.2] at hattributes
  rw [hplain.1] at hmodifiers
  cases hattributes
  cases hmodifiers
  rfl

end StartTag

/-! ## templates under construction -/

/-- Openings of a template, below which `ns` is handed down, and the open nodes of the trees that
are built of the same tokens. -/
inductive FramesMirror : Namespace → List Frame → List OpenNode → Prop where
  | nil : FramesMirror .xhtml [] []
  | cons {ns : Namespace} {frames : List Frame} {opened : List OpenNode} {before : List Node}
    (tag : StartTag) (span : Span) (hstatic : ∀ node ∈ before, node.IsStatic)
    (hframes : FramesMirror ns frames opened) :
    FramesMirror (NodeData.ofStartTag tag ns).nsBelow
      (⟨.element (tag.plainElement ns) span, before, ns⟩ :: frames)
      (⟨NodeData.ofStartTag tag ns, before.map (Node.skeleton .xhtml (some ns))⟩ :: opened)

namespace FramesMirror

variable {ns : Namespace} {frames : List Frame} {opened : List OpenNode}

theorem inherited (h : FramesMirror ns frames opened) (nodes : List Markup) :
    (⟨nodes, opened⟩ : Builder).inherited .xhtml = ns := by
  cases h <;> rfl

theorem exists_of_cons {opening : Opening} {before : List Node} {around : Namespace}
    (h : FramesMirror ns (⟨opening, before, around⟩ :: frames) opened) :
    ∃ tag span opened', opening = .element (StartTag.plainElement tag around) span ∧
      ns = (NodeData.ofStartTag tag around).nsBelow ∧
      opened = ⟨NodeData.ofStartTag tag around,
        before.map (Node.skeleton .xhtml (some around))⟩ :: opened' ∧
      (∀ node ∈ before, node.IsStatic) ∧ FramesMirror around frames opened' := by
  cases h with
  | cons tag span hstatic hframes => exact ⟨tag, span, _, rfl, rfl, rfl, hstatic, hframes⟩

theorem eq_of_nil (h : FramesMirror ns [] opened) : ns = .xhtml ∧ opened = [] := by
  cases h
  exact ⟨rfl, rfl⟩

end FramesMirror

/-- A template under construction, and the trees that are built of the same tokens. -/
structure Mirrors (s : Construction) (b : Builder) : Prop where
  frames : FramesMirror s.ns s.frames b.opened
  nodes : b.nodes = s.nodes.map (Node.skeleton .xhtml (some s.ns))
  static : ∀ node ∈ s.nodes, node.IsStatic

/-- Whether the last node is a text. -/
def Construction.EndsInText (s : Construction) : Prop :=
  ∃ text span nodes, s.nodes = .text text span :: nodes

theorem Construction.pushText_of_not_endsInText {s : Construction} (h : ¬s.EndsInText)
    (text : String) (span : Span) : s.pushText text span = s.push (.text text span) := by
  rw [pushText]
  split
  · next before lo hi nodes hnodes => exact absurd ⟨_, _, _, hnodes⟩ h
  · rfl

namespace Mirrors

variable {s s' : Construction} {b : Builder} {options : TemplateOptions}

theorem inherited (h : Mirrors s b) : b.inherited .xhtml = s.ns := h.frames.inherited b.nodes

theorem push (h : Mirrors s b) {node : Node} {data : NodeData}
    (hskeleton : node.skeleton .xhtml (some s.ns) = .node () data []) (hstatic : node.IsStatic) :
    Mirrors (s.push node) (b.leaf data) where
  frames := h.frames
  nodes := by
    rw [Construction.push, Builder.leaf, List.map_cons, hskeleton, ← h.nodes]
  static := List.forall_mem_cons.2 ⟨hstatic, h.static⟩

theorem enter (h : Mirrors s b) (tag : StartTag) (span : Span) :
    Mirrors (s.enter (.element (tag.plainElement s.ns) span)
        ((Namespace.ofElement tag.name s.ns).below tag.name))
      (b.enter (.ofStartTag tag s.ns)) where
  frames := by
    have hcons := FramesMirror.cons tag span h.static h.frames
    rw [← h.nodes] at hcons
    exact hcons
  nodes := rfl
  static := by simp [Construction.enter]

/-- Closing an element leaves it behind in both. -/
theorem leave (h : Mirrors s b) {tag : StartTag} {opening : Opening} {before : List Node}
    {around : Namespace} {frames : List Frame} {opened : List OpenNode} (span : Span)
    (hns : s.ns = (NodeData.ofStartTag tag around).nsBelow)
    (hopened : b.opened = ⟨NodeData.ofStartTag tag around,
      before.map (Node.skeleton .xhtml (some around))⟩ :: opened)
    (hstatic : ∀ node ∈ before, node.IsStatic) (hframes : FramesMirror around frames opened) :
    Mirrors (.leave ⟨opening, before, around⟩ frames
      (.element (tag.plainElement around) s.children span)) b.leave := by
  have hleave : b.leave = ⟨.node () (NodeData.ofStartTag tag around) b.nodes.reverse ::
      before.map (Node.skeleton .xhtml (some around)), opened⟩ := by
    rw [Builder.leave, hopened]
  rw [hleave]
  refine ⟨hframes, ?_, List.forall_mem_cons.2 ⟨tag.isStatic_plainElement _ span ?_, hstatic⟩⟩
  · rw [Construction.leave, List.map_cons, StartTag.skeleton_plainElement, Construction.children,
      List.map_reverse, ← hns, ← h.nodes]
  · exact fun node hnode => h.static node (List.mem_reverse.1 hnode)

/-- A token does the same to both. -/
theorem step (h : Mirrors s b) (hcomponents : options.components = false)
    (hcomments : options.keepComments = true) {token : Token} (hplain : token.IsPlain)
    (htext : token.isText = true → ¬s.EndsInText) (hstep : Construction.Steps options s token s') :
    Mirrors s' (b.nested .xhtml token) ∧ (s'.EndsInText → token.isText = true) := by
  have hcomponent : ∀ tag : StartTag, ¬tag.IsComponent options :=
    fun tag h => absurd h.components (by simp [hcomponents])
  have hbare : ∀ {nodes : List Node} {ns : Namespace} {frames : List Frame} {node : Node},
      (∀ text span, node ≠ .text text span) →
        ¬(⟨node :: nodes, ns, frames⟩ : Construction).EndsInText := by
    rintro nodes ns frames node hnode ⟨text, span, rest, heq⟩
    exact hnode text span (List.cons.inj heq).1
  cases hstep with
  -- No text is behind another one, so it is not merged and becomes a node of its own in both.
  | text text span =>
    rw [Construction.pushText_of_not_endsInText (htext rfl)]
    exact ⟨h.push rfl trivial, fun _ => rfl⟩
  | comment text span =>
    rw [if_pos hcomments]
    exact ⟨h.push rfl trivial, fun hends => absurd hends (hbare (by simp))⟩
  | component hc => exact absurd hc (hcomponent _)
  | openComponent hc => exact absurd hc (hcomponent _)
  | @element tag attributes modifiers hc hattributes hmodifiers hsingle =>
    rw [tag.element_of_isPlain s.ns hplain hattributes hmodifiers]
    have hnested : b.nested .xhtml (.startTag tag) = b.leaf (.ofStartTag tag s.ns) := by
      rw [Builder.nested, h.inherited]
      exact if_pos (StartTag.isSingle_iff.2 hsingle)
    rw [hnested]
    exact ⟨h.push (tag.skeleton_plainElement s.ns [] tag.span)
      (tag.isStatic_plainElement s.ns tag.span (by simp)),
      fun hends => absurd hends (hbare (by simp))⟩
  | @openElement tag attributes modifiers hc hattributes hmodifiers hopen =>
    rw [tag.element_of_isPlain s.ns hplain hattributes hmodifiers]
    have hnested : b.nested .xhtml (.startTag tag) = b.enter (.ofStartTag tag s.ns) := by
      rw [Builder.nested, h.inherited]
      exact if_neg (mt StartTag.isSingle_iff.1 hopen)
    rw [hnested]
    refine ⟨h.enter tag tag.span, ?_⟩
    rintro ⟨_, _, _, heq⟩
    cases heq
  | @closeElement tag start before ns frames name span hvoid hframes hsame =>
    have hmirror := h.frames
    rw [hframes] at hmirror
    obtain ⟨tag, span', opened, hopening, hns, hopened, hstatic, houter⟩ := hmirror.exists_of_cons
    cases hopening
    exact ⟨h.leave _ hns hopened hstatic houter, fun hends => absurd hends (hbare (by simp))⟩
  | closeComponent span hvoid hframes hsame =>
    have hmirror := h.frames
    rw [hframes] at hmirror
    obtain ⟨tag, span', opened, hopening, -⟩ := hmirror.exists_of_cons
    cases hopening
  | ignore | insertion | openBlock | otherwise | closeBlock => exact hplain.elim

/-- Tokens do the same to both. -/
theorem run (h : Mirrors s b) (hcomponents : options.components = false)
    (hcomments : options.keepComments = true) {tokens : List Token}
    (hplain : ∀ token ∈ tokens, token.IsPlain)
    (hchain : tokens.IsChain fun a b => a.isText = true → b.isText = false)
    (htext : ∀ token ∈ tokens.head?, token.isText = true → ¬s.EndsInText)
    (hrun : Construction.run options tokens s = .ok s') :
    Mirrors s' (tokens.foldl (Builder.nested .xhtml) b) := by
  induction tokens generalizing s b with
  | nil =>
    cases hrun
    exact h
  | cons token tokens ih =>
    obtain ⟨t, hstep, hrun⟩ := Construction.exists_of_run_cons hrun
    obtain ⟨htoken, htokens⟩ := List.forall_mem_cons.1 hplain
    obtain ⟨hhead, hchain⟩ := List.isChain_cons.1 hchain
    obtain ⟨hmirrors, hends⟩ := h.step hcomponents hcomments htoken (htext token rfl) hstep
    refine ih hmirrors htokens hchain (fun next hnext hnexttext htends => ?_) hrun
    rw [hhead next hnext (hends htends)] at hnexttext
    cases hnexttext

/-- Once nothing is open, the trees are the static trees of the nodes. -/
theorem finish_eq (h : Mirrors s b) (hframes : s.frames = []) :
    b.finish = skeletons .xhtml none s.children := by
  have hmirror := h.frames
  rw [hframes] at hmirror
  obtain ⟨hns, hopened⟩ := hmirror.eq_of_nil
  rw [Builder.finish, hopened, List.length_nil, Builder.leaveMany, h.nodes, hns, skeletons_xhtml,
    skeletons_eq_map, Construction.children, List.map_reverse]

end Mirrors

/-! ## templates -/

namespace Template

variable {options : TemplateOptions} {source : String} {t : Template}

/-- A template without mustaches has no sites, and its static trees are those that nested reading
makes of its tokens. -/
theorem forest_compile (hcomponents : options.components = false)
    (hcomments : options.keepComments = true) (hplain : IsMustacheless source.toList)
    (h : Template.ofSource options source = .ok t) :
    t.compile.sites = [] ∧ t.compile.forest .xhtml =
      ((Reading.ofSource .html source).tokens.foldl (Builder.nested .xhtml) {}).finish := by
  obtain ⟨s, hrun, hframes, rfl⟩ := (Template.ofSource_eq_ok_iff (tokens?_of_ofSource h)).1 h
  rw [Reading.ofSource_template hplain] at hrun
  have hstart : Mirrors {} {} := ⟨.nil, rfl, by simp⟩
  have hmirrors : Mirrors s
      ((Reading.ofSource .html source).tokens.foldl (Builder.nested .xhtml) {}) :=
    hstart.run hcomponents hcomments
      (forall_mem_of_readTokens (fun _ _ _ => isPlain_of_readToken) _) (isChain_readTokens _ _)
      (by rintro token - - ⟨_, _, _, heq⟩; cases heq) hrun
  refine ⟨?_, ?_⟩
  · rw [Template.compile, compileBody]
    exact sites_compileNodes_of_static (staticAll_iff.2 fun node hnode =>
      hmirrors.static node (List.mem_reverse.1 hnode)) [] none 0 0
  · rw [Template.compile, forest_compileBody, hmirrors.finish_eq hframes]

end Template

/-! ## renders -/

variable {σ : Type}

/-- A program without sites is rendered as its static trees. -/
theorem Program.exists_render_of_sites_nil {p : Program} (h : p.sites = []) (hooks : Hooks σ)
    (scope : Scope) (context : Option NodeId) (w : World σ) :
    ∃ rendered w' root, p.render hooks scope context w = some (rendered, w') ∧
      rendered.root.node = root.label ∧ w.dom.Loose w'.dom root ∧
      shapes root.shown = p.forest (w.dom.nsBelow context) := by
  have hrun : p.renderSites hooks scope (p.plant w.dom context).1 context
      { w with dom := (p.plant w.dom context).2 } =
        some ([], { w with dom := (p.plant w.dom context).2 }) := by
    rw [renderSites_eq, targets, h]
    split <;> rfl
  have hstage := Stage.start w.dom (p.plantableAll_forest (w.dom.nsBelow context))
  obtain ⟨root, hroot, hloose, hshown⟩ := hstage.shown_unwrap
  refine ⟨_, _, root, Program.render_of_eq hrun, hroot, hloose, ?_⟩
  obtain ⟨-, hplanted⟩ := w.dom.loose_plantFragment
    (p.plantableAll_forest (w.dom.nsBelow context))
  rw [hshown, Filling.forest_of_holds hplanted.holds.2.2, shapes_numberForest]

namespace Template

variable {options : TemplateOptions} {source : String} {t : Template}

/-- Rendering a template without mustaches makes the trees that nested reading makes of its tokens,
and reading its source as HTML those of lenient reading. -/
theorem exists_render_parseHtml (hcomponents : options.components = false)
    (hcomments : options.keepComments = true) (hplain : IsMustacheless source.toList)
    (h : Template.ofSource options source = .ok t) (hooks : Hooks σ) (scope : Scope) (w : World σ)
    (dom : Dom) :
    ∃ rendered w' root us, t.compile.render hooks scope none w = some (rendered, w') ∧
      rendered.root.node = root.label ∧ w.dom.Loose w'.dom root ∧
      dom.FragmentPlanted (dom.parseHtml source none).2 (dom.parseHtml source none).1 us ∧
      shapes root.shown =
        ((Reading.ofSource .html source).tokens.foldl (Builder.nested .xhtml) {}).finish ∧
      shapes us =
        ((Reading.ofSource .html source).tokens.foldl (Builder.html .xhtml) {}).finish := by
  obtain ⟨hsites, hforest⟩ := forest_compile hcomponents hcomments hplain h
  obtain ⟨rendered, w', root, hrender, hroot, hloose, hshown⟩ :=
    Program.exists_render_of_sites_nil hsites hooks scope none w
  have htokens : tokens? .html source = .ok (Reading.ofSource .html source).tokens := by
    have htokens := tokens?_of_ofSource h
    rwa [tokens?, Reading.ofSource_template hplain, ← tokens?] at htokens
  refine ⟨rendered, w', root, _, hrender, hroot, hloose,
    dom.planted_plantFragment (plantableAll_forestOfHtml _ source), hshown.trans hforest, ?_⟩
  rw [shapes_numberForest, forestOfHtml, htokens]
  rfl

/-- A template without mustaches, read without components and with its comments, has a render
outside of any element, and its source can be read as HTML there.  Both make the same trees, in
nesting, tags, namespaces, attributes, texts and comments, exactly if the readings of the source add
every node at the same depth; they do so where there is no dispute about a tag. -/
theorem shapes_render_eq_parseHtml_iff (hcomponents : options.components = false)
    (hcomments : options.keepComments = true) (hplain : IsMustacheless source.toList)
    (h : Template.ofSource options source = .ok t) (hooks : Hooks σ) (scope : Scope) (w : World σ)
    (dom : Dom) :
    ∃ rendered w' root us, t.compile.render hooks scope none w = some (rendered, w') ∧
      rendered.root.node = root.label ∧ w.dom.Loose w'.dom root ∧
      dom.FragmentPlanted (dom.parseHtml source none).2 (dom.parseHtml source none).1 us ∧
      (shapes root.shown = shapes us ↔
        Builder.SameDepths .xhtml {} {} (Reading.ofSource .html source).tokens) ∧
      (Undisputed .xhtml (Reading.ofSource .html source).tokens →
        shapes root.shown = shapes us) := by
  obtain ⟨rendered, w', root, us, hrender, hroot, hloose, hplanted, hshown, hus⟩ :=
    exists_render_parseHtml hcomponents hcomments hplain h hooks scope w dom
  have hiff : shapes root.shown = shapes us ↔
      Builder.SameDepths .xhtml {} {} (Reading.ofSource .html source).tokens := by
    rw [hshown, hus, eq_comm]
    exact Builder.foldl_html_eq_foldl_nested_iff ..
  exact ⟨rendered, w', root, us, hrender, hroot, hloose, hplanted, hiff,
    fun hundisputed => hiff.2 (Builder.sameDepths_of_undisputed hundisputed)⟩

/-- A drawing whose title holds HTML. -/
theorem shapes_render_eq_parseHtml_drawing :
    let source := "<svg><g id=b /><title>c<br></title></svg>"
    ∃ t, Template.ofSource { components := false } source = .ok t ∧
      IsMustacheless source.toList ∧
      Undisputed .xhtml (Reading.ofSource .html source).tokens ∧
      ∃ rendered w' root us,
        t.compile.render (({} : Environment Unit).hooks 1) {} none { notes := () } =
          some (rendered, w') ∧
        rendered.root.node = root.label ∧ ({} : Dom).Loose w'.dom root ∧
        ({} : Dom).FragmentPlanted (({} : Dom).parseHtml source none).2
          (({} : Dom).parseHtml source none).1 us ∧
        (shapes root.shown = shapes us ↔
          Builder.SameDepths .xhtml {} {} (Reading.ofSource .html source).tokens) ∧
        (Undisputed .xhtml (Reading.ofSource .html source).tokens →
          shapes root.shown = shapes us) := by
  intro source
  have hplain : IsMustacheless source.toList := by decide +kernel
  have htokens : (Reading.ofSource .html source).tokens =
      [.startTag ⟨"svg", [], [], false, ⟨0, 5⟩⟩,
        .startTag ⟨"g", [⟨"id", .unquoted [.text "b"], ⟨8, 12⟩⟩], [], true, ⟨5, 15⟩⟩,
        .startTag ⟨"title", [], [], false, ⟨15, 22⟩⟩, .text "c" ⟨22, 23⟩,
        .startTag ⟨"br", [], [], false, ⟨23, 27⟩⟩, .endTag "title" ⟨27, 35⟩,
        .endTag "svg" ⟨35, 41⟩] := by
    decide +kernel
  have hundisputed : Undisputed .xhtml (Reading.ofSource .html source).tokens := by
    rw [htokens]
    refine @Undisputed.tags _ _ [_, _, _, _, _] [] _ (by decide) ?_ .nil
    refine .single (by decide) (.inl rfl) ?_
    refine @Undisputed.tags _ _ [_, _] [] _ (by decide) ?_ .nil
    exact .text _ _ (.single (by decide) (.inr (by decide)) .nil)
  obtain ⟨t, ht⟩ := exists_ofSource_of_isSome
    (show (Template.ofSource { components := false } source).toOption.isSome by decide +kernel)
  exact ⟨t, ht, hplain, hundisputed,
    shapes_render_eq_parseHtml_iff rfl rfl hplain ht _ {} { notes := () } {}⟩

/-- An end tag in other letters than its start tag closes the element of a template, and is ignored
where the source is read as HTML. -/
theorem not_shapes_render_eq_parseHtml :
    let source := "<DIV></div>x"
    ∃ t, Template.ofSource { components := false } source = .ok t ∧
      IsMustacheless source.toList ∧
      ∃ rendered w' root us,
        t.compile.render (({} : Environment Unit).hooks 1) {} none { notes := () } =
          some (rendered, w') ∧
        rendered.root.node = root.label ∧ ({} : Dom).Loose w'.dom root ∧
        ({} : Dom).FragmentPlanted (({} : Dom).parseHtml source none).2
          (({} : Dom).parseHtml source none).1 us ∧
        shapes root.shown ≠ shapes us := by
  intro source
  have hplain : IsMustacheless source.toList := by decide +kernel
  obtain ⟨t, ht⟩ := exists_ofSource_of_isSome
    (show (Template.ofSource { components := false } source).toOption.isSome by decide +kernel)
  obtain ⟨rendered, w', root, us, hrender, hroot, hloose, hplanted, hshown, hus⟩ :=
    exists_render_parseHtml rfl rfl hplain ht (({} : Environment Unit).hooks 1) {}
      { notes := () } {}
  refine ⟨t, ht, hplain, rendered, w', root, us, hrender, hroot, hloose, hplanted, fun heq => ?_⟩
  rw [hshown, hus] at heq
  have hhtml : forestHtml ((Reading.ofSource .html source).tokens.foldl
        (Builder.nested .xhtml) {}).finish ≠
      forestHtml
        ((Reading.ofSource .html source).tokens.foldl (Builder.html .xhtml) {}).finish := by
    decide +kernel
  exact hhtml (congrArg forestHtml heq)

end Template

end LiveTemplate
