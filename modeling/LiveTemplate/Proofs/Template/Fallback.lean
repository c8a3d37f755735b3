import LiveTemplate.Proofs.Template.Escaped

/-!
# LiveTemplate.Proofs.Template.Fallback

A source read with components and without them.

1. Where components are not enabled, elements stand in their place (`Node.fallback`).
2. Both readings take the same steps, and agree on this after each (`Agrees.exists_steps`).  So a
   source that is accepted with components is accepted without them
   (`Template.exists_ofSource_fallback`).
3. Components come from tags, so that they have no block params, and no helper has their name.
   Tags that have no attribute twice give tags of the same kind (`Template.tidyAll`).
-/

namespace LiveTemplate

/-! ## elements in the place of components -/

/-- What the tag of an element is compiled to does not depend on these. -/
def ElementTag.fallback (tag : ElementTag) : ElementTag :=
  { tag with ns := .xhtml, selfClosing := false }

/-- The element in the place of a component. -/
def ComponentTag.fallback (tag : ComponentTag) : ElementTag :=
  ⟨tag.name, .xhtml, tag.attributes, [], false⟩

mutual

/-- A node with elements in the place of components. -/
def Node.fallback : Node → Node
  | .text s span => .text s span
  | .comment s span => .comment s span
  | .insertion i => .insertion i
  | .element tag children span => .element tag.fallback (fallbackAll children) span
  | .block call body none span => .block call (fallbackBody body) none span
  | .block call body (some inverse) span =>
    .block call (fallbackBody body) (some (fallbackBody inverse)) span
  | .component tag ⟨children, _, _⟩ span => .element tag.fallback (fallbackAll children) span

def fallbackBody : Body Node → Body Node
  | ⟨children, blockParams, span⟩ => ⟨fallbackAll children, blockParams, span⟩

/-- Nodes with elements in the place of components. -/
def fallbackAll : List Node → List Node
  | [] => []
  | node :: nodes => node.fallback :: fallbackAll nodes

end

theorem fallbackAll_eq_map (nodes : List Node) : fallbackAll nodes = nodes.map Node.fallback := by
  induction nodes with
  | nil => rfl
  | cons node nodes ih => rw [fallbackAll, ih, List.map_cons]

def Opening.fallback : Opening → Opening
  | .element tag span => .element tag.fallback span
  | .component tag span => .element tag.fallback span
  | .block call blockParams body lo => .block call blockParams (body.map fallbackBody) lo

/-- A frame with elements in the place of components. -/
def Frame.fallback (frame : Frame) : Opening × List Node :=
  (frame.opening.fallback, fallbackAll frame.before)

/-! ## two readings -/

namespace Construction

/-- Two readings differ in elements that stand in the place of components. -/
structure Agrees (s s' : Construction) : Prop where
  nodes : fallbackAll s.nodes = fallbackAll s'.nodes
  frames : s.frames.map Frame.fallback = s'.frames.map Frame.fallback

variable {options : TemplateOptions} {s s' s₁ : Construction}

namespace Agrees

theorem push (h : s.Agrees s') {node node' : Node} (hnode : node.fallback = node'.fallback) :
    (s.push node).Agrees (s'.push node') :=
  ⟨congrArg₂ List.cons hnode h.nodes, h.frames⟩

theorem enter (h : s.Agrees s') {opening opening' : Opening}
    (hopening : opening.fallback = opening'.fallback) (ns ns' : Namespace) :
    (s.enter opening ns).Agrees (s'.enter opening' ns') :=
  ⟨rfl, congrArg₂ List.cons (congrArg₂ Prod.mk hopening h.nodes) h.frames⟩

theorem children (h : s.Agrees s') : fallbackAll s.children = fallbackAll s'.children := by
  have hnodes := h.nodes
  rw [fallbackAll_eq_map, fallbackAll_eq_map] at hnodes ⊢
  rw [Construction.children, Construction.children, List.map_reverse, hnodes, List.map_reverse]

/-- The innermost frames agree. -/
theorem exists_frame (h : s.Agrees s') {frame : Frame} {frames : List Frame}
    (hframes : s.frames = frame :: frames) :
    ∃ frame' frames', s'.frames = frame' :: frames' ∧
      frame.opening.fallback = frame'.opening.fallback ∧
      fallbackAll frame.before = fallbackAll frame'.before ∧
      frames.map Frame.fallback = frames'.map Frame.fallback := by
  have hframes' := h.frames.symm
  rw [hframes, List.map_cons] at hframes'
  obtain ⟨frame', frames', hs', hframe, hrest⟩ := List.map_eq_cons_iff.1 hframes'
  obtain ⟨hopening, hbefore⟩ := Prod.mk.inj hframe
  exact ⟨frame', frames', hs', hopening.symm, hbefore.symm, hrest.symm⟩

theorem leave {frame frame' : Frame} {frames frames' : List Frame}
    (hbefore : fallbackAll frame.before = fallbackAll frame'.before)
    (hframes : frames.map Frame.fallback = frames'.map Frame.fallback) {node node' : Node}
    (hnode : node.fallback = node'.fallback) :
    (leave frame frames node).Agrees (leave frame' frames' node') :=
  ⟨congrArg₂ List.cons hnode hbefore, hframes⟩

/-- Whether a text is added to the one before it does not depend on components. -/
theorem pushText (h : s.Agrees s') (text : String) (span : Span) :
    (s.pushText text span).Agrees (s'.pushText text span) := by
  have hpush : ∀ s : Construction, fallbackAll (s.pushText text span).nodes =
      (({ nodes := fallbackAll s.nodes } : Construction).pushText text span).nodes := by
    rintro ⟨nodes, ns, frames⟩
    cases nodes with
    | nil => rfl
    | cons node nodes =>
      cases node with
      | block call body inverse span => cases inverse <;> rfl
      | _ => rfl
  refine ⟨?_, ?_⟩
  · rw [hpush, hpush, h.nodes]
  · rw [frames_pushText, frames_pushText]
    exact h.frames

/-- What is open as an element, or as a component in its place, can be closed. -/
theorem exists_leave (h : s.Agrees s') {opening : Opening} {tag : ElementTag} {start : Span}
    {before : List Node} {ns : Namespace} {frames : List Frame} {name : String} (span : Span)
    (hvoid : ¬IsVoid name) (hframes : s.frames = ⟨opening, before, ns⟩ :: frames)
    (hopening : opening.fallback = .element tag start) (hsame : SameName tag.name name)
    {node : Node}
    (hnode : node.fallback = .element tag (fallbackAll s.children) ⟨start.lo, span.hi⟩) :
    ∃ s₁', Steps options s' (.endTag name span) s₁' ∧
      (Construction.leave ⟨opening, before, ns⟩ frames node).Agrees s₁' := by
  obtain ⟨⟨opening', before', ns'⟩, frames', hframes', hopening', hbefore, hrest⟩ :=
    h.exists_frame hframes
  rw [hopening] at hopening'
  rw [h.children] at hnode
  cases opening' with
  | element tag' start' =>
    cases hopening'
    exact ⟨_, .closeElement span hvoid hframes' hsame, .leave hbefore hrest hnode⟩
  | component tag' start' =>
    cases hopening'
    exact ⟨_, .closeComponent span hvoid hframes' hsame, .leave hbefore hrest hnode⟩
  | block => cases hopening'

/-- Without components the same step is taken. -/
theorem exists_steps (h : s.Agrees s') {token : Token} (hstep : Steps options s token s₁) :
    ∃ s₁', Steps { options with components := false } s' token s₁' ∧ s₁.Agrees s₁' := by
  have hnot : ∀ tag : StartTag, ¬tag.IsComponent { options with components := false } :=
    fun tag h => Bool.false_ne_true h.components
  cases hstep with
  | text text span => exact ⟨_, .text text span, h.pushText text span⟩
  | comment text span =>
    refine ⟨_, .comment text span, ?_⟩
    show (if options.keepComments then _ else s).Agrees (if options.keepComments then _ else s')
    split
    · exact h.push rfl
    · exact h
  | @component tag attributes hcomponent hattributes hmodifiers hsingle =>
    exact ⟨_, .element (hnot tag) hattributes (by rw [hmodifiers]; rfl) (.inl hsingle), h.push rfl⟩
  | @openComponent tag attributes hcomponent hattributes hmodifiers hsingle =>
    exact ⟨_, .openElement (hnot tag) hattributes (by rw [hmodifiers]; rfl)
      (hcomponent.not_isSingle hsingle), h.enter (by rfl) _ _⟩
  | @element tag attributes modifiers hcomponent hattributes hmodifiers hsingle =>
    exact ⟨_, .element (hnot tag) hattributes hmodifiers hsingle, h.push rfl⟩
  | @openElement tag attributes modifiers hcomponent hattributes hmodifiers hsingle =>
    exact ⟨_, .openElement (hnot tag) hattributes hmodifiers hsingle, h.enter (by rfl) _ _⟩
  | closeElement span hvoid hframes hsame =>
    exact h.exists_leave span hvoid hframes rfl hsame rfl
  | closeComponent span hvoid hframes hsame =>
    exact h.exists_leave span hvoid hframes rfl hsame rfl
  | ignore hkind => exact ⟨s', .ignore hkind, h⟩
  | insertion hkind hi => exact ⟨_, .insertion hkind hi, h.push rfl⟩
  | openBlock hkind he => exact ⟨_, .openBlock hkind he, h.enter (by rfl) _ _⟩
  -- What is open is a block in both, since the same mustache opened it, and neither has met `else`.
  | otherwise hkind hframes hbare =>
    obtain ⟨⟨opening', before', ns'⟩, frames', hframes', hopening', hbefore, hrest⟩ :=
      h.exists_frame hframes
    cases opening' with
    | block call' blockParams' body' lo' =>
      cases body' with
      | none =>
        cases hopening'
        refine ⟨_, .otherwise hkind hframes' hbare, rfl, ?_⟩
        rw [List.map_cons, List.map_cons, hrest, Frame.fallback, Frame.fallback, hbefore]
        simp only [Opening.fallback, Option.map_some, fallbackBody, h.children]
      | some body' => cases hopening'
    | element => cases hopening'
    | component => cases hopening'
  | @closeBlock m call blockParams body lo before ns frames hkind hframes hpath =>
    obtain ⟨⟨opening', before', ns'⟩, frames', hframes', hopening', hbefore, hrest⟩ :=
      h.exists_frame hframes
    cases opening' with
    | block call' blockParams' body' lo' =>
      simp only [Opening.fallback, Opening.block.injEq] at hopening'
      obtain ⟨rfl, rfl, hbody, rfl⟩ := hopening'
      refine ⟨_, .closeBlock hkind hframes' hpath, .leave hbefore hrest ?_⟩
      cases body <;> cases body' <;>
        simp only [Option.map_none, Option.map_some, Option.some.injEq, reduceCtorEq] at hbody <;>
        simp only [block, Node.fallback, fallbackBody, h.children, hbody]
    | element => cases hopening'
    | component => cases hopening'

/-- Without components all tokens are read as well. -/
theorem exists_run (h : s.Agrees s') {tokens : List Token}
    (hrun : run options tokens s = .ok s₁) :
    ∃ s₁', run { options with components := false } tokens s' = .ok s₁' ∧ s₁.Agrees s₁' := by
  induction tokens generalizing s s' with
  | nil =>
    cases hrun
    exact ⟨s', rfl, h⟩
  | cons token tokens ih =>
    obtain ⟨s₂, hstep, hrun⟩ := exists_of_run_cons hrun
    obtain ⟨s₂', hstep', h⟩ := h.exists_steps hstep
    obtain ⟨s₁', hrun', h⟩ := ih h hrun
    exact ⟨s₁', run_cons hstep' hrun', h⟩

end Agrees

end Construction

/-- A source that is accepted is accepted without components, with elements in their place. -/
theorem Template.exists_ofSource_fallback {options : TemplateOptions} {source : String}
    {t : Template} (h : Template.ofSource options source = .ok t) :
    ∃ t', Template.ofSource { options with components := false } source = .ok t' ∧
      fallbackAll t'.children = fallbackAll t.children := by
  have htokens := Template.tokens?_of_ofSource h
  obtain ⟨s, hrun, hframes, rfl⟩ := (Template.ofSource_eq_ok_iff htokens).1 h
  have hstart : ({} : Construction).Agrees {} := ⟨rfl, rfl⟩
  obtain ⟨s', hrun', hagrees⟩ := hstart.exists_run hrun
  have hframes' := hagrees.frames
  rw [hframes] at hframes'
  exact ⟨_, (Template.ofSource_eq_ok_iff htokens).2
    ⟨s', hrun', List.map_eq_nil_iff.1 hframes'.symm, rfl⟩, hagrees.children.symm⟩

/-! ## tidy nodes -/

/-- A tag has no attribute twice, and is no integration point. -/
def Token.IsTidy : Token → Prop
  | .startTag tag =>
    (tag.attributes.map RawAttribute.name).Nodup ∧ isIntegrationPoint tag.name = false
  | .text .. | .comment .. | .endTag .. | .mustache _ => True

instance (token : Token) : Decidable token.IsTidy :=
  match token with
  | .startTag tag => inferInstanceAs (Decidable
      ((tag.attributes.map RawAttribute.name).Nodup ∧ isIntegrationPoint tag.name = false))
  | .text .. | .comment .. | .endTag .. | .mustache _ => .isTrue trivial

/-- A component has no attribute twice, no helper has its name, and its tag is no integration
point. -/
structure ComponentTag.IsTidy (tag : ComponentTag) : Prop where
  names : (tag.attributes.map Attribute.name).Nodup
  helper : Builtin.ofName? tag.name = none
  uniform : isIntegrationPoint tag.name = false

mutual

/-- Tags in a node are no integration points, at any depth, and components are tidy and have no
block params.  Parts behind `else` do not count. -/
def Node.IsTidy : Node → Prop
  | .element tag children _ => isIntegrationPoint tag.name = false ∧ TidyAll children
  | .component tag ⟨children, blockParams, _⟩ _ => tag.IsTidy ∧ blockParams = [] ∧ TidyAll children
  | .block _ ⟨children, _, _⟩ _ _ => TidyAll children
  | .text .. | .comment .. | .insertion _ => True

/-- All of some nodes are tidy. -/
def TidyAll : List Node → Prop
  | [] => True
  | node :: nodes => node.IsTidy ∧ TidyAll nodes

end

theorem tidyAll_iff {nodes : List Node} : TidyAll nodes ↔ ∀ node ∈ nodes, node.IsTidy := by
  induction nodes with
  | nil => simp [TidyAll]
  | cons node nodes ih => simp [TidyAll, ih]

/-- Attributes keep their names. -/
theorem map_name_of_mapM {raws : List RawAttribute} {attributes : List Attribute}
    (h : raws.mapM Attribute.ofRaw = .ok attributes) :
    attributes.map Attribute.name = raws.map RawAttribute.name :=
  map_of_mapM (fun _ _ => Attribute.name_ofRaw) h

/-- What is open is tidy, once it is closed behind tidy nodes. -/
def Opening.IsTidy : Opening → Prop
  | .element tag _ => isIntegrationPoint tag.name = false
  | .component tag _ => tag.IsTidy
  | .block _ _ none _ => True
  | .block _ _ (some body) _ => TidyAll body.children

/-- Tidy tokens keep nodes tidy. -/
theorem kept_isTidy {options : TemplateOptions} {tokens : List Token}
    (htidy : ∀ token ∈ tokens, token.IsTidy) : Kept options tokens Node.IsTidy Opening.IsTidy where
  text _ _ := trivial
  comment _ _ _ := trivial
  insertion _ _ _ _ _ := trivial
  element _ _ _ _ htoken _ _ := (htidy _ htoken).2
  component tag attributes htoken hcomponent hattributes := by
    obtain ⟨hnames, huniform⟩ := htidy _ htoken
    exact ⟨by rw [map_name_of_mapM hattributes]; exact hnames, ofName?_of_dash hcomponent.dash,
      huniform⟩
  block _ _ _ := trivial
  inverse _ _ _ _ _ hchildren := tidyAll_iff.2 hchildren
  close _ _ _ hopening hchildren hcloses := by
    cases hcloses with
    | element => exact ⟨hopening, tidyAll_iff.2 hchildren⟩
    | component => exact ⟨hopening, rfl, tidyAll_iff.2 hchildren⟩
    | block => exact tidyAll_iff.2 hchildren
    | inverse => exact hopening

/-- A source whose tokens are tidy gives a template of tidy nodes. -/
theorem Template.tidyAll {options : TemplateOptions} {source : String} {t : Template}
    (h : Template.ofSource options source = .ok t)
    (htidy : ∀ token ∈ (Reading.ofSource .template source).tokens, token.IsTidy) :
    TidyAll t.children :=
  tidyAll_iff.2 (Template.forall_mem_ofSource h (kept_isTidy htidy))

end LiveTemplate
