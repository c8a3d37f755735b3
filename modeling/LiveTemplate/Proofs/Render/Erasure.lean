import LiveTemplate.Proofs.Markup.Tags
import LiveTemplate.Proofs.Render.Making
import LiveTemplate.Proofs.Template.Escaped

/-!
# LiveTemplate.Proofs.Render.Erasure

Values that are shown as text do not change the markup around them.

The tags and comments a template is written with can be read off the template
(`nodesTags`), and the values it is rendered with take no part in that.  Whatever trees
safe nodes stand for, their tags are these (`isWrittenAs_nodesTrees`); values only decide
which of the attributes of a tag are there, and what their values are.  So what is written
for a render is read as tokens that fit the tags of its template
(`Template.exists_isReadAs`), and two renders of one template are read as the same tags.
-/

namespace LiveTemplate

/-! ## the tags of templates -/

/-- A tag or a comment of a template.  Of the attributes of a tag only the names are given. -/
inductive TemplateTag where
  | start (name : String) (attributes : List String)
  | stop (name : String)
  | comment (text : String)
deriving DecidableEq, Repr

/-- The tags of an element with the tags of its content. -/
def elementTags (name : String) (ns : Namespace) (attributes : List String)
    (content : List TemplateTag) : List TemplateTag :=
  if (NodeData.element name ns {}).hasContent then
    .start name attributes :: content ++ [.stop name]
  else [.start name attributes]

mutual

/-- The tags and comments a node is written with.  The namespaces are those of the trees the node
stands for. -/
def Node.tags (root : Namespace) (around : Option Namespace) (inherited : Namespace) :
    Node → List TemplateTag
  | .text .. | .insertion _ | .block .. => []
  | .comment s _ => [.comment s]
  | .element tag children _ =>
    let own := knownNamespace tag.name around
    let ns := own.getD root
    elementTags tag.name ns (tag.attributes.map (·.name))
      (nodesTags root (knownNamespaceBelow tag.name own) (ns.below tag.name) children)
  | .component tag body _ =>
    let ns := Namespace.ofElement tag.name inherited
    elementTags tag.name ns (tag.attributes.map (·.name)) (bodyTags (ns.below tag.name) body)

/-- The tags and comments a body is written with, below a place that hands down `ns`. -/
def bodyTags (ns : Namespace) : Body Node → List TemplateTag
  | ⟨children, _, _⟩ => nodesTags ns none ns children

/-- The tags and comments that nodes are written with, one after the other. -/
def nodesTags (root : Namespace) (around : Option Namespace) (inherited : Namespace) :
    List Node → List TemplateTag
  | [] => []
  | node :: nodes =>
    node.tags root around inherited ++ nodesTags root around inherited nodes

end

theorem bodyTags_eq (ns : Namespace) (body : Body Node) :
    bodyTags ns body = nodesTags ns none ns body.children := by
  cases body
  rfl

/-! ## tokens of tags -/

namespace NormalToken

/-- A token without the attributes it may have. -/
def bare : NormalToken → NormalToken
  | startTag name _ => startTag name []
  | endTag name => endTag name
  | text s => text s
  | comment s => comment s

/-- A token is read where a tag of a template has been written: every attribute it has is one of
those of the tag. -/
inductive Fits : NormalToken → TemplateTag → Prop where
  | start (name : String) {attributes : List (String × String)} {names : List String}
    (h : ∀ entry ∈ attributes, entry.1 ∈ names) :
    Fits (.startTag name attributes) (.start name names)
  | stop (name : String) : Fits (.endTag name) (.stop name)
  | comment (s : String) : Fits (.comment s) (.comment s)

/-- Tokens that fit one tag differ in their attributes at most. -/
theorem Fits.bare_eq {token token' : NormalToken} {tag : TemplateTag} (h : token.Fits tag)
    (h' : token'.Fits tag) : token.bare = token'.bare := by
  cases h with
  | start =>
    cases h'
    rfl
  | stop =>
    cases h'
    rfl
  | comment =>
    cases h'
    rfl

theorem map_bare_eq {tokens tokens' : List NormalToken} {tags : List TemplateTag}
    (h : List.Forall₂ Fits tokens tags) (h' : List.Forall₂ Fits tokens' tags) :
    tokens.map bare = tokens'.map bare := by
  induction h generalizing tokens' with
  | nil =>
    cases h'
    rfl
  | cons hfits _ ih =>
    cases h' with
    | cons hfits' hrest => rw [List.map_cons, List.map_cons, hfits.bare_eq hfits', ih hrest]

end NormalToken

/-! ## trees -/

/-- Trees that can be read, with the tags of a template. -/
structure IsWrittenAs (ts : List Markup) (tags : List TemplateTag) : Prop where
  readable : ∀ data ∈ forestData ts, data.Readable
  fits : List.Forall₂ NormalToken.Fits (forestTags ts) tags

namespace IsWrittenAs

variable {ts us : List Markup} {tags tags' : List TemplateTag}

theorem nil : IsWrittenAs [] [] := ⟨by simp [forestData], .nil⟩

theorem append (h : IsWrittenAs ts tags) (k : IsWrittenAs us tags') :
    IsWrittenAs (ts ++ us) (tags ++ tags') where
  readable data hdata := by
    obtain ⟨t, ht, hdata⟩ := mem_forestData.1 hdata
    rcases List.mem_append.1 ht with ht | ht
    · exact h.readable data (mem_forestData.2 ⟨t, ht, hdata⟩)
    · exact k.readable data (mem_forestData.2 ⟨t, ht, hdata⟩)
  fits := by
    rw [forestTags_append]
    exact List.rel_append h.fits k.fits

theorem text (s : String) : IsWrittenAs [.node () (.text s) []] [] where
  readable := by simp [forestData, Tree.allData, NodeData.Readable]
  fits := .nil

theorem comment {s : String} (h : ¬commentEnd <:+: s.toList) :
    IsWrittenAs [.node () (.comment s) []] [.comment s] where
  readable := by simpa [forestData, Tree.allData, NodeData.Readable] using h
  fits := .cons (.comment s) .nil

/-- An element is written with its tag, if none of its attributes is new. -/
theorem element (h : IsWrittenAs ts tags) {name : String} (ns : Namespace)
    {attributes : Dict String} {names : List String} (hname : IsTagName name)
    (hnames : ∀ n ∈ names, IsAttributeName n) (hkeys : attributes.keys ⊆ names) :
    IsWrittenAs [.node () (.element name ns attributes) ts] (elementTags name ns names tags) := by
  have hkey : ∀ entry ∈ attributes.entries, entry.1 ∈ names := fun entry hentry =>
    hkeys (List.mem_map.2 ⟨entry, hentry, rfl⟩)
  have hstart : (NormalToken.startTag name (attributes.entries.mergeSort attributeLE)).Fits
      (.start name names) :=
    .start name fun entry hentry => hkey entry (List.mem_mergeSort.1 hentry)
  refine ⟨?_, ?_⟩
  · rw [forestData, forestData, List.append_nil, Tree.allData, List.forall_mem_cons]
    exact ⟨⟨hname, fun entry hentry => hnames _ (hkey entry hentry)⟩, h.readable⟩
  · rw [forestTags, forestTags, List.append_nil, Tree.tags, NodeData.tags, elementTags]
    have hcontent : (NodeData.element name ns attributes).hasContent =
        (NodeData.element name ns {}).hasContent := rfl
    rw [hcontent]
    split
    · exact .cons hstart (List.rel_append h.fits (.cons (.stop name) .nil))
    · exact .cons hstart .nil

end IsWrittenAs

/-! ## attributes -/

namespace Dict

variable {α : Type} {d : Dict α} {names : List String}

theorem keys_set_subset (h : d.keys ⊆ names) {name : String} (hname : name ∈ names) (value : α) :
    (d.set name value).keys ⊆ names := by
  rw [keys_set]
  split
  · exact h
  · exact List.append_subset.2 ⟨h, by simpa using hname⟩

theorem keys_erase_subset (h : d.keys ⊆ names) (name : String) : (d.erase name).keys ⊆ names := by
  intro n hn
  obtain ⟨entry, hentry, rfl⟩ := List.mem_map.1 hn
  exact h (List.mem_map.2 ⟨entry, (List.mem_filter.1 hentry).1, rfl⟩)

theorem keys_ofPairs_subset {pairs : List (String × α)} (h : ∀ pair ∈ pairs, pair.1 ∈ names) :
    (ofPairs pairs).keys ⊆ names := by
  have hfold : ∀ d : Dict α, d.keys ⊆ names →
      (pairs.foldl (fun d pair => d.set pair.1 pair.2) d).keys ⊆ names := by
    induction pairs with
    | nil => exact fun d h => h
    | cons pair pairs ih =>
      obtain ⟨hpair, hpairs⟩ := List.forall_mem_cons.1 h
      exact fun d hd => ih hpairs _ (keys_set_subset hd hpair pair.2)
  exact hfold {} (by simp [keys])

end Dict

section Values

variable (scope : Scope) (heap : Heap) {names : List String}

theorem Attribute.keys_evaluate_subset {a : Attribute} {attributes : Dict String}
    (h : attributes.keys ⊆ names) (hname : a.name ∈ names) :
    (a.evaluate scope heap attributes).keys ⊆ names := by
  rw [Attribute.evaluate]
  split
  · exact h
  · simp only
    split
    · exact Dict.keys_erase_subset h _
    · exact Dict.keys_set_subset h hname _
  · exact Dict.keys_set_subset h hname _

/-- Evaluating the attributes of an element gives it no attribute that its tag does not have. -/
theorem ElementTag.keys_evaluate_subset (tag : ElementTag) :
    (tag.evaluate scope heap).keys ⊆ tag.attributes.map (·.name) := by
  have hfold : ∀ (as : List Attribute) (d : Dict String), as ⊆ tag.attributes →
      d.keys ⊆ tag.attributes.map (·.name) →
        (as.foldl (fun d a => a.evaluate scope heap d) d).keys ⊆ tag.attributes.map (·.name) := by
    intro as
    induction as with
    | nil => exact fun d _ hd => hd
    | cons a as ih =>
      intro d has hd
      obtain ⟨ha, has⟩ := List.cons_subset.1 has
      exact ih _ has (Attribute.keys_evaluate_subset scope heap hd (List.mem_map_of_mem ha))
  refine hfold tag.attributes _ (List.Subset.refl _) (Dict.keys_ofPairs_subset fun pair hpair => ?_)
  obtain ⟨a, ha, hstatic⟩ := List.mem_filterMap.1 hpair
  rw [Attribute.static?] at hstatic
  split at hstatic
  · cases hstatic
    exact List.mem_map_of_mem ha
  · cases hstatic
  · cases hstatic

theorem keys_setParams_subset {pairs : List (String × Param)} {attributes : Dict String}
    (h : attributes.keys ⊆ names) (hpairs : ∀ pair ∈ pairs, pair.1 ∈ names) :
    (setParams scope heap pairs attributes).keys ⊆ names := by
  induction pairs generalizing attributes with
  | nil => exact h
  | cons pair pairs ih =>
    obtain ⟨hpair, hpairs⟩ := List.forall_mem_cons.1 hpairs
    rw [setParams]
    refine ih ?_ hpairs
    split
    · exact h
    · exact Dict.keys_set_subset h hpair _

/-- A component is shown with no attribute that its tag does not have. -/
theorem ComponentTag.keys_evaluate_subset (tag : ComponentTag) :
    (tag.evaluate scope heap).keys ⊆ tag.attributes.map (·.name) := by
  refine keys_setParams_subset scope heap (by simp [Dict.keys]) fun pair hpair => ?_
  obtain ⟨a, ha, rfl⟩ := List.mem_map.1 hpair
  exact List.mem_map_of_mem ha

end Values

/-! ## nodes -/

/-- An escaped value is shown without tags. -/
theorem isWrittenAs_valueTrees (ns : Namespace) (value : Value) :
    IsWrittenAs (valueTrees true ns value) [] := by
  rw [valueTrees]
  split
  · exact .nil
  · exact .text _

mutual

/-- Whatever a safe node is rendered with, it is written with its tags. -/
theorem Node.isWrittenAs_trees (scope : Scope) (heap : Heap) (root : Namespace)
    (around : Option Namespace) (inherited : Namespace) :
    ∀ node : Node, node.IsSafe →
      IsWrittenAs (node.trees scope heap root around inherited) (node.tags root around inherited)
  | .text s _, _ => .text s
  | .comment _ _, h => .comment h
  | .insertion i, h => by
    have hvalue := (isWrittenAs_valueTrees inherited (i.value scope heap)).append (.text "")
    rw [← show i.escaped = true from h] at hvalue
    exact hvalue
  | .element tag children _, h =>
    (isWrittenAs_nodesTrees scope heap _ _ _ children h.2).element _ h.1.name
      (List.forall_mem_map.2 h.1.attributes) (tag.keys_evaluate_subset scope heap)
  | .block call _ _ _, _ =>
    (isWrittenAs_valueTrees inherited (call.mustache.value scope heap)).append (.text "")
  | .component tag body _, h => by
    have hbody := isWrittenAs_bodyTrees scope heap
      ((Namespace.ofElement tag.name inherited).below tag.name) body h.2
    have helement := hbody.element (.ofElement tag.name inherited) h.1.name
      (List.forall_mem_map.2 h.1.attributes) (tag.keys_evaluate_subset scope heap)
    have hwhole := helement.append (.text "")
    rw [List.append_nil] at hwhole
    exact hwhole

theorem isWrittenAs_bodyTrees (scope : Scope) (heap : Heap) (ns : Namespace) :
    ∀ body : Body Node, SafeBody body →
      IsWrittenAs (bodyTrees scope heap ns body) (bodyTags ns body)
  | ⟨children, blockParams, _⟩, h =>
    isWrittenAs_nodesTrees (scope.bind blockParams []) heap ns none ns children h

/-- Whatever safe nodes are rendered with, they are written with their tags. -/
theorem isWrittenAs_nodesTrees (scope : Scope) (heap : Heap) (root : Namespace)
    (around : Option Namespace) (inherited : Namespace) :
    ∀ nodes : List Node, SafeAll nodes →
      IsWrittenAs (nodesTrees scope heap root around inherited nodes)
        (nodesTags root around inherited nodes)
  | [], _ => .nil
  | node :: nodes, h =>
    (Node.isWrittenAs_trees scope heap root around inherited node h.1).append
      (isWrittenAs_nodesTrees scope heap root around inherited nodes h.2)

end

mutual

/-- Safe nodes have no modifiers. -/
theorem Node.IsSafe.isUnmodified : ∀ node : Node, node.IsSafe → node.IsUnmodified
  | .text .., _ | .comment .., _ | .insertion _, _ | .block .., _ => trivial
  | .element _ children _, h => ⟨h.1.modifiers, unmodifiedAll_of_safeAll children h.2⟩
  | .component _ body _, h => ⟨h.1.helper, unmodifiedBody_of_safeBody body h.2⟩

theorem unmodifiedBody_of_safeBody : ∀ body : Body Node, SafeBody body → UnmodifiedBody body
  | ⟨children, _, _⟩, h => unmodifiedAll_of_safeAll children h

theorem unmodifiedAll_of_safeAll : ∀ nodes : List Node, SafeAll nodes → UnmodifiedAll nodes
  | [], _ => trivial
  | node :: nodes, h =>
    ⟨Node.IsSafe.isUnmodified node h.1, unmodifiedAll_of_safeAll nodes h.2⟩

end

/-! ## renders -/

namespace Template

variable {σ : Type}

/-- A template is rendered, and what is written for the result is read as tokens.  Apart from texts
these are the tags and comments of the nodes of the result, with the attributes that are stored
there, and they fit the tags of the template. -/
def IsReadAs (t : Template) (hooks : Hooks σ) (scope : Scope) (context : Option NodeId)
    (w : World σ) (tokens : List NormalToken) : Prop :=
  ∃ rendered w' root, t.compile.render hooks scope context w = some (rendered, w') ∧
    rendered.root.node = root.label ∧ w.dom.Loose w'.dom root ∧
    normalizeHtml (w'.dom.html rendered.root.node) = .ok tokens ∧
    NormalToken.withoutTexts tokens = forestTags root.shown ∧
    List.Forall₂ NormalToken.Fits (NormalToken.withoutTexts tokens)
      (bodyTags (w.dom.nsBelow context) t)

theorem IsReadAs.fits {t : Template} {hooks : Hooks σ} {scope : Scope} {context : Option NodeId}
    {w : World σ} {tokens : List NormalToken} (h : t.IsReadAs hooks scope context w tokens) :
    List.Forall₂ NormalToken.Fits (NormalToken.withoutTexts tokens)
      (bodyTags (w.dom.nsBelow context) t) := by
  obtain ⟨rendered, w', root, -, -, -, -, -, hfits⟩ := h
  exact hfits

/-- A template of safe nodes is read as its tags, whatever values it is rendered with. -/
theorem exists_isReadAs {t : Template} (hsafe : SafeAll t.children) {depth : Nat}
    (hdepth : 2 * nestingOf t.children + 3 ≤ depth) {scope : Scope} {context : Option NodeId}
    {w : World σ} (hscope : scope.NodeFree w.heap)
    (hcontext : ∀ id, context = some id → id.index < w.dom.size) :
    ∃ tokens, t.IsReadAs (({} : Environment σ).hooks depth) scope context w tokens := by
  obtain ⟨more, rfl⟩ := Nat.exists_eq_add_of_le hdepth
  have hrenders := Environment.renders_hooks (σ := σ) _ more t
    (unmodifiedAll_of_safeAll t.children hsafe) (Nat.le_refl _)
  obtain ⟨rendered, w', root, hrender, hroot, -, hloose, hshapes⟩ :=
    hrenders scope context w hscope hcontext
  have hwritten := isWrittenAs_nodesTrees scope w.heap (w.dom.nsBelow context) none
    (w.dom.nsBelow context) t.children hsafe
  rw [← hshapes] at hwritten
  obtain ⟨hreadable, hfits⟩ := hwritten
  rw [forestData_shapes] at hreadable
  rw [forestTags_shapes] at hfits
  obtain ⟨tokens, hread, htags⟩ := normalizeHtml_forestHtml hreadable
  have hhtml : w'.dom.html rendered.root.node = String.ofList (forestHtml root.shown) := by
    rw [hroot, Dom.html_of_holds hloose.holds hloose.nodup, forestHtml_shown]
  refine ⟨tokens, rendered, w', root, hrender, hroot, hloose, by rw [hhtml, hread], htags, ?_⟩
  rw [htags, bodyTags_eq]
  exact hfits

/-- A template without triple braces and without modifiers is rendered twice, in an environment
without helpers and partials and with values none of which is a node.  What is written can be read
each time.  Apart from texts it is read as the tags and comments of the nodes, with the attributes
that are stored there; all of these attributes are attributes of the tag in the template, and but
for attributes the same is read both times.  The hooks have to be deep enough for the components of
the template. -/
theorem exists_tokens_render {options : TemplateOptions} {source : String} {t : Template}
    (h : Template.ofSource options source = .ok t)
    (hescaped : ∀ token ∈ (Reading.ofSource .template source).tokens, token.IsEscaped)
    {depth : Nat} (hdepth : 2 * nestingOf t.children + 3 ≤ depth) {scope scope' : Scope}
    {context context' : Option NodeId} {w w' : World σ} (hscope : scope.NodeFree w.heap)
    (hscope' : scope'.NodeFree w'.heap)
    (hcontext : ∀ id, context = some id → id.index < w.dom.size)
    (hcontext' : ∀ id, context' = some id → id.index < w'.dom.size)
    (hns : w.dom.nsBelow context = w'.dom.nsBelow context') :
    ∃ tokens tokens', t.IsReadAs (({} : Environment σ).hooks depth) scope context w tokens ∧
      t.IsReadAs (({} : Environment σ).hooks depth) scope' context' w' tokens' ∧
      (NormalToken.withoutTexts tokens).map NormalToken.bare =
        (NormalToken.withoutTexts tokens').map NormalToken.bare := by
  have hsafe := Template.safeAll h hescaped
  obtain ⟨tokens, hread⟩ := exists_isReadAs hsafe hdepth hscope hcontext
  obtain ⟨tokens', hread'⟩ := exists_isReadAs hsafe hdepth hscope' hcontext'
  have hfits := hread.fits
  rw [hns] at hfits
  exact ⟨tokens, tokens', hread, hread', NormalToken.map_bare_eq hfits hread'.fits⟩

/-- A component among attributes and texts, rendered with a text that would close each of them. -/
theorem exists_tokens_render_hostile :
    let source := "<p class='a \x7b\x7bthis\x7d\x7d' id=\x7b\x7bthis\x7d\x7d>" ++
      "<x-y z=\x7b\x7bthis\x7d\x7d>\x7b\x7bthis\x7d\x7d</x-y><!-- b -->\x7b\x7bthis\x7d\x7d</p>"
    let scope : Scope := { context := .string "--></p>'\"><script x=\"&amp;" }
    let scope' : Scope := { context := .string "c" }
    ∃ t, Template.ofSource {} source = .ok t ∧
      (∀ token ∈ (Reading.ofSource .template source).tokens, token.IsEscaped) ∧
      scope.NodeFree {} ∧ scope'.NodeFree {} ∧
      ∃ depth, 2 * nestingOf t.children + 3 ≤ depth ∧ ∃ tokens tokens',
        t.IsReadAs (({} : Environment Unit).hooks depth) scope none { notes := () } tokens ∧
        t.IsReadAs (({} : Environment Unit).hooks depth) scope' none { notes := () } tokens' ∧
        (NormalToken.withoutTexts tokens).map NormalToken.bare =
          (NormalToken.withoutTexts tokens').map NormalToken.bare := by
  intro source scope scope'
  obtain ⟨t, ht⟩ := exists_ofSource_of_isSome
    (show (Template.ofSource {} source).toOption.isSome by decide +kernel)
  have hescaped : ∀ token ∈ (Reading.ofSource .template source).tokens, token.IsEscaped := by
    decide +kernel
  have hscope : scope.NodeFree {} := Scope.nodeFree_string _ {}
  have hscope' : scope'.NodeFree {} := Scope.nodeFree_string _ {}
  exact ⟨t, ht, hescaped, hscope, hscope', _, Nat.le_refl _,
    exists_tokens_render ht hescaped (Nat.le_refl _) hscope hscope' (by simp) (by simp) rfl⟩

end Template

end LiveTemplate
