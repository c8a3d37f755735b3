import LiveTemplate.Proofs.Dom.Reordering
import LiveTemplate.Proofs.Dom.RoundTrip
import LiveTemplate.Proofs.Library.Interchanging
import LiveTemplate.Proofs.Template.Fallback

/-!
# LiveTemplate.Proofs.Render.Fallback

A component that no helper is registered for is rendered like the element in its place.

1. The attributes of a component are set in the order in which they stand in its tag, those of
   an element first where they are static.  Where no attribute stands there twice, the same are
   set (`perm_attributes`).
2. The body of a component is rendered apart, with the namespace that its element hands down,
   and its place keeps an empty text.  So a node stands for the same as with elements in the
   place of components, up to the order of attributes (`reordered_fallback`).
3. So do both templates of a source, with components and without
   (`Template.exists_shows_fallback`).
-/

namespace LiveTemplate

variable {σ : Type}

namespace Library

/-! ## attributes -/

section Attributes

variable (lib : Library) (scope : Scope) (heap : Heap)

/-- What an attribute of a component is set to.  Nullish values set none. -/
def assigned? (a : Attribute) : Option (String × String) :=
  let value := lib.paramValue scope heap a.value.param
  if value.isNullish then none else some (a.name, value.text)

/-- What is set for an attribute whose value is dynamic. -/
def dynamic? (a : Attribute) : Option (String × String) :=
  if a.static? = none then lib.assigned? scope heap a else none

variable {lib scope heap}

theorem assigned?_of_static? {a : Attribute} {entry : String × String}
    (h : a.static? = some entry) : lib.assigned? scope heap a = some entry := by
  rw [Attribute.static?] at h
  cases hvalue : a.value with
  | static s =>
    rw [hvalue] at h
    cases h
    simp only [assigned?, hvalue]
    rfl
  | bare i => simp [hvalue] at h
  | joined parts => simp [hvalue] at h

/-- The attributes of a component are set one after the other. -/
theorem setParams_eq (attributes : List Attribute) (d : Dict String) :
    lib.setParams scope heap (attributes.map fun a => (a.name, a.value.param)) d =
      (attributes.filterMap (lib.assigned? scope heap)).foldl
        (fun d (name, value) => d.set name value) d := by
  induction attributes generalizing d with
  | nil => rfl
  | cons a attributes ih =>
    rw [List.map_cons, setParams, ih]
    by_cases hnull : (lib.paramValue scope heap a.value.param).isNullish = true
    · rw [List.filterMap_cons_none (by simp only [assigned?, if_pos hnull])]
      simp only [if_pos hnull]
    · rw [List.filterMap_cons_some (by simp only [assigned?, if_neg hnull]; rfl)]
      simp only [if_neg hnull, List.foldl_cons]

theorem erase_of_not_mem {d : Dict String} {name : String} (h : name ∉ d.keys) :
    d.erase name = d := by
  obtain ⟨entries⟩ := d
  refine congrArg Dict.mk (List.filter_eq_self.2 fun entry hentry => ?_)
  exact bne_iff_ne.2 fun heq => h (List.mem_map.2 ⟨entry, hentry, heq⟩)

/-- What is set for a dynamic attribute of an element is what is set for that of a component. -/
theorem setAttribute_eq (hyields : lib.yields = []) {a : Attribute} (hstatic : a.static? = none)
    {d : Dict String} (hname : a.name ∉ d.keys) :
    lib.setAttribute scope heap a d =
      (lib.assigned? scope heap a).elim d fun entry => d.set entry.1 entry.2 := by
  rw [Attribute.static?] at hstatic
  rw [setAttribute]
  cases hvalue : a.value with
  | static s => simp [hvalue] at hstatic
  | bare i =>
    simp only [assigned?, hvalue, AttributeValue.param]
    split
    · exact erase_of_not_mem hname
    · rfl
  | joined parts =>
    have hcallee : lib.callee Builtin.concat.name = .builtin .concat := by
      rw [callee, hyields]
      rfl
    have hvalues : ∀ ps : List Param,
        lib.paramValues scope heap ps = ps.map (lib.paramValue scope heap) := by
      intro ps
      induction ps with
      | nil => rfl
      | cons p ps ih => rw [paramValues, ih, List.map_cons]
    simp only [assigned?, hvalue, AttributeValue.param, paramValue, callValue, calledValue, hcallee,
      hvalues, List.map_map]
    rfl

/-- The dynamic attributes of an element are set one after the other, where none is set twice. -/
theorem foldl_setAttribute_eq (hyields : lib.yields = []) (attributes : List Attribute)
    {d : Dict String}
    (hnames : (d.keys ++ (attributes.filter (·.static? = none)).map Attribute.name).Nodup) :
    attributes.foldl (fun d a => lib.setAttribute scope heap a d) d =
      (attributes.filterMap (lib.dynamic? scope heap)).foldl
        (fun d (name, value) => d.set name value) d := by
  induction attributes generalizing d with
  | nil => rfl
  | cons a attributes ih =>
    rw [List.foldl_cons]
    cases hstatic : a.static? with
    -- A static attribute has been set before and is left alone.
    | some entry =>
      have hset : lib.setAttribute scope heap a d = d := by
        rw [Attribute.static?] at hstatic
        cases hvalue : a.value with
        | static s => simp only [setAttribute, hvalue]
        | bare i => simp [hvalue] at hstatic
        | joined parts => simp [hvalue] at hstatic
      rw [List.filter_cons_of_neg (by simp [hstatic])] at hnames
      rw [hset, ih hnames, List.filterMap_cons_none (by simp [dynamic?, hstatic])]
    | none =>
      rw [List.filter_cons_of_pos (by simp [hstatic]), List.map_cons] at hnames
      have hname : a.name ∉ d.keys :=
        fun hmem => List.disjoint_of_nodup_append hnames hmem List.mem_cons_self
      have hdynamic : lib.dynamic? scope heap a = lib.assigned? scope heap a := if_pos hstatic
      rw [setAttribute_eq hyields hstatic hname]
      cases hassigned : lib.assigned? scope heap a with
      | none =>
        rw [List.filterMap_cons_none (by rw [hdynamic, hassigned]), Option.elim_none]
        exact ih ((hnames.sublist ((List.sublist_cons_self ..).append_left _)))
      | some entry =>
        rw [List.filterMap_cons_some (by rw [hdynamic, hassigned]), Option.elim_some,
          List.foldl_cons]
        have hentry : entry.1 = a.name := by
          rw [assigned?] at hassigned
          split at hassigned
          · cases hassigned
          · rw [← Option.some.inj hassigned]
        have hkeys : (d.set entry.1 entry.2).keys = d.keys ++ [a.name] := by
          rw [hentry, Dict.keys, Dict.set, Dict.setEntry_of_not_mem hname, List.map_append]
          rfl
        refine ih ?_
        rw [hkeys, List.append_assoc]
        exact hnames

/-- What is set for attributes, the static ones first. -/
theorem perm_filterMap_assigned? (attributes : List Attribute) :
    (attributes.filterMap (lib.assigned? scope heap)).Perm
      (attributes.filterMap Attribute.static? ++
        attributes.filterMap (lib.dynamic? scope heap)) := by
  induction attributes with
  | nil => exact .refl _
  | cons a attributes ih =>
    cases hstatic : a.static? with
    | some entry =>
      rw [List.filterMap_cons_some (assigned?_of_static? hstatic),
        List.filterMap_cons_some hstatic,
        List.filterMap_cons_none (by simp [dynamic?, hstatic])]
      exact ih.cons entry
    | none =>
      have hdynamic : lib.dynamic? scope heap a = lib.assigned? scope heap a := if_pos hstatic
      rw [List.filterMap_cons_none hstatic]
      cases hassigned : lib.assigned? scope heap a with
      | none =>
        rw [List.filterMap_cons_none hassigned,
          List.filterMap_cons_none (hdynamic.trans hassigned)]
        exact ih
      | some entry =>
        rw [List.filterMap_cons_some hassigned,
          List.filterMap_cons_some (hdynamic.trans hassigned)]
        exact (ih.cons entry).trans List.perm_middle.symm

/-- The names that are set for attributes are theirs. -/
theorem sublist_names_filterMap {f : Attribute → Option (String × String)}
    (hf : ∀ a entry, f a = some entry → entry.1 = a.name) (attributes : List Attribute) :
    ((attributes.filterMap f).map Prod.fst).Sublist (attributes.map Attribute.name) := by
  induction attributes with
  | nil => exact .slnil
  | cons a attributes ih =>
    cases ha : f a with
    | none =>
      rw [List.filterMap_cons_none ha]
      exact ih.cons _
    | some entry =>
      rw [List.filterMap_cons_some ha, List.map_cons, List.map_cons, hf a entry ha]
      exact ih.cons_cons _

/-- The static attributes and the others. -/
theorem perm_names (attributes : List Attribute) :
    ((attributes.filterMap Attribute.static?).map Prod.fst ++
      (attributes.filter (·.static? = none)).map Attribute.name).Perm
        (attributes.map Attribute.name) := by
  induction attributes with
  | nil => exact .refl _
  | cons a attributes ih =>
    cases hstatic : a.static? with
    | some entry =>
      have hentry : entry.1 = a.name := by
        rw [Attribute.static?] at hstatic
        split at hstatic <;> cases hstatic
        rfl
      rw [List.filterMap_cons_some hstatic, List.filter_cons_of_neg (by simp [hstatic]),
        List.map_cons, List.map_cons, hentry]
      exact ih.cons a.name
    | none =>
      rw [List.filterMap_cons_none hstatic, List.filter_cons_of_pos (by simp [hstatic]),
        List.map_cons, List.map_cons]
      exact List.perm_middle.trans (ih.cons a.name)

/-- A component without attributes that stand there twice gets the attributes of the element in its
place. -/
theorem perm_attributes (hyields : lib.yields = []) {tag : ComponentTag}
    (hnames : (tag.attributes.map Attribute.name).Nodup) :
    (lib.setParams scope heap tag.pairs {}).entries.Perm
      (lib.attributes scope heap tag.fallback).entries := by
  have hperm : (tag.attributes.filterMap (lib.assigned? scope heap)).Perm _ :=
    perm_filterMap_assigned? tag.attributes
  have hassigned : ((tag.attributes.filterMap (lib.assigned? scope heap)).map Prod.fst).Nodup := by
    refine hnames.sublist (sublist_names_filterMap (fun a entry h => ?_) tag.attributes)
    rw [assigned?] at h
    split at h <;> cases h
    rfl
  have hboth := (hperm.map Prod.fst).nodup hassigned
  have hstatic : tag.fallback.staticAttributes = ⟨tag.attributes.filterMap Attribute.static?⟩ := by
    rw [List.map_append] at hboth
    exact Dict.foldl_set_eq _ (d := {}) hboth.of_append_left
  have helement : lib.attributes scope heap tag.fallback =
      ⟨tag.attributes.filterMap Attribute.static? ++
        tag.attributes.filterMap (lib.dynamic? scope heap)⟩ := by
    show tag.attributes.foldl (fun d a => lib.setAttribute scope heap a d)
      tag.fallback.staticAttributes = _
    rw [hstatic, foldl_setAttribute_eq hyields _ ((perm_names _).symm.nodup hnames),
      Dict.foldl_set_eq _ hboth]
  rw [ComponentTag.pairs, setParams_eq, Dict.foldl_set_eq _ (by exact hassigned), helement]
  exact hperm

end Attributes

/-! ## nodes -/

mutual

theorem Node.isUniform_fallback : (node : Node) → node.IsTidy → node.fallback.IsUniform
  | .text .., _ => trivial
  | .comment .., _ => trivial
  | .insertion _, _ => trivial
  | .element _ children _, h => ⟨h.1, uniformAll_fallbackAll children h.2⟩
  | .component _ ⟨children, _, _⟩ _, h => ⟨h.1.uniform, uniformAll_fallbackAll children h.2.2⟩
  | .block _ ⟨children, _, _⟩ none _, h => uniformAll_fallbackAll children h
  | .block _ ⟨children, _, _⟩ (some _) _, h => uniformAll_fallbackAll children h

/-- With elements in the place of components there are no integration points either. -/
theorem uniformAll_fallbackAll : (nodes : List Node) → TidyAll nodes →
    UniformAll (fallbackAll nodes)
  | [], _ => trivial
  | node :: nodes, h => ⟨Node.isUniform_fallback node h.1, uniformAll_fallbackAll nodes h.2⟩

end

section Nodes

variable {lib : Library} {heap : Heap} {meaning : Meaning} {scope : Scope}

/-- A block without a helper does not show its body. -/
theorem nodeShown_block_congr (hyields : lib.yields = []) (call : Call) (body body' : Body Node)
    (inverse inverse' : Option (Body Node)) (span : Span) (root : Namespace)
    (around : Option Namespace) (inherited : Namespace) :
    lib.nodeShown heap meaning scope root around inherited (.block call body inverse span) =
      lib.nodeShown heap meaning scope root around inherited (.block call body' inverse' span) := by
  rw [nodeShown, nodeShown, contentTrees, contentTrees, calledTrees, calledTrees]
  cases hcallee : lib.callee call.path with
  | passThrough =>
    rw [callee, hyields, if_neg List.not_mem_nil] at hcallee
    split at hcallee <;> cases hcallee
  | builtin b => cases b <;> rfl
  | path => rfl

mutual

theorem Node.reordered_fallback (hyields : lib.yields = []) : (node : Node) → node.IsTidy →
    ∀ root around inherited, around.getD root = inherited →
      ReorderedAll
        (visibleForest (lib.nodeShown heap meaning scope root around inherited node))
        (visibleForest (lib.nodeShown heap meaning scope root around inherited node.fallback))
  | .text .., _, _, _, _, _ => .refl _
  | .comment .., _, _, _, _, _ => .refl _
  | .insertion _, _, _, _, _, _ => .refl _
  | .element tag children span, htidy, root, around, inherited, _ => by
    have hchildren := reordered_fallback hyields children htidy.2 root
      (knownNamespaceBelow tag.name (knownNamespace tag.name around)) _
      (nsBelow_getD htidy.1 around root)
    simp only [Node.fallback, nodeShown, visibleForest, Tree.visible, reduceCtorEq, if_false,
      List.append_nil]
    exact ⟨⟨.refl _, hchildren⟩, trivial⟩
  | .block call body none span, _, root, around, inherited, _ => by
    rw [Node.fallback, nodeShown_block_congr hyields call body (fallbackBody body) none none]
    exact .refl _
  | .block call body (some inverse) span, _, root, around, inherited, _ => by
    rw [Node.fallback, nodeShown_block_congr hyields call body (fallbackBody body) (some inverse)
      (some (fallbackBody inverse))]
    exact .refl _
  | .component tag ⟨children, blockParams, within⟩ span, htidy, root, around, inherited, h => by
    obtain ⟨htag, rfl, hchildren⟩ := htidy
    have hcallee : lib.callee tag.name = .path := by
      rw [callee, hyields, if_neg List.not_mem_nil, htag.helper]
    have hown : (knownNamespace tag.name around).getD root = .ofElement tag.name inherited := by
      rw [knownNamespace_getD, h]
    -- The element hands the namespace down that its component has handed to the body.
    let below := (Namespace.ofElement tag.name inherited).below tag.name
    have hbelow : none.getD below =
        (knownNamespaceBelow tag.name (knownNamespace tag.name around)).getD root := by
      have huniform : isIntegrationPoint tag.fallback.name = false := htag.uniform
      rw [Option.getD_none, show below = ((knownNamespace tag.name around).getD root).below tag.name
        by rw [hown]]
      exact (nsBelow_getD huniform around root).symm
    have hbody := reordered_fallback hyields children hchildren below none below rfl
    rw [nodesShown_of_uniform (uniformAll_fallbackAll children hchildren) hbelow below] at hbody
    simp only [Node.fallback, nodeShown, componentTrees, hcallee, bodyShown, visibleForest,
      Tree.visible, reduceCtorEq, if_false, List.append_nil, visibleForest_append]
    rw [show tag.fallback.name = tag.name from rfl, hown]
    exact ⟨⟨.element _ _ (perm_attributes hyields htag.names), hbody⟩, trivial⟩

/-- Tidy nodes stand for the same with elements in the place of components, up to the order of
attributes. -/
theorem reordered_fallback (hyields : lib.yields = []) : (nodes : List Node) → TidyAll nodes →
    ∀ root around inherited, around.getD root = inherited →
      ReorderedAll
        (visibleForest (lib.nodesShown heap meaning scope root around inherited nodes))
        (visibleForest (lib.nodesShown heap meaning scope root around inherited
          (fallbackAll nodes)))
  | [], _, _, _, _, _ => trivial
  | node :: nodes, htidy, root, around, inherited, h => by
    rw [fallbackAll, nodesShown, nodesShown, visibleForest_append, visibleForest_append]
    exact (Node.reordered_fallback hyields node htidy.1 root around inherited h).append
      (reordered_fallback hyields nodes htidy.2 root around inherited h)

end

end Nodes

/-- Where no partials are registered, none asks for another. -/
theorem settled_empty (heap : Heap) (scope : Scope) (nodes : List Node) :
    ({} : Library).Settled heap scope nodes :=
  fun _ _ => .intro _ fun _ hasked => absurd hasked.mem_keys List.not_mem_nil

end Library

/-! ## renders -/

namespace Template

/-- A source that is accepted is accepted without components.  Where no tag has an attribute twice
or is an integration point, and no helpers and partials are registered, both templates are rendered
with values none of which is a node by hooks that are deep enough.  What comes of them are the same
trees up to the order of the attributes of each element and to empty texts, which are not written:
a component that is rendered leaves one behind it. -/
theorem exists_shows_fallback {options : TemplateOptions} {source : String} {t : Template}
    (h : Template.ofSource options source = .ok t)
    (htidy : ∀ token ∈ (Reading.ofSource .template source).tokens, token.IsTidy) {scope : Scope}
    {heap : Heap} (hscope : scope.NodeFree heap) :
    ∃ t', Template.ofSource { options with components := false } source = .ok t' ∧
      ∃ least, ∀ depth, least ≤ depth → ∀ (context : Option NodeId) (w : World σ),
        w.heap = heap → (∀ id, context = some id → id.index < w.dom.size) →
          ∃ ts us, t.Shows (({} : Environment σ).hooks depth) scope context w ts ∧
            t'.Shows (({} : Environment σ).hooks depth) scope context w us ∧
            ReorderedAll (visibleForest ts) (visibleForest us) ∧
            forestHtml (visibleForest ts) = forestHtml ts ∧
            forestHtml (visibleForest us) = forestHtml us := by
  obtain ⟨t', ht', hfallback⟩ := exists_ofSource_fallback h
  refine ⟨t', ht', ?_⟩
  obtain ⟨least, hrenders⟩ := Library.exists_renders_shown (σ := σ) {} t hscope
    (Library.settled_empty heap scope t.children)
  obtain ⟨least', hrenders'⟩ := Library.exists_renders_shown (σ := σ) {} t' hscope
    (Library.settled_empty heap scope t'.children)
  refine ⟨max least least', fun depth hdepth context w hheap hcontext => ⟨_, _,
    hrenders.shows (Nat.le_trans (Nat.le_max_left ..) hdepth) hheap hcontext,
    hrenders'.shows (Nat.le_trans (Nat.le_max_right ..) hdepth) hheap hcontext, ?_,
    forestHtml_visibleForest _, forestHtml_visibleForest _⟩⟩
  have hreordered : ∀ t : Template, TidyAll t.children → ReorderedAll
      (visibleForest (({} : Library).shown heap (Library.meaning {} heap) scope
        (w.dom.nsBelow context) t))
      (visibleForest (({} : Library).nodesShown heap (Library.meaning {} heap) scope
        (w.dom.nsBelow context) none (w.dom.nsBelow context) (fallbackAll t.children))) :=
    fun t htidy => Library.reordered_fallback rfl t.children htidy _ none _ rfl
  have hboth := (hreordered t' (Template.tidyAll ht' htidy)).symm
  rw [hfallback] at hboth
  exact (hreordered t (Template.tidyAll h htidy)).trans hboth

/-- Components in an element and in one another, with attributes of every kind. -/
theorem exists_shows_fallback_nested :
    let source := "<p><x-y a=\x7b\x7bthis\x7d\x7d b='c' d='\x7b\x7bthis\x7d\x7d e'>" ++
      "<x-z f=\x7b\x7bconcat this 'g'\x7d\x7d />\x7b\x7bthis\x7d\x7d</x-y></p>"
    let scope : Scope := { context := .string "h" }
    ∃ t, Template.ofSource {} source = .ok t ∧
      (∀ token ∈ (Reading.ofSource .template source).tokens, token.IsTidy) ∧
      scope.NodeFree {} ∧
      ∃ t', Template.ofSource { components := false } source = .ok t' ∧
        ∃ least, ∀ depth, least ≤ depth →
          ∃ ts us,
            t.Shows (({} : Environment Unit).hooks depth) scope none { notes := () } ts ∧
            t'.Shows (({} : Environment Unit).hooks depth) scope none { notes := () } us ∧
            ReorderedAll (visibleForest ts) (visibleForest us) ∧
            forestHtml (visibleForest ts) = forestHtml ts ∧
            forestHtml (visibleForest us) = forestHtml us := by
  intro source scope
  obtain ⟨t, ht⟩ := exists_ofSource_of_isSome
    (show (Template.ofSource {} source).toOption.isSome by decide +kernel)
  have htidy : ∀ token ∈ (Reading.ofSource .template source).tokens, token.IsTidy := by
    decide +kernel
  have hscope : scope.NodeFree {} := Scope.nodeFree_string _ {}
  obtain ⟨t', ht', least, hshows⟩ := exists_shows_fallback (σ := Unit) ht htidy hscope
  exact ⟨t, ht, htidy, hscope, t', ht', least,
    fun depth hdepth => hshows depth hdepth none { notes := () } rfl (by simp)⟩

end Template

end LiveTemplate
