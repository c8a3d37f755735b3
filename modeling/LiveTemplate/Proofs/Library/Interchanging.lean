import LiveTemplate.Proofs.Library.Chains
import LiveTemplate.Proofs.Library.Rendering
import LiveTemplate.Proofs.Render.Agreement

/-!
# LiveTemplate.Proofs.Library.Interchanging

Nodes can be given inline, by a partial, or in a block whose helper renders what it encloses.

1. Nodes are `Interchangeable` if they are the same up to such replacements, at any depth.
2. A partial and a body are rendered apart from the nodes around them, with the namespace that
   is handed down there.  Where there are no integration points, this is all that nodes get
   from outside (`nodesShown_of_uniform`).
3. The mustache or the block leaves an empty text behind, which nothing shows (`visible`).  So
   interchangeable nodes stand for the same (`Interchangeable.means`), and templates of them are
   rendered as the same (`exists_shows_interchangeable`).
-/

namespace LiveTemplate

variable {σ : Type}

/-! ## what is visible -/

mutual

/-- A tree without empty texts. -/
def Tree.visible : Markup → List Markup
  | .node l data children => if data = .text "" then [] else [.node l data (visibleForest children)]

/-- Trees without empty texts. -/
def visibleForest : List Markup → List Markup
  | [] => []
  | t :: ts => t.visible ++ visibleForest ts

end

theorem visibleForest_append (ts us : List Markup) :
    visibleForest (ts ++ us) = visibleForest ts ++ visibleForest us := by
  induction ts with
  | nil => rfl
  | cons t ts ih => rw [List.cons_append, visibleForest, ih, visibleForest, List.append_assoc]

theorem visibleForest_empty : visibleForest [.node () (.text "") []] = [] := rfl

mutual

theorem Tree.forestHtml_visible : (t : Markup) → forestHtml t.visible = t.html
  | .node l data children => by
    rw [Tree.visible]
    split
    · next h =>
      rw [h]
      rfl
    · rw [forestHtml, Tree.html, forestHtml_visibleForest children, Tree.html]
      exact List.append_nil _

/-- Empty texts are not written. -/
theorem forestHtml_visibleForest : (ts : List Markup) →
    forestHtml (visibleForest ts) = forestHtml ts
  | [] => rfl
  | t :: ts => by
    rw [visibleForest, forestHtml_append, t.forestHtml_visible, forestHtml_visibleForest ts,
      forestHtml]

end

/-! ## uniform nodes -/

mutual

/-- No element in a node is an integration point, at any depth.  Parts behind `else` do not
count. -/
def Node.IsUniform : Node → Prop
  | .element tag children _ => isIntegrationPoint tag.name = false ∧ UniformAll children
  | .block _ body _ _ | .component _ body _ => UniformBody body
  | .text .. | .comment .. | .insertion _ => True

/-- No element in a body is an integration point. -/
def UniformBody : Body Node → Prop
  | ⟨children, _, _⟩ => UniformAll children

/-- No element in nodes is an integration point. -/
def UniformAll : List Node → Prop
  | [] => True
  | node :: nodes => node.IsUniform ∧ UniformAll nodes

end

theorem uniformAll_append {nodes nodes' : List Node} :
    UniformAll (nodes ++ nodes') ↔ UniformAll nodes ∧ UniformAll nodes' := by
  induction nodes with
  | nil => simp [UniformAll]
  | cons node nodes ih => simp [UniformAll, ih, and_assoc]

theorem Node.IsUniform.children {node : Node} (h : node.IsUniform) : UniformAll node.children := by
  cases node with
  | element tag children span => exact h.2
  | _ => trivial

namespace Library

variable {lib : Library} {heap : Heap} {meaning : Meaning} {scope : Scope}

/-- Uniform nodes get nothing but a namespace from outside. -/
theorem nodesShown_of_uniform {nodes : List Node} (h : UniformAll nodes) {root root' : Namespace}
    {around around' : Option Namespace} (hsame : around.getD root = around'.getD root')
    (inherited : Namespace) :
    lib.nodesShown heap meaning scope root around inherited nodes =
      lib.nodesShown heap meaning scope root' around' inherited nodes := by
  induction nodes using nodes_induction generalizing around around' inherited with
  | nil => rfl
  | cons node nodes ihchildren ihnodes =>
    rw [nodesShown, nodesShown, ihnodes h.2 hsame]
    congr 1
    cases node with
    | element tag children span =>
      have hown : (knownNamespace tag.name around).getD root =
          (knownNamespace tag.name around').getD root' := by
        rw [knownNamespace_getD, knownNamespace_getD, hsame]
      have hbelow : (knownNamespaceBelow tag.name (knownNamespace tag.name around)).getD root =
          (knownNamespaceBelow tag.name (knownNamespace tag.name around')).getD root' := by
        rw [nsBelow_getD h.1.1, nsBelow_getD h.1.1, hown]
      have hchildren := ihchildren h.1.children hbelow
      rw [Node.children] at hchildren
      rw [nodeShown, nodeShown, hown, hchildren]
    | _ => rfl

/-! ## interchangeable nodes -/

/-- Nodes that are the same but for nodes given inline here, and by a partial or in a block whose
helper renders what it encloses there. -/
inductive Interchangeable (lib : Library) : List Node → List Node → Prop
  | refl (nodes : List Node) : lib.Interchangeable nodes nodes
  | symm {nodes nodes' : List Node} :
    lib.Interchangeable nodes nodes' → lib.Interchangeable nodes' nodes
  | trans {nodes nodes' nodes'' : List Node} :
    lib.Interchangeable nodes nodes' → lib.Interchangeable nodes' nodes'' →
      lib.Interchangeable nodes nodes''
  | append {before before' after after' : List Node} :
    lib.Interchangeable before before' → lib.Interchangeable after after' →
      lib.Interchangeable (before ++ after) (before' ++ after')
  | element (tag : ElementTag) (span : Span) {children children' : List Node} :
    lib.Interchangeable children children' →
      lib.Interchangeable [.element tag children span] [.element tag children' span]
  | component (tag : ComponentTag) (blockParams : List String) (within span : Span)
      {children children' : List Node} :
    lib.Interchangeable children children' →
      lib.Interchangeable [.component tag ⟨children, blockParams, within⟩ span]
        [.component tag ⟨children', blockParams, within⟩ span]
  | block (call : Call) (blockParams : List String) (inverse : Option (Body Node))
      (within span : Span) {children children' : List Node} :
    lib.Interchangeable children children' →
      lib.Interchangeable [.block call ⟨children, blockParams, within⟩ inverse span]
        [.block call ⟨children', blockParams, within⟩ inverse span]
  | inverse (call : Call) (body : Body Node) (blockParams : List String) (within span : Span)
      {children children' : List Node} :
    lib.Interchangeable children children' →
      lib.Interchangeable [.block call body (some ⟨children, blockParams, within⟩) span]
        [.block call body (some ⟨children', blockParams, within⟩) span]
  /-- A mustache asks for a partial, unless a helper has taken the name. -/
  | called {name : String} {t : Template} (escaped : Bool) (span : Span) :
    lib.partials.get? name = some t → "partial" ∉ lib.yields →
      lib.Interchangeable
        [.insertion ⟨{ path := "partial", params := [.string name] }, escaped, span⟩] t.children
  | enclosed {helper : String} (literal : Option Param) (inverse : Option (Body Node))
      (within span : Span) (nodes : List Node) :
    helper ∈ lib.yields →
      lib.Interchangeable [.block { path := helper, literal } ⟨nodes, [], within⟩ inverse span] nodes

/-- Nodes ask for partials in no endless chain if the others do not, and stand for the same. -/
structure Means (lib : Library) (heap : Heap) (nodes nodes' : List Node) : Prop where
  uniform : UniformAll nodes ↔ UniformAll nodes'
  settled : ∀ scope, lib.Settled heap scope nodes ↔ lib.Settled heap scope nodes'
  visible : UniformAll nodes → ∀ scope, lib.Settled heap scope nodes → ∀ ns,
    visibleForest (lib.nodesShown heap (lib.meaning heap) scope ns none ns nodes) =
      visibleForest (lib.nodesShown heap (lib.meaning heap) scope ns none ns nodes')

section Means

variable {nodes nodes' nodes'' before before' after after' children children' : List Node}

theorem nodesShown_append (root : Namespace) (around : Option Namespace) (inherited : Namespace) :
    lib.nodesShown heap meaning scope root around inherited (before ++ after) =
      lib.nodesShown heap meaning scope root around inherited before ++
        lib.nodesShown heap meaning scope root around inherited after := by
  induction before with
  | nil => rfl
  | cons node before ih => rw [List.cons_append, nodesShown, ih, nodesShown, List.append_assoc]

theorem nodesRequests_append :
    lib.nodesRequests heap scope (before ++ after) =
      lib.nodesRequests heap scope before ++ lib.nodesRequests heap scope after := by
  induction before with
  | nil => rfl
  | cons node before ih =>
    rw [List.cons_append, nodesRequests, ih, nodesRequests, List.append_assoc]

theorem settled_append :
    lib.Settled heap scope (before ++ after) ↔
      lib.Settled heap scope before ∧ lib.Settled heap scope after := by
  rw [Settled, nodesRequests_append, List.forall_mem_append, Settled, Settled]

/-- An element is settled if its modifiers and attributes are, and its children. -/
theorem settled_element (tag : ElementTag) (span : Span) :
    lib.Settled heap scope [.element tag children span] ↔
      (∀ r ∈ (lib.tagRequests scope heap tag).map (·, scope), Acc (lib.AskedBy heap) r) ∧
        lib.Settled heap scope children := by
  rw [Settled, nodesRequests, nodesRequests, List.append_nil, nodeRequests, List.forall_mem_append,
    Settled]

namespace Means

theorem refl (nodes : List Node) : lib.Means heap nodes nodes :=
  ⟨.rfl, fun _ => .rfl, fun _ _ _ _ => rfl⟩

theorem symm (h : lib.Means heap nodes nodes') : lib.Means heap nodes' nodes where
  uniform := h.uniform.symm
  settled scope := (h.settled scope).symm
  visible huniform scope hsettled ns :=
    (h.visible (h.uniform.2 huniform) scope ((h.settled scope).2 hsettled) ns).symm

theorem trans (h : lib.Means heap nodes nodes') (h' : lib.Means heap nodes' nodes'') :
    lib.Means heap nodes nodes'' where
  uniform := h.uniform.trans h'.uniform
  settled scope := (h.settled scope).trans (h'.settled scope)
  visible huniform scope hsettled ns := by
    rw [h.visible huniform scope hsettled ns]
    exact h'.visible (h.uniform.1 huniform) scope ((h.settled scope).1 hsettled) ns

theorem append (hbefore : lib.Means heap before before') (hafter : lib.Means heap after after') :
    lib.Means heap (before ++ after) (before' ++ after') where
  uniform := by rw [uniformAll_append, uniformAll_append, hbefore.uniform, hafter.uniform]
  settled scope := by
    rw [settled_append, settled_append, hbefore.settled scope, hafter.settled scope]
  visible huniform scope hsettled ns := by
    rw [uniformAll_append] at huniform
    rw [settled_append] at hsettled
    rw [nodesShown_append, nodesShown_append, visibleForest_append, visibleForest_append,
      hbefore.visible huniform.1 scope hsettled.1 ns, hafter.visible huniform.2 scope hsettled.2 ns]

/-- The children of an element get the namespace that it hands down. -/
theorem element (tag : ElementTag) (span : Span) (h : lib.Means heap children children') :
    lib.Means heap [.element tag children span] [.element tag children' span] where
  uniform := by simp only [UniformAll, Node.IsUniform, h.uniform]
  settled scope := by rw [settled_element, settled_element, h.settled scope]
  visible huniform scope hsettled ns := by
    rw [settled_element] at hsettled
    have hfree := huniform.1.1
    have hchildren : UniformAll children := huniform.1.2
    have hbelow : ∀ nodes, UniformAll nodes →
        lib.nodesShown heap (lib.meaning heap) scope ns
            (knownNamespaceBelow tag.name (knownNamespace tag.name none))
            (((knownNamespace tag.name none).getD ns).below tag.name) nodes =
          lib.nodesShown heap (lib.meaning heap) scope
            (((knownNamespace tag.name none).getD ns).below tag.name) none
            (((knownNamespace tag.name none).getD ns).below tag.name) nodes :=
      fun nodes hnodes => nodesShown_of_uniform hnodes (nsBelow_getD hfree none ns) _
    simp only [nodesShown, nodeShown, List.append_nil, visibleForest, Tree.visible]
    rw [hbelow children hchildren, hbelow children' (h.uniform.1 hchildren),
      h.visible hchildren scope hsettled.2]

/-- A body is rendered with the namespace that is handed down to it. -/
theorem body (h : lib.Means heap children children') (blockParams : List String) (within : Span)
    (scope : Scope) :
    ((∀ r ∈ lib.bodyRequests heap scope ⟨children, blockParams, within⟩,
        Acc (lib.AskedBy heap) r) ↔
      ∀ r ∈ lib.bodyRequests heap scope ⟨children', blockParams, within⟩,
        Acc (lib.AskedBy heap) r) ∧
    (UniformAll children → (∀ r ∈ lib.bodyRequests heap scope ⟨children, blockParams, within⟩,
        Acc (lib.AskedBy heap) r) → ∀ ns,
      visibleForest (lib.bodyShown heap (lib.meaning heap) scope ns
          ⟨children, blockParams, within⟩) =
        visibleForest (lib.bodyShown heap (lib.meaning heap) scope ns
          ⟨children', blockParams, within⟩)) :=
  ⟨h.settled (scope.bind blockParams []),
    fun huniform hsettled => h.visible huniform (scope.bind blockParams []) hsettled⟩

/-- What a name calls is visible as before if what is enclosed is, where it is shown at all. -/
theorem visibleForest_calledTrees {path : String} {enclosed enclosed' : List Markup}
    (h : lib.callee path = .passThrough → visibleForest enclosed = visibleForest enclosed')
    (escaped : Bool) (ns : Namespace) (params : List Value) (value : Value) :
    visibleForest (lib.calledTrees meaning scope escaped ns path params value enclosed) =
      visibleForest (lib.calledTrees meaning scope escaped ns path params value enclosed') := by
  rw [calledTrees, calledTrees]
  cases hcallee : lib.callee path with
  | passThrough => exact h hcallee
  | builtin b => cases b <;> rfl
  | path => rfl

theorem block (call : Call) (blockParams : List String) (inverse : Option (Body Node))
    (within span : Span) (h : lib.Means heap children children') :
    lib.Means heap [.block call ⟨children, blockParams, within⟩ inverse span]
      [.block call ⟨children', blockParams, within⟩ inverse span] where
  uniform := by simp only [UniformAll, Node.IsUniform, UniformBody, h.uniform]
  settled scope := by
    simp only [Settled, nodesRequests, nodeRequests, List.append_nil, List.forall_mem_append]
    cases lib.callee call.path with
    | passThrough => rw [(h.body blockParams within scope).1]
    | builtin b => rfl
    | path => rfl
  visible huniform scope hsettled ns := by
    simp only [Settled, nodesRequests, nodeRequests, List.append_nil, List.forall_mem_append]
      at hsettled
    simp only [nodesShown, nodeShown, List.append_nil, visibleForest_append, visibleForest_empty]
    refine visibleForest_calledTrees (fun hcallee => ?_) ..
    rw [hcallee] at hsettled
    exact (h.body blockParams within scope).2 huniform.1 hsettled.2 ns

theorem component (tag : ComponentTag) (blockParams : List String) (within span : Span)
    (h : lib.Means heap children children') :
    lib.Means heap [.component tag ⟨children, blockParams, within⟩ span]
      [.component tag ⟨children', blockParams, within⟩ span] where
  uniform := by simp only [UniformAll, Node.IsUniform, UniformBody, h.uniform]
  settled scope := by
    simp only [Settled, nodesRequests, nodeRequests, List.append_nil, List.forall_mem_append]
    cases lib.callee tag.name with
    | passThrough => rw [(h.body blockParams within scope).1]
    | path => rw [(h.body blockParams within scope).1]
    | builtin b => rfl
  visible huniform scope hsettled ns := by
    simp only [Settled, nodesRequests, nodeRequests, List.append_nil, List.forall_mem_append]
      at hsettled
    simp only [nodesShown, nodeShown, List.append_nil, visibleForest_append, visibleForest_empty]
    rw [componentTrees, componentTrees]
    cases hcallee : lib.callee tag.name with
    | path =>
      rw [hcallee] at hsettled
      simp only [visibleForest, Tree.visible]
      rw [(h.body blockParams within scope).2 huniform.1 hsettled.2]
    | passThrough =>
      rw [hcallee] at hsettled
      exact visibleForest_calledTrees
        (fun _ => (h.body blockParams within scope).2 huniform.1 hsettled.2 ns) ..
    | builtin b =>
      refine visibleForest_calledTrees (fun hpass => ?_) ..
      rw [hcallee] at hpass
      cases hpass

/-- What stands behind `else` is not rendered. -/
theorem inverse (call : Call) (body : Body Node) (inverse inverse' : Option (Body Node))
    (span : Span) :
    lib.Means heap [.block call body inverse span] [.block call body inverse' span] :=
  ⟨.rfl, fun _ => .rfl, fun _ _ _ _ => rfl⟩

/-- A mustache stands for the partial it asks for. -/
theorem called {name : String} {t : Template} (escaped : Bool) (span : Span)
    (ht : lib.partials.get? name = some t) (huniform : UniformAll t.children)
    (hpartial : "partial" ∉ lib.yields) :
    lib.Means heap [.insertion ⟨{ path := "partial", params := [.string name] }, escaped, span⟩]
      t.children := by
  have hcallee : lib.callee "partial" = .builtin .renderPartial := by
    rw [callee, if_neg hpartial]
    rfl
  have hregistered : lib.partials.contains name = true := by
    rw [Dict.contains, ht]
    rfl
  have hname : partialName [.string name] = name := rfl
  have hrequests : ∀ scope, lib.nodesRequests heap scope
      [.insertion ⟨{ path := "partial", params := [.string name] }, escaped, span⟩] =
        [(name, scope)] := by
    intro scope
    simp only [nodesRequests, nodeRequests, contentRequests, argumentRequests, paramsRequests,
      paramRequests, pairsRequests, paramValues, paramValue, calledRequests, hcallee, hname,
      hregistered]
    rfl
  have hsettled : ∀ scope, lib.Settled heap scope
      [.insertion ⟨{ path := "partial", params := [.string name] }, escaped, span⟩] ↔
        Acc (lib.AskedBy heap) (name, scope) := by
    intro scope
    rw [Settled, hrequests, List.forall_mem_singleton]
  refine ⟨iff_of_true ⟨trivial, trivial⟩ huniform, fun scope => ?_, fun _ scope h ns => ?_⟩
  · rw [hsettled]
    refine ⟨fun h r hr => h.inv ⟨t, ht, hr⟩, fun h => .intro _ fun r hr => ?_⟩
    obtain ⟨t', ht', hr⟩ := hr
    obtain rfl := Option.some.inj (ht.symm.trans ht')
    exact h r hr
  · rw [hsettled] at h
    simp only [nodesShown, nodeShown, List.append_nil, visibleForest_append, visibleForest_empty]
    rw [contentTrees, calledTrees, hcallee]
    simp only [paramValues, paramValue, hname, hregistered, if_true]
    rw [meaning_eq ht h, shown]

/-- A block whose helper renders what it encloses stands for that. -/
theorem enclosed {helper : String} (literal : Option Param) (inverse : Option (Body Node))
    (within span : Span) (nodes : List Node) (hhelper : helper ∈ lib.yields) :
    lib.Means heap [.block { path := helper, literal } ⟨nodes, [], within⟩ inverse span] nodes := by
  have hcallee : lib.callee helper = .passThrough := if_pos hhelper
  have hrequests : ∀ scope, lib.nodesRequests heap scope
      [.block { path := helper, literal } ⟨nodes, [], within⟩ inverse span] =
        lib.nodesRequests heap scope nodes := by
    intro scope
    simp only [nodesRequests, nodeRequests, contentRequests, argumentRequests, paramsRequests,
      pairsRequests, calledRequests, hcallee, bodyRequests, List.append_nil]
    rfl
  refine ⟨by simp only [UniformAll, Node.IsUniform, UniformBody, and_true],
    fun scope => by rw [Settled, Settled, hrequests], fun _ scope _ ns => ?_⟩
  simp only [nodesShown, nodeShown, List.append_nil, visibleForest_append, visibleForest_empty]
  rw [contentTrees, calledTrees, hcallee]
  rfl

end Means

end Means

/-- Nodes that are interchangeable stand for the same. -/
theorem Interchangeable.means
    (hpartials : ∀ name t, lib.partials.get? name = some t → UniformAll t.children)
    {nodes nodes' : List Node} (h : lib.Interchangeable nodes nodes') :
    lib.Means heap nodes nodes' := by
  induction h with
  | refl nodes => exact .refl nodes
  | symm _ ih => exact ih.symm
  | trans _ _ ih ih' => exact ih.trans ih'
  | append _ _ ihbefore ihafter => exact ihbefore.append ihafter
  | element tag span _ ih => exact ih.element tag span
  | component tag blockParams within span _ ih => exact ih.component tag blockParams within span
  | block call blockParams inverse within span _ ih =>
    exact ih.block call blockParams inverse within span
  | inverse call body blockParams within span _ _ => exact .inverse call body _ _ span
  | called escaped span ht hpartial => exact .called escaped span ht (hpartials _ _ ht) hpartial
  | enclosed literal inverse within span nodes hhelper =>
    exact .enclosed literal inverse within span nodes hhelper

/-! ## renders -/

/-- Interchangeable templates without integration points, whose partials have none either and do not
reach themselves, are rendered as the same, up to empty texts, by hooks that are deep enough. -/
theorem exists_shows_interchangeable {t t' : Template}
    (h : lib.Interchangeable t.children t'.children) (huniform : UniformAll t.children)
    (hpartials : ∀ name t, lib.partials.get? name = some t → UniformAll t.children)
    (hscope : scope.NodeFree heap) (hacyclic : lib.Acyclic heap scope t.children) :
    ∃ least, ∀ depth, least ≤ depth → ∀ (context : Option NodeId) (w : World σ), w.heap = heap →
      (∀ id, context = some id → id.index < w.dom.size) → ∃ trees trees',
        t.Shows (lib.environment.hooks depth) scope context w trees ∧
          t'.Shows (lib.environment.hooks depth) scope context w trees' ∧
          visibleForest trees = visibleForest trees' ∧ forestHtml trees = forestHtml trees' := by
  have hmeans : lib.Means heap t.children t'.children := h.means hpartials
  have hsettled := hacyclic.settled
  obtain ⟨least, hrenders⟩ := exists_renders_shown (σ := σ) lib t hscope hsettled
  obtain ⟨least', hrenders'⟩ :=
    exists_renders_shown (σ := σ) lib t' hscope ((hmeans.settled scope).1 hsettled)
  refine ⟨max least least', fun depth hdepth context w hheap hcontext => ?_⟩
  have hvisible := hmeans.visible huniform scope hsettled (w.dom.nsBelow context)
  refine ⟨_, _, hrenders.shows (Nat.le_trans (Nat.le_max_left ..) hdepth) hheap hcontext,
    hrenders'.shows (Nat.le_trans (Nat.le_max_right ..) hdepth) hheap hcontext, hvisible, ?_⟩
  rw [← forestHtml_visibleForest, shown, hvisible, forestHtml_visibleForest]
  rfl

/-- An element without attributes. -/
def bare (name : String) (children : List Node) : Node :=
  .element ⟨name, .xhtml, [], [], false⟩ children {}

/-- The mustache of a partial. -/
def mustacheOf (name : String) : Node :=
  .insertion ⟨{ path := "partial", params := [.string name] }, true, {}⟩

/-- A heading with the context in it. -/
def heading : Template where
  children := [bare "h1" [.insertion ⟨{ path := "this" }, true, {}⟩]]

/-- A heading, and a panel with the heading in a block. -/
def panels : Library where
  partials := ⟨[
    ("panel", { children := [
      bare "section" [.block { path := "wrap" } { children := [mustacheOf "heading"] } none {}],
      .text "b" {}] }),
    ("heading", heading)]⟩
  yields := ["wrap"]

/-- The panel where its partial is called, and where its nodes are inline. -/
theorem exists_shows_interchangeable_panel :
    let t : Template := { children := [mustacheOf "panel"] }
    let t' : Template := { children := [bare "section" heading.children, .text "b" {}] }
    let scope : Scope := { context := .string "a" }
    panels.Interchangeable t.children t'.children ∧ UniformAll t.children ∧
      (∀ name t, panels.partials.get? name = some t → UniformAll t.children) ∧
      scope.NodeFree {} ∧ panels.Acyclic {} scope t.children ∧
      ∃ least, ∀ depth, least ≤ depth → ∃ trees trees',
        t.Shows (panels.environment.hooks depth) scope none ({ notes := () } : World Unit) trees ∧
          t'.Shows (panels.environment.hooks depth) scope none ({ notes := () } : World Unit)
            trees' ∧
          visibleForest trees = visibleForest trees' ∧ forestHtml trees = forestHtml trees' := by
  intro t t' scope
  have hpartial : "partial" ∉ panels.yields := by decide
  have hinterchangeable : panels.Interchangeable t.children t'.children := by
    refine .trans (.called true {} rfl hpartial) ?_
    refine .append (.element _ _ ?_) (.refl [.text "b" {}])
    exact .trans (.enclosed none none {} {} _ (by decide)) (.called (t := heading) true {} rfl hpartial)
  have hpartials : ∀ name t, panels.partials.get? name = some t → UniformAll t.children := by
    intro name t ht
    have hmem := mem_entries_of_get? ht
    simp only [panels, List.mem_cons, Prod.mk.injEq, List.not_mem_nil, or_false] at hmem
    rcases hmem with ⟨-, rfl⟩ | ⟨-, rfl⟩
    · exact ⟨⟨rfl, ⟨trivial, trivial⟩, trivial⟩, trivial, trivial⟩
    · exact ⟨⟨rfl, trivial, trivial⟩, trivial⟩
  have hscope : scope.NodeFree {} := Scope.nodeFree_string _ {}
  have hacyclic : panels.Acyclic {} scope t.children := by
    refine acyclic_of_rank (fun name => if name = "panel" then 1 else 0) fun r r' h => ?_
    obtain ⟨t, ht, hr'⟩ := h
    have hmem := mem_entries_of_get? ht
    simp only [panels, List.mem_cons, Prod.mk.injEq, List.not_mem_nil, or_false] at hmem
    rcases hmem with ⟨hname, rfl⟩ | ⟨hname, rfl⟩
    · obtain rfl : r' = ("heading", r.2) := List.mem_singleton.1 hr'
      simp [hname]
    · exact absurd hr' List.not_mem_nil
  obtain ⟨least, h⟩ := exists_shows_interchangeable (σ := Unit) hinterchangeable ⟨trivial, trivial⟩
    hpartials hscope hacyclic
  exact ⟨hinterchangeable, ⟨trivial, trivial⟩, hpartials, hscope, hacyclic, least,
    fun depth hdepth => h depth hdepth none { notes := () } rfl (by simp)⟩

/-- A helper that takes the name of the mustache renders the nothing that the mustache encloses, and
the partial is not shown. -/
theorem not_interchangeable_shadowed :
    let lib : Library := { partials := ⟨[("heading", heading)]⟩, yields := ["partial"] }
    let t : Template := { children := [mustacheOf "heading"] }
    let scope : Scope := { context := .string "a" }
    scope.NodeFree {} ∧ UniformAll heading.children ∧ lib.Acyclic {} scope t.children ∧
      ∃ least, ∀ depth, least ≤ depth → ∃ trees trees',
        t.Shows (lib.environment.hooks depth) scope none ({ notes := () } : World Unit) trees ∧
          heading.Shows (lib.environment.hooks depth) scope none ({ notes := () } : World Unit)
            trees' ∧
          String.ofList (forestHtml trees) = "" ∧
          String.ofList (forestHtml trees') = "<h1>a</h1>" := by
  intro lib t scope
  have hscope : scope.NodeFree {} := Scope.nodeFree_string _ {}
  obtain ⟨least, hrenders⟩ := exists_renders_shown (σ := Unit) lib t hscope
    fun r hr => absurd hr List.not_mem_nil
  obtain ⟨least', hrenders'⟩ := exists_renders_shown (σ := Unit) lib heading hscope
    fun r hr => absurd hr List.not_mem_nil
  refine ⟨hscope, ⟨⟨rfl, trivial, trivial⟩, trivial⟩, fun r hr => absurd hr List.not_mem_nil,
    max least least', fun depth hdepth => ⟨_, _,
      hrenders.shows (Nat.le_trans (Nat.le_max_left ..) hdepth) rfl (by simp),
      hrenders'.shows (Nat.le_trans (Nat.le_max_right ..) hdepth) rfl (by simp), rfl, ?_⟩⟩
  have hshown : lib.shown {} (lib.meaning {}) scope .xhtml heading = [.node () (.element "h1" .xhtml {})
      [.node () (.text "a") [], .node () (.text "") []]] := rfl
  show String.ofList (forestHtml (lib.shown {} (lib.meaning {}) scope .xhtml heading)) = _
  rw [hshown]
  decide +kernel

end Library

end LiveTemplate
