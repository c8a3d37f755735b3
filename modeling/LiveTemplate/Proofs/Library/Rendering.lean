import LiveTemplate.Proofs.Library.Sites

/-!
# LiveTemplate.Proofs.Library.Rendering

With a library, templates are rendered as the trees they stand for.

1. The sites of a node make of it what it stands for, if the partials it asks for are rendered
   as theirs, and the body in it as its own (`settles_occurrence`).
2. Bodies stand within bodies, so hooks that are deep enough render a body if partials that it
   asks for are rendered (`exists_renders`).
3. Partials ask for one another, but no chain of them is endless.  So hooks that are deep enough
   render them all (`exists_serves`), and every template that asks for them
   (`exists_renders_shown`).
-/

namespace LiveTemplate

variable {σ : Type}

/-- A template is rendered, and what comes of it are these trees, in new nodes. -/
def Template.Shows (t : Template) (hooks : Hooks σ) (scope : Scope) (context : Option NodeId)
    (w : World σ) (trees : List Markup) : Prop :=
  ∃ rendered w' root, t.compile.render hooks scope context w = some (rendered, w') ∧
    rendered.root.node = root.label ∧ w.dom.Loose w'.dom root ∧ shapes root.shown = trees ∧
    w'.dom.html rendered.root.node = String.ofList (forestHtml trees)

namespace Library

variable {lib : Library} {heap : Heap} {meaning : Meaning} {scope : Scope}

/-! ## what nodes stand for -/

section Interpreting

variable (lib : Library) (heap : Heap) (meaning : Meaning) (scope : Scope)

/-- The trees that are shown in front of a node. -/
def nodeFront (inherited : Namespace) : Node → List Markup
  | .insertion i => lib.contentTrees heap meaning scope i.escaped inherited i.call []
  | .block call body _ _ =>
    lib.contentTrees heap meaning scope true inherited call
      (lib.bodyShown heap meaning scope inherited body)
  | .component tag body _ =>
    lib.componentTrees heap meaning scope inherited tag
      fun ns => lib.bodyShown heap meaning scope ns body
  | .text .. | .comment .. | .element .. => []

/-- What a node has become when its modifiers and attributes are evaluated, apart from its
children. -/
def nodeFinal (root : Namespace) (around : Option Namespace) : Node → NodeData
  | .element tag _ _ =>
    .element tag.name ((knownNamespace tag.name around).getD root) (lib.attributes scope heap tag)
  | .text s _ => .text s
  | .comment s _ => .comment s
  | .insertion _ | .block .. | .component .. => .text ""

/-- Nodes stand for what they are shown as. -/
def interpretation (root : Namespace) : Interpretation root where
  front := lib.nodeFront heap meaning scope
  final := lib.nodeFinal heap scope root
  trees := lib.nodesShown heap meaning scope root
  nsBelow_final _ node := by cases node <;> rfl
  trees_nil _ _ := rfl
  trees_cons around inherited node nodes := by
    have hnode : lib.nodeShown heap meaning scope root around inherited node =
        lib.nodeFront heap meaning scope inherited node ++
          [.node () (lib.nodeFinal heap scope root around node)
            (lib.nodesShown heap meaning scope root (node.nsBelow around)
              (node.data root around).nsBelow node.children)] := by
      cases node <;> rfl
    rw [nodesShown, hnode, List.append_assoc]
    rfl

end Interpreting

theorem bodyShown_eq (scope : Scope) (ns : Namespace) (body : Body Node) :
    lib.bodyShown heap meaning scope ns body =
      lib.shown heap meaning (scope.bind body.blockParams []) ns body := by
  cases body
  rfl

theorem bodyRequests_eq (scope : Scope) (body : Body Node) :
    lib.bodyRequests heap scope body =
      lib.nodesRequests heap (scope.bind body.blockParams []) body.children := by
  cases body
  rfl

/-! ## what nodes ask for -/

theorem mem_nodesRequests {r : Request} {nodes : List Node} :
    r ∈ lib.nodesRequests heap scope nodes ↔
      ∃ node ∈ nodes, r ∈ lib.nodeRequests heap scope node := by
  induction nodes with
  | nil => simp [nodesRequests]
  | cons node nodes ih => simp [nodesRequests, ih]

theorem nodesRequests_children_subset (node : Node) :
    lib.nodesRequests heap scope node.children ⊆ lib.nodeRequests heap scope node := by
  cases node with
  | element tag children span => exact List.subset_append_right ..
  | _ => simp [Node.children, nodesRequests]

/-- What a node asks for, wherever it occurs, its body does. -/
theorem nodeRequests_subset_of_mem {body : Body Node} {o : Occurrence}
    (ho : o ∈ body.occurrences) :
    lib.nodeRequests heap scope o.node ⊆ lib.nodesRequests heap scope body.children := by
  refine forall_mem_occurrencesOf
    (P := fun node => lib.nodeRequests heap scope node ⊆ lib.nodesRequests heap scope body.children)
    (fun node hnode child hchild r hr => hnode ?_)
    (fun node hnode r hr => mem_nodesRequests.2 ⟨node, hnode, hr⟩) [] none 0 0 0 o ho
  exact nodesRequests_children_subset node (mem_nodesRequests.2 ⟨child, hchild, hr⟩)

mutual

/-- Partials are rendered in scopes without nodes. -/
theorem nodeFree_nodeRequests : (node : Node) → (scope : Scope) → scope.NodeFree heap →
    ∀ r ∈ lib.nodeRequests heap scope node, r.2.NodeFree heap
  | .text .., _, _ => by simp [nodeRequests]
  | .comment .., _, _ => by simp [nodeRequests]
  | .insertion i, scope, hscope => by
    rw [nodeRequests, List.forall_mem_map]
    exact fun _ _ => hscope
  | .element tag children _, scope, hscope => by
    rw [nodeRequests, List.forall_mem_append, List.forall_mem_map]
    exact ⟨fun _ _ => hscope, nodeFree_nodesRequests children scope hscope⟩
  | .block call body _ _, scope, hscope => by
    rw [nodeRequests, List.forall_mem_append, List.forall_mem_map]
    refine ⟨fun _ _ => hscope, ?_⟩
    cases lib.callee call.path with
    | passThrough => exact nodeFree_bodyRequests body scope hscope
    | builtin b => simp
    | path => simp
  | .component tag body _, scope, hscope => by
    rw [nodeRequests, List.forall_mem_append, List.forall_mem_map]
    refine ⟨fun _ _ => hscope, ?_⟩
    cases lib.callee tag.name with
    | passThrough => exact nodeFree_bodyRequests body scope hscope
    | path => exact nodeFree_bodyRequests body scope hscope
    | builtin b => exact List.forall_mem_map.2 fun _ _ => hscope

theorem nodeFree_bodyRequests : (body : Body Node) → (scope : Scope) → scope.NodeFree heap →
    ∀ r ∈ lib.bodyRequests heap scope body, r.2.NodeFree heap
  | ⟨children, blockParams, _⟩, _, hscope =>
    nodeFree_nodesRequests children _ (Hooks.nodeFree_bind hscope blockParams)

theorem nodeFree_nodesRequests : (nodes : List Node) → (scope : Scope) → scope.NodeFree heap →
    ∀ r ∈ lib.nodesRequests heap scope nodes, r.2.NodeFree heap
  | [], _, _ => by simp [nodesRequests]
  | node :: nodes, scope, hscope => by
    rw [nodesRequests, List.forall_mem_append]
    exact ⟨nodeFree_nodeRequests node scope hscope, nodeFree_nodesRequests nodes scope hscope⟩

end

/-! ## the sites of a node -/

section Sites

variable {least depth : Nat} {p : Program} {root : Namespace}

/-- The modifiers and attributes of an element change its attributes one after the other. -/
theorem settles_element (hscope : scope.NodeFree heap) (hdepth : least ≤ depth) {o : Occurrence}
    {tag : ElementTag} {children : List Node} {span : Span}
    (hnode : o.node = .element tag children span)
    (hserves : ∀ name ∈ lib.tagRequests scope heap tag,
      lib.Serves σ heap meaning least (name, scope)) :
    o.Settles p (lib.environment.hooks (depth + 4) : Hooks σ) scope heap
      (lib.interpretation heap meaning scope root) := by
  obtain ⟨node, path, around, number, bodies⟩ := o
  obtain rfl : node = .element tag children span := hnode
  intro base w fragment ts F target hrendering hheap hlabel _ hregion hdata
  -- Modifiers come first, and an attribute with a static value changes nothing.
  let changes := tag.modifiers.map (fun call => (Action.modifier call, lib.modify scope heap call)) ++
    attributeChanges (lib.setAttribute scope heap) tag.attributes
  have hactions : changes.map Prod.fst =
      tag.modifiers.map Action.modifier ++ tag.attributes.filterMap Attribute.action? := by
    rw [List.map_append, map_fst_attributeChanges, List.map_map]
    rfl
  have hchanges : ∀ change ∈ changes, ∀ w : World σ, w.heap = heap → ∃ w₁,
      p.renderSite (lib.environment.hooks (depth + 4)) scope change.1 target w =
          some (none, { w₁ with dom := w₁.dom.changeAttributes target.node change.2 }) ∧
        w.Grows w₁ := by
    rw [tagRequests, List.forall_mem_append] at hserves
    rw [List.forall_mem_append, List.forall_mem_map]
    refine ⟨fun call hcall w hheap => ?_, fun change hchange w hheap => ?_⟩
    · exact exists_renderSite_modifier p hscope hdepth hheap
        fun name hname => hserves.1 name (List.mem_flatMap.2 ⟨call, hcall, hname⟩)
    · obtain ⟨a, ha, haction⟩ := List.mem_filterMap.1 hchange
      obtain ⟨action, haction', rfl⟩ := Option.map_eq_some_iff.1 haction
      exact exists_renderSite_attribute p hscope hdepth hheap haction'
        fun name hname => hserves.2 name (List.mem_flatMap.2 ⟨a, ha, hname⟩)
  obtain ⟨results, w', F', hrun, hrendering', hregion', hother, hdata'⟩ :=
    hrendering.run_changes p _ scope hlabel changes hchanges hheap
  refine ⟨results, w', F', ?_, hrendering', ⟨?_, ?_⟩, fun x hx => ⟨by rw [hregion'], hother x hx⟩⟩
  · rw [actions_element, ← hactions, List.map_map]
    exact hrun
  · rw [hregion', hregion]
    rfl
  · have hattributes : (fun d => changes.foldl (fun d change => change.2 d) d) = fun d =>
        tag.attributes.foldl (fun d a => lib.setAttribute scope heap a d)
          (tag.modifiers.foldl (fun d call => lib.modify scope heap call d) d) := by
      funext d
      rw [List.foldl_append, List.foldl_map, foldl_attributeChanges]
      intro a ha d
      rw [Attribute.action?] at ha
      cases hvalue : a.value with
      | static s => simp only [setAttribute, hvalue]
      | bare i => simp [hvalue] at ha
      | joined parts => simp [hvalue] at ha
    rw [hdata', hdata, hattributes]
    rfl

/-- A value that is shown in a new morph in front of a node makes of the node what it stands for. -/
theorem settles_of_presents {hooks : Hooks σ} {o : Occurrence} {I : Interpretation root}
    {action : Action} (escaped : Bool) (hactions : o.node.actions o.base = [action])
    (hfinal : I.final o.around o.node = o.node.data root o.around)
    (hsite : ∀ (w : World σ) (target : Target), w.heap = heap →
      (∀ id, target.context = some id → id.index < w.dom.size) →
        ∃ w₁ v, p.renderSite hooks scope action target w =
            some (some ⟨w.morphs.size⟩, w₁.updateMorph ⟨w.morphs.size⟩ v) ∧
          (w.addMorph (.create target.node escaped target.context)).2.Grows w₁ ∧
          v.Presents w.dom w₁.dom escaped (w₁.dom.nsBelow target.context)
            (I.front (w.dom.nsBelow target.context) o.node)) :
    o.Settles p hooks scope heap I := by
  intro base w fragment ts F target hrendering hheap hlabel hcontext hregion hdata
  obtain ⟨w₁, v, hrun, hgrows, hpresents⟩ := hsite w target hheap hcontext
  obtain ⟨trees, hdisplays, hshapes⟩ := hpresents.exists_displays target.node
  rw [hactions]
  exact ⟨_, _, _, Program.run_cons hrun rfl, hrendering.present hlabel hregion hgrows hdisplays,
    ⟨by rw [Filling.region_setRegion_self, hshapes], by rw [hfinal]; exact hdata⟩,
    fun x hx => ⟨Filling.region_setRegion_of_ne hx _, rfl⟩⟩

/-- The sites of a node make of it what it stands for. -/
theorem settles_occurrence (hscope : scope.NodeFree heap) (hdepth : least ≤ depth)
    {o : Occurrence}
    (hserves : ∀ r ∈ lib.nodeRequests heap scope o.node, lib.Serves σ heap meaning least r)
    (hinside : ∀ inside, o.node.enclosed[0]? = some inside →
      p.children[o.base]? = some (compileBody inside) ∧
        (lib.bodyRequests heap scope inside ⊆ lib.nodeRequests heap scope o.node →
          lib.Renders σ heap least inside (scope.bind inside.blockParams [])
            fun ns => lib.bodyShown heap meaning scope ns inside)) :
    o.Settles p (lib.environment.hooks (depth + 4) : Hooks σ) scope heap
      (lib.interpretation heap meaning scope root) := by
  obtain ⟨node, path, around, number, bodies⟩ := o
  cases node with
  | text s span => exact Occurrence.settles_of_static rfl (fun _ => rfl) rfl
  | comment s span => exact Occurrence.settles_of_static rfl (fun _ => rfl) rfl
  | element tag children span =>
    rw [nodeRequests, List.forall_mem_append, List.forall_mem_map] at hserves
    exact settles_element hscope hdepth rfl hserves.1
  | insertion i =>
    rw [nodeRequests, List.forall_mem_map] at hserves
    refine settles_of_presents i.escaped rfl rfl fun w target hheap hcontext => ?_
    exact exists_renderSite_content p hscope hdepth hheap i.call i.escaped hcontext hserves
  | block call body inverse span =>
    rw [nodeRequests, List.forall_mem_append, List.forall_mem_map] at hserves
    obtain ⟨hbody, hrenders⟩ := hinside body rfl
    refine settles_of_presents true rfl rfl fun w target hheap hcontext => ?_
    refine exists_renderSite_block p hscope hdepth hheap call hbody _ hcontext hserves.1
      fun hcallee => hrenders ?_
    rw [nodeRequests, hcallee]
    exact List.subset_append_right ..
  | component tag body span =>
    rw [nodeRequests, List.forall_mem_append, List.forall_mem_map] at hserves
    obtain ⟨hbody, hrenders⟩ := hinside body rfl
    refine settles_of_presents true (actions_component ..) rfl fun w target hheap hcontext => ?_
    refine exists_renderSite_component p hscope hdepth hheap tag hbody hcontext hserves.1
      (fun name hname => ?_) (fun hcallee => hrenders ?_)
    · cases h : lib.callee tag.name with
      | builtin b =>
        rw [h] at hserves
        exact hserves.2 (name, scope) (List.mem_map_of_mem hname)
      | passThrough => simp [calledRequests, h] at hname
      | path => simp [calledRequests, h] at hname
    · rw [nodeRequests]
      cases h : lib.callee tag.name with
      | builtin b => exact absurd h (hcallee b)
      | passThrough => exact List.subset_append_right ..
      | path => exact List.subset_append_right ..

end Sites

/-! ## depths -/

/-- Of finitely many properties that hold from some depth on, all hold from some depth on. -/
theorem exists_least {α : Type} {P : α → Nat → Prop}
    (hmono : ∀ a n m, n ≤ m → P a n → P a m) (l : List α) (h : ∀ a ∈ l, ∃ n, P a n) :
    ∃ n, ∀ a ∈ l, P a n := by
  induction l with
  | nil => exact ⟨0, by simp⟩
  | cons a l ih =>
    rw [List.forall_mem_cons] at h
    obtain ⟨n, hn⟩ := h.1
    obtain ⟨m, hm⟩ := ih h.2
    refine ⟨max n m, List.forall_mem_cons.2 ⟨hmono a n _ (Nat.le_max_left ..) hn, fun b hb => ?_⟩⟩
    exact hmono b m _ (Nat.le_max_right ..) (hm b hb)

/-! ## renders -/

/-- Hooks that are deep enough render a body as the trees it stands for, if partials that it asks
for are rendered. -/
theorem exists_renders (least : Nat) (body : Body Node) (scope : Scope)
    (hscope : scope.NodeFree heap)
    (hserves : ∀ r ∈ lib.nodesRequests heap scope body.children,
      lib.Serves σ heap meaning least r) :
    ∃ least', lib.Renders σ heap least' body scope
      fun ns => lib.shown heap meaning scope ns body := by
  induction body using body_induction generalizing scope with
  | step body ih =>
    -- The bodies in it are rendered from some depth on.
    obtain ⟨inner, hinner⟩ := exists_least
      (P := fun (o : Occurrence) n => ∀ inside, o.node.enclosed[0]? = some inside →
        lib.bodyRequests heap scope inside ⊆ lib.nodeRequests heap scope o.node →
          lib.Renders σ heap n inside (scope.bind inside.blockParams [])
            fun ns => lib.bodyShown heap meaning scope ns inside)
      (fun o n m hle h inside hinside hsubset => (h inside hinside hsubset).mono hle)
      body.occurrences fun o ho => by
        by_cases h : ∃ inside, o.node.enclosed[0]? = some inside ∧
          lib.bodyRequests heap scope inside ⊆ lib.nodeRequests heap scope o.node
        · obtain ⟨inside, hinside, hsubset⟩ := h
          obtain ⟨n, hn⟩ := ih o ho inside (List.mem_of_getElem? hinside) _
            (Hooks.nodeFree_bind hscope inside.blockParams) fun r hr => by
              rw [← bodyRequests_eq] at hr
              exact hserves r (nodeRequests_subset_of_mem ho (hsubset hr))
          refine ⟨n, fun inside' hinside' _ => ?_⟩
          obtain rfl := Option.some.inj (hinside.symm.trans hinside')
          simp only [bodyShown_eq]
          exact hn
        · exact ⟨0, fun inside hinside hsubset => absurd ⟨inside, hinside, hsubset⟩ h⟩
    refine ⟨max least inner + 4, fun depth hdepth context w hheap hcontext => ?_⟩
    obtain ⟨further, rfl⟩ := Nat.exists_eq_add_of_le hdepth
    subst hheap
    rw [Nat.add_right_comm]
    refine exists_render (lib.interpretation w.heap meaning scope (w.dom.nsBelow context))
      (fun o ho => ?_) hcontext
    refine settles_occurrence hscope (Nat.le_add_right (max least inner) further)
      (fun r hr => (hserves r (nodeRequests_subset_of_mem ho hr)).mono (Nat.le_max_left ..))
      fun inside hinside => ⟨getElem?_children_compileBody ho hinside, fun hsubset => ?_⟩
    exact (hinner o ho inside hinside hsubset).mono (Nat.le_max_right ..)

/-- Hooks that are deep enough render a partial, if no chain of partials it asks for is endless. -/
theorem exists_serves {r : Request} (h : Acc (lib.AskedBy heap) r) (hscope : r.2.NodeFree heap) :
    ∃ least, lib.Serves σ heap (lib.meaning heap) least r := by
  induction h with
  | intro r hbelow ih =>
    by_cases hregistered : ∃ t, lib.partials.get? r.1 = some t
    · obtain ⟨t, ht⟩ := hregistered
      obtain ⟨least, hserves⟩ := exists_least
        (P := fun r' n => lib.Serves σ heap (lib.meaning heap) n r')
        (fun _ _ _ hle h => h.mono hle) (lib.nodesRequests heap r.2 t.children)
        fun r' hr' => ih r' ⟨t, ht, hr'⟩ (nodeFree_nodesRequests t.children r.2 hscope r' hr')
      obtain ⟨least', hrenders⟩ := exists_renders least t r.2 hscope hserves
      refine ⟨least', fun t' ht' => ?_⟩
      obtain rfl := Option.some.inj (ht.symm.trans ht')
      rw [show lib.meaning heap r.1 r.2 = fun ns => lib.shown heap (lib.meaning heap) r.2 ns t from
        funext (meaning_eq ht (.intro r hbelow))]
      exact hrenders
    · exact ⟨0, fun t ht => absurd ⟨t, ht⟩ hregistered⟩

/-- Hooks that are deep enough render a template as the trees it stands for. -/
theorem exists_renders_shown (lib : Library) (t : Template) (hscope : scope.NodeFree heap)
    (hsettled : lib.Settled heap scope t.children) :
    ∃ least, lib.Renders σ heap least t scope
      fun ns => lib.shown heap (lib.meaning heap) scope ns t := by
  obtain ⟨least, hserves⟩ := exists_least
    (P := fun r n => lib.Serves σ heap (lib.meaning heap) n r) (fun _ _ _ hle h => h.mono hle)
    (lib.nodesRequests heap scope t.children)
    fun r hr => exists_serves (hsettled r hr) (nodeFree_nodesRequests t.children scope hscope r hr)
  exact exists_renders least t scope hscope hserves

/-- A body that is rendered is written as the trees it stands for. -/
theorem Renders.shows {least depth : Nat} {t : Template} {trees : Namespace → List Markup}
    (h : lib.Renders σ heap least t scope trees) (hdepth : least ≤ depth) {w : World σ}
    (hheap : w.heap = heap) {context : Option NodeId}
    (hcontext : ∀ id, context = some id → id.index < w.dom.size) :
    t.Shows (lib.environment.hooks depth) scope context w (trees (w.dom.nsBelow context)) := by
  obtain ⟨rendered, w', root, hrender, hroot, -, hloose, hshapes⟩ :=
    h depth hdepth context w hheap hcontext
  refine ⟨rendered, w', root, hrender, hroot, hloose, hshapes, ?_⟩
  rw [hroot, Dom.html_of_holds hloose.holds hloose.nodup, ← forestHtml_shown, ← forestHtml_shapes,
    hshapes]

end Library

end LiveTemplate
