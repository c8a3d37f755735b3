import LiveTemplate.Proofs.Render.Agreement
import LiveTemplate.Proofs.Render.Soundness
import LiveTemplate.Proofs.Render.Steps

/-!
# LiveTemplate.Proofs.Render.Regions

The regions of a rendered template.

The mustaches, blocks and components of a template have nodes of their own to show
something in front of (`spread_compileBody`), so every render of a template can be put
to use (`inUse_compileBody`).  `Rendered.Intact` sums up what that means, whatever steps
are taken: where the nodes of each morph stand, what steps change, and that what is
written does not depend on the order of the steps.
-/

namespace LiveTemplate

variable {σ : Type}

/-! ## the sites of a body -/

theorem anchors_append (sites sites' : List (Action × Target)) :
    anchors (sites ++ sites') = anchors sites ++ anchors sites' := by
  rw [anchors, List.filter_append, List.map_append]
  rfl

/-- The sites of elements are those of their modifiers and attributes. -/
theorem ElementTag.addsMorph_of_mem_actions {tag : ElementTag} {children : List Node} {span : Span}
    {base : Nat} {action : Action} (h : action ∈ (Node.element tag children span).actions base) :
    action.addsMorph = false := by
  rcases ElementTag.cases_of_mem_actions h with ⟨_, rfl⟩ | ⟨_, _, _, rfl⟩ <;> rfl

/-- A node with a site that adds a morph is a text without content, and has no other site. -/
theorem Node.anchors_actions (node : Node) (base : Nat) (target : Target) :
    anchors ((node.actions base).map fun action => (action, target)) = [] ∨
      anchors ((node.actions base).map fun action => (action, target)) = [target.node] ∧
        ∀ root around, node.data root around = .text "" := by
  cases node with
  | text s span => exact .inl rfl
  | comment s span => exact .inl rfl
  | element tag children span =>
    refine .inl (List.eq_nil_iff_forall_not_mem.2 fun x hx => ?_)
    obtain ⟨s, hs, hadds, -⟩ := mem_anchors.1 hx
    obtain ⟨action, haction, rfl⟩ := List.mem_map.1 hs
    rw [ElementTag.addsMorph_of_mem_actions haction] at hadds
    cases hadds
  | insertion i => exact .inr ⟨rfl, fun _ _ => rfl⟩
  | block call body inverse span => exact .inr ⟨rfl, fun _ _ => rfl⟩
  | component tag body span => exact .inr ⟨rfl, fun _ _ => rfl⟩

/-- Different nodes have their sites in front of different ones. -/
theorem nodup_anchors_occurrences {os : List Occurrence} {target : Occurrence → Target}
    (h : (os.map fun o => (target o).node).Nodup) :
    (anchors (os.flatMap fun o =>
      (o.node.actions o.base).map fun action => (action, target o))).Nodup := by
  refine List.Nodup.sublist ?_ h
  clear h
  induction os with
  | nil => exact List.Sublist.slnil
  | cons o os ih =>
    rw [List.flatMap_cons, anchors_append, List.map_cons]
    rcases o.node.anchors_actions o.base (target o) with hnone | ⟨hone, -⟩
    · rw [hnone]
      exact ih.cons _
    · rw [hone]
      exact ih.cons_cons _

section Built

variable {body : Body Node} {root : Namespace} {built : Dom} {fragment : NodeId} {first : Nat}
  (hbuilt : ∀ o ∈ body.occurrences,
    ∃ parent, o.IsBuilt root built fragment ⟨first + o.number⟩ parent)
  (context : Option NodeId)

include hbuilt

/-- Every anchor is what a node without content of its own was built as. -/
theorem exists_of_mem_anchors {x : NodeId}
    (hx : x ∈ anchors ((compileBody body).targets built fragment context)) :
    ∃ o ∈ body.occurrences, x = ⟨first + o.number⟩ ∧ built.data x = .text "" := by
  rw [targets_compileBody, mem_anchors] at hx
  obtain ⟨s, hs, hadds, rfl⟩ := hx
  obtain ⟨o, ho, hs⟩ := List.mem_flatMap.1 hs
  obtain ⟨action, haction, rfl⟩ := List.mem_map.1 hs
  obtain ⟨parent, hid⟩ := hbuilt o ho
  have hmem : (o.target built fragment context).node ∈ anchors
      ((o.node.actions o.base).map fun action => (action, o.target built fragment context)) :=
    mem_anchors.2 ⟨_, List.mem_map_of_mem haction, hadds, rfl⟩
  rcases o.node.anchors_actions o.base (o.target built fragment context) with hnone | ⟨-, htext⟩
  · rw [hnone] at hmem
    cases hmem
  · refine ⟨o, ho, by rw [hid.target_eq], ?_⟩
    rw [hid.target_eq, hid.data_eq, htext]

theorem nodup_anchors_compileBody :
    (anchors ((compileBody body).targets built fragment context)).Nodup := by
  rw [targets_compileBody]
  refine nodup_anchors_occurrences ?_
  have hnodes : (body.occurrences.map fun o => (o.target built fragment context).node) =
      (body.occurrences.map Occurrence.number).map fun n => ⟨first + n⟩ := by
    rw [List.map_map]
    refine List.map_congr_left fun o ho => ?_
    obtain ⟨parent, hid⟩ := hbuilt o ho
    rw [hid.target_eq]
    rfl
  rw [hnodes, numbers_bodyOccurrences]
  exact List.pairwise_map.2 (List.nodup_range.imp fun hne heq => hne (by simpa using heq))

/-- HTML is read as content of built nodes, or as what the whole is the content of. -/
theorem context_of_mem_targets {s : Action × Target}
    (hs : s ∈ (compileBody body).targets built fragment context) {c : NodeId}
    (hc : s.2.context = some c) :
    context = some c ∨ ∃ o ∈ body.occurrences, c = ⟨first + o.number⟩ := by
  rw [targets_compileBody] at hs
  obtain ⟨o, ho, hs⟩ := List.mem_flatMap.1 hs
  obtain ⟨action, -, rfl⟩ := List.mem_map.1 hs
  obtain ⟨parent, hid⟩ := hbuilt o ho
  rw [hid.target_eq] at hc
  split at hc
  · exact .inl hc
  · next hne =>
    obtain rfl := Option.some.inj hc
    rcases parent_isBuilt hbuilt ho hid with ⟨hparent, -⟩ | ⟨o', ho', hparent, -⟩
    · exact absurd hparent hne
    · exact .inr ⟨o', ho', hparent⟩

end Built

/-- The nodes of the sites of a compiled body, as they have been built: what is shown in front of
them stays apart, and they are texts. -/
theorem spread_compileBody (body : Body Node) (dom : Dom) (context : Option NodeId)
    (hcontext : ∀ id, context = some id → id.index < dom.size) :
    let program := compileBody body
    let built := (program.plant dom context).2
    let sites := program.targets built (program.plant dom context).1 context
    Spread dom (numberForest (dom.size + 1) (program.forest (dom.nsBelow context)))
        ⟨built.data, fun _ => []⟩ sites ∧
      ∀ x ∈ anchors sites, built.data x = .text "" := by
  intro program built sites
  have hbuilt := isBuilt_compileBody body dom (dom.nsBelow context)
  refine ⟨⟨nodup_anchors_compileBody hbuilt context, fun x hx => ?_, fun _ _ => rfl,
    fun s hs c hc => ?_⟩, fun x hx => ?_⟩
  · obtain ⟨o, ho, rfl, -⟩ := exists_of_mem_anchors hbuilt context hx
    exact mem_forestLabels_compileBody ho _ _
  · rcases context_of_mem_targets hbuilt context hs hc with hold | ⟨o, ho, rfl⟩
    · exact .inl (hcontext c hold)
    · exact .inr (mem_forestLabels_compileBody ho _ _)
  · obtain ⟨o, -, -, htext⟩ := exists_of_mem_anchors hbuilt context hx
    exact htext

/-! ## the start -/

/-- When filled trees are a single one, so are the static ones. -/
theorem Filling.forest_eq_singleton {F : Filling} {ts : List (Tree NodeId)} {t : Tree NodeId}
    (h : F.forest ts = [t]) :
    ∃ data kids, ts = [.node t.label data kids] ∧ F.region t.label = [] ∧
      F.data t.label = t.data := by
  cases ts with
  | nil => cases h
  | cons u us =>
    obtain ⟨id, data, kids⟩ := u
    rw [Filling.forest_cons] at h
    rcases List.append_eq_singleton_iff.1 h with ⟨hregion, hrest⟩ | ⟨-, hrest⟩
    · rw [List.cons.injEq] at hrest
      obtain ⟨rfl, hus⟩ := hrest
      cases us with
      | nil => exact ⟨data, kids, rfl, hregion, rfl⟩
      | cons v vs =>
        obtain ⟨id', data', kids'⟩ := v
        rw [Filling.forest_cons] at hus
        simp at hus
    · cases hrest

/-- At the end of a stage everything is where the root tells. -/
theorem Stage.places_unwrap {base dom : Dom} {fragment : NodeId} {ts : List (Tree NodeId)}
    {F : Filling} (h : Stage base fragment ts F dom) :
    (dom.unwrap fragment).1.Places (dom.unwrap fragment).2 F ts (dom.unwrap fragment).1.host
      [] [] := by
  rcases h.unwrap_cases with ⟨t, hforest, helement, hunwrap⟩ | hunwrap
  · obtain ⟨data, kids, hts, hregion, hdata⟩ := Filling.forest_eq_singleton hforest
    rw [hunwrap]
    exact .single hts (by rw [hdata]; exact helement) hregion ..
  · rw [hunwrap]
    exact .sequence h.data_fragment

/-- Unwrapping keeps what nodes are. -/
theorem Dom.data_unwrap (dom : Dom) (fragment n : NodeId) :
    (dom.unwrap fragment).2.data n = dom.data n := by
  rw [Dom.unwrap]
  split
  · split
    · exact Dom.data_removeChild ..
    · rfl
  · rfl

/-- The sites of a body, rendered with sound hooks. -/
theorem sitesRendered_compileBody {body : Body Node} {hooks : Hooks σ} {scope : Scope}
    {context : Option NodeId} {w w' : World σ} {morphs : List MorphId}
    (hhooks : hooks.Sound w.heap) (hscope : scope.NodeFree w.heap)
    (hsites : (compileBody body).renderSites hooks scope ((compileBody body).plant w.dom context).1
      context { w with dom := ((compileBody body).plant w.dom context).2 } = some (morphs, w')) :
    ∃ G, Rendering w ((compileBody body).plant w.dom context).1
        (numberForest (w.dom.size + 1) ((compileBody body).forest (w.dom.nsBelow context))) G w' ∧
      SitesRendered w.dom ((compileBody body).targets ((compileBody body).plant w.dom context).2
          ((compileBody body).plant w.dom context).1 context)
        (numberForest (w.dom.size + 1) ((compileBody body).forest (w.dom.nsBelow context)))
        ⟨((compileBody body).plant w.dom context).2.data, fun _ => []⟩ G
        { w with dom := ((compileBody body).plant w.dom context).2 } w' morphs := by
  obtain ⟨G, hrendering, hrendered⟩ := hhooks.renderSites hscope rfl hsites
  refine ⟨G, hrendering, ?_⟩
  split at hrendered
  · next hstatic =>
    rw [Program.targets, sites_of_isStatic hstatic, List.map_nil]
    exact hrendered
  · exact hrendered

/-- The morphs that the render of a body results in are registered. -/
theorem exists_morph_compileBody {body : Body Node} {hooks : Hooks σ} {scope : Scope}
    {context : Option NodeId} {w w' : World σ} {r : Rendered} (hhooks : hooks.Sound w.heap)
    (hscope : scope.NodeFree w.heap)
    (hcontext : ∀ id, context = some id → id.index < w.dom.size)
    (hrender : (compileBody body).render hooks scope context w = some (r, w')) :
    ∀ id ∈ r.morphs, ∃ m, w'.morph? id = some m := by
  rw [Program.render_eq] at hrender
  obtain ⟨⟨morphs, w₁⟩, hsites, heq⟩ := Option.map_eq_some_iff.1 hrender
  cases heq
  obtain ⟨G, -, hrendered⟩ := sitesRendered_compileBody hhooks hscope hsites
  intro id hid
  obtain ⟨m, hm, -⟩ := hrendered.fills (spread_compileBody body w.dom context hcontext).1 id hid
  exact ⟨m, hm⟩

/-- A body that has been rendered with sound hooks is in use. -/
theorem inUse_compileBody {body : Body Node} {hooks : Hooks σ} {scope : Scope}
    {context : Option NodeId} {w w₀ : World σ} {r : Rendered} (hhooks : hooks.Sound w.heap)
    (hscope : scope.NodeFree w.heap) (hlinked : w.dom.Linked)
    (hcontext : ∀ id, context = some id → id.index < w.dom.size)
    (hrender : (compileBody body).render hooks scope context w = some (r, w₀)) :
    ∃ F₀, InUse w₀ r
      (numberForest (w.dom.size + 1) ((compileBody body).forest (w.dom.nsBelow context))) F₀
      (w₀.given []) F₀ w₀ := by
  obtain ⟨hspread, htexts⟩ := spread_compileBody body w.dom context hcontext
  rw [Program.render_eq] at hrender
  obtain ⟨⟨morphs, w₁⟩, hsites, heq⟩ := Option.map_eq_some_iff.1 hrender
  cases heq
  obtain ⟨F₀, hrendering, hrendered⟩ := sitesRendered_compileBody hhooks hscope hsites
  have hstage := hrendering.stage
  have hshows := hstage.shows_unwrap
  have hns : ∀ c, (w₁.dom.unwrap ((compileBody body).plant w.dom context).1).2.nsBelow c =
      w₁.dom.nsBelow c := by
    intro c
    cases c with
    | none => rfl
    | some c => rw [Dom.nsBelow, Dom.nsBelow, Dom.data_unwrap]
  refine ⟨F₀, (hrendering.linked hlinked).unwrap _, ⟨_, [], [], hshows, hstage.places_unwrap⟩, rfl,
    fun x hx => ?_, fun id hid => ?_, hrendered.distinct hspread⟩
  · rw [hrendered.region_eq x]
    intro hmem
    obtain ⟨id, hid, m, hm, hanchor⟩ := hrendered.anchored hspread x hmem
    exact hx id hid m hm hanchor
  · obtain ⟨m, hm, hanchor, hread, hescaped, hfills⟩ := hrendered.fills hspread id hid
    refine ⟨m, m, hm, hm, rfl, rfl, hspread.static _ hanchor, ?_, fun c hc => ?_, rfl, ?_,
      fun _ _ hlast => (by cases hlast), ?_, rfl⟩
    · rw [hrendered.alike.isElement]
      exact congrArg NodeData.isElement (htexts _ hanchor)
    · -- HTML is read where something was before, or in a static node.
      rcases hread c hc with hold | hmem
      · refine ⟨Nat.lt_of_lt_of_le hold hstage.extends_unwrap.size_le, fun a ha hmem => ?_⟩
        have hnew := hstage.all_new c (Filling.mem_forestLabels_forest.2 (.inr ⟨a, ha, hmem⟩))
        exact absurd hold (Nat.not_lt.2 hnew)
      · exact ⟨hshows.index_lt hmem, fun a ha => hshows.apart.region_static a ha c hmem⟩
    · have hgiven : (w₁.morph? id).any (·.escaped) = m.escaped := by rw [hm, Option.any_some]
      exact hgiven.symm
    · rw [hns]
      exact hfills

/-! ## regions -/

/-- What is the case with a render, whatever steps have been taken: `static` are the trees of its
template, which the document shows filled with `F`, and `fresh` is the world in which each morph has
been given one value only. -/
structure Rendered.Intact (r : Rendered) (static : List (Tree NodeId)) (w fresh : World σ)
    (F : Filling) : Prop where
  shows : ∃ host before after, w.dom.Shows host before after F static
  /-- The nodes of a morph are its region, and stand directly in front of its anchor. -/
  stands : ∀ id ∈ r.morphs, ∃ m p pre post, w.morph? id = some m ∧ m.anchor ∈ forestLabels static ∧
    m.nodes = rootLabels (F.region m.anchor) ∧ w.dom.parent? m.anchor = some p ∧
    w.dom.children p = pre ++ m.nodes ++ m.anchor :: post
  /-- No node is in the regions of two morphs. -/
  disjoint : ∀ id ∈ r.morphs, ∀ id' ∈ r.morphs, id ≠ id' → ∀ m, w.morph? id = some m →
    ∀ m', w.morph? id' = some m' →
      ∀ x ∈ forestLabels (F.region m.anchor), x ∉ forestLabels (F.region m'.anchor)
  /-- No static node, and so no anchor, is in the region of a morph. -/
  not_static : ∀ id ∈ r.morphs, ∀ m, w.morph? id = some m →
    ∀ x ∈ forestLabels static, x ∉ forestLabels (F.region m.anchor)
  /-- Only morphs show something. -/
  region_eq : ∀ x, (∀ id ∈ r.morphs, ∀ m, w.morph? id = some m → m.anchor ≠ x) → F.region x = []
  /-- The next step changes the region of its morph only. -/
  changed : ∀ step id, r.Allows w step → step.morph? = some id → ∃ m m' p, w.morph? id = some m ∧
    (w.step r.root step).morph? id = some m' ∧
    m.Changed m' p (F.region m.anchor) w.dom (w.step r.root step).dom ∧
    ∀ id', id' ≠ id → (w.step r.root step).morph? id' = w.morph? id'
  /-- All is written as if each morph had been made anew and given its last value only. -/
  html : ∃ host before after F', fresh.dom.Shows host before after F' static ∧
    w.dom.htmlOf (rootLabels (F.forest static)) = fresh.dom.htmlOf (rootLabels (F'.forest static))

/-- A render in use is intact: what is written of it is what is written of any other world in which
it has been told the same. -/
theorem InUse.intact {w₀ w fresh : World σ} {r : Rendered} {ts : List (Tree NodeId)}
    {F₀ F F' : Filling} {given given' : MorphId → Given} (h : InUse w₀ r ts F₀ given F w)
    (h' : InUse w₀ r ts F₀ given' F' fresh)
    (hlast : ∀ id ∈ r.morphs, (given id).last = (given' id).last) : r.Intact ts w fresh F := by
  obtain ⟨host, before, after, hshows, -⟩ := h.shows
  obtain ⟨host', before', after', hshows', -⟩ := h'.shows
  have hanchor : ∀ id ∈ r.morphs, ∀ m, w.morph? id = some m →
      m.anchor ∈ forestLabels ts ∧ ∃ m₀, w₀.morph? id = some m₀ ∧ m.anchor = m₀.anchor := by
    intro id hid m hm
    obtain ⟨m₀, hm₀, huse⟩ := h.morph_of_eq hid hm
    exact ⟨huse.anchor_mem, m₀, hm₀, huse.anchor_eq⟩
  constructor
  case shows => exact ⟨host, before, after, hshows⟩
  case stands =>
    intro id hid
    obtain ⟨m₀, m, -, hm, -⟩ := h.morph id hid
    obtain ⟨p, hparent⟩ := h.exists_parent hid hm
    obtain ⟨hnodes, pre, post, hchildren⟩ := h.exists_stretch hid hm hparent
    rw [← hnodes] at hchildren
    exact ⟨m, p, pre, post, hm, (hanchor id hid m hm).1, hnodes, hparent, hchildren⟩
  case disjoint =>
    intro id hid id' hid' hne m hm m' hm'
    obtain ⟨hmem, m₀, hm₀, heq⟩ := hanchor id hid m hm
    obtain ⟨hmem', m₀', hm₀', heq'⟩ := hanchor id' hid' m' hm'
    refine hshows.apart.disjoint _ hmem _ hmem' fun hanchors => hne ?_
    rw [heq, heq'] at hanchors
    exact h.distinct id hid id' hid' m₀ hm₀ m₀' hm₀' hanchors
  case not_static =>
    exact fun id hid m hm => hshows.apart.region_static _ (hanchor id hid m hm).1
  case region_eq =>
    intro x hx
    refine h.region_eq x fun id hid m₀ hm₀ => ?_
    obtain ⟨m, hm, huse⟩ := h.morph_of_first hid hm₀
    rw [← huse.anchor_eq]
    exact hx id hid m hm
  case changed => exact fun step id hallowed hid => h.changed hallowed hid
  case html =>
    refine ⟨host', before', after', F', hshows', ?_⟩
    rw [Dom.htmlOf_rootLabels hshows.holds hshows.nodup_forest,
      Dom.htmlOf_rootLabels hshows'.holds hshows'.nodup_forest, h.forestHtml_eq h' hlast]

/-- A template has been rendered without helpers and with values none of which is a node.  Then
its morphs are given values that are no nodes, cleared, and told to show values as text or as HTML,
and its root is moved as a whole, in any order.  After every step the nodes of each morph stand
directly in front of its anchor and nowhere else; a step changes nothing but the region of its
morph; and all is written as if each morph had been made anew and given its last value only. -/
theorem intact_render {partials : Dict Program} {depth : Nat} {t : Template} {scope : Scope}
    {context : Option NodeId} {w w₀ : World σ} {r : Rendered} (hscope : scope.NodeFree w.heap)
    (hlinked : w.dom.Linked) (hcontext : ∀ id, context = some id → id.index < w.dom.size)
    (hrender : t.compile.render (({ partials } : Environment σ).hooks depth) scope context w =
      some (r, w₀))
    {steps : List Step} (hallowed : r.AllowsAll w₀ steps) :
    ∃ F, r.Intact
      (numberForest (w.dom.size + 1) (t.compile.forest (w.dom.nsBelow context)))
      (w₀.steps r.root steps) (r.morphs.foldl (World.renew (w₀.given steps)) w₀) F := by
  obtain ⟨F₀, huse⟩ := inUse_compileBody (Hooks.sound_hooks w.heap partials depth) hscope hlinked
    hcontext hrender
  obtain ⟨F, hsteps⟩ := huse.steps hallowed
  have hnode : ∀ id ∈ r.morphs, ∀ value escaped,
      (w₀.given steps id).last = some (value, escaped) → value.isNode = false := by
    intro id hid
    obtain ⟨m₀, m, -, -, hmorph⟩ := hsteps.morph id hid
    exact hmorph.not_node
  obtain ⟨given', F', hfresh, hlast⟩ := huse.renewed hnode (fun _ => .inl rfl) fun _ hid => hid
  exact ⟨F, hsteps.intact hfresh fun id hid => (hlast id (.inl hid)).symm⟩

/-- A document with an element to move things into. -/
def page : World Unit where
  dom := (({} : Dom).create (.element "main" .xhtml {})).2
  notes := ()

theorem intact_render_greeting :
    Scope.NodeFree { context := .string "R & D" } page.heap ∧ page.dom.Linked ∧
      ∃ r w₀, greeting.compile.render (({} : Environment Unit).hooks 3)
          { context := .string "R & D" } none page = some (r, w₀) ∧
        let steps : List Step := [.move ⟨0⟩ none, .update ⟨0⟩ (.string "a < b"),
          .setEscaped ⟨0⟩ false, .clear ⟨0⟩, .update ⟨0⟩ (.string "<i>c</i>")]
        r.AllowsAll w₀ steps ∧
          ∃ F, r.Intact (numberForest 2 (greeting.compile.forest .xhtml)) (w₀.steps r.root steps)
            (r.morphs.foldl (World.renew (w₀.given steps)) w₀) F := by
  have hscope := Scope.nodeFree_string "R & D" page.heap
  have hlinked : page.dom.Linked := Dom.Linked.empty.create _
  have hresult : (greeting.compile.render (({} : Environment Unit).hooks 3)
        { context := .string "R & D" } none page).map
      (fun (r, w₀) => (r.morphs, r.root, w₀.dom.data ⟨0⟩, w₀.dom.parent? ⟨0⟩)) =
        some ([⟨0⟩], .single ⟨2⟩, .element "main" .xhtml {}, none) := by
    decide +kernel
  obtain ⟨⟨r, w₀⟩, hrender, hresult⟩ := Option.map_eq_some_iff.1 hresult
  simp only [Prod.mk.injEq] at hresult
  obtain ⟨hmorphs, hroot, hdata, hparent⟩ := hresult
  have hmem : (⟨0⟩ : MorphId) ∈ r.morphs := by
    rw [hmorphs]
    exact List.mem_cons_self
  have hallowed : r.AllowsAll w₀ [.move ⟨0⟩ none, .update ⟨0⟩ (.string "a < b"),
      .setEscaped ⟨0⟩ false, .clear ⟨0⟩, .update ⟨0⟩ (.string "<i>c</i>")] := by
    refine ⟨⟨by rw [hdata]; rfl, fun hbelow => ?_⟩, ⟨hmem, rfl⟩, hmem, hmem, ⟨hmem, rfl⟩, trivial⟩
    rw [hroot] at hbelow
    cases hbelow with
    | parent hparent' => simp [hparent] at hparent'
  exact ⟨hscope, hlinked, r, w₀, hrender, hallowed,
    intact_render hscope hlinked (by simp) hrender hallowed⟩

end LiveTemplate
