import LiveTemplate.Proofs.Render.Growth

/-!
# LiveTemplate.Proofs.Render.Placing

Sites rendered by sound hooks.

The site of a mustache, a block or a component adds a morph and shows something in
front of its node, whatever that is; every other site changes the attributes of its
node.  So each site changes the filling of the static trees at its node only, and what
the first morph in front of a node shows is the region of the node
(`Hooks.Sound.renderSite`).
-/

namespace LiveTemplate

variable {σ : Type}

/-! ## fillings and morphs -/

/-- Fillings that give the nodes the same data but for attributes. -/
def Filling.Alike (F G : Filling) : Prop := ∀ x, ∃ f, G.data x = (F.data x).mapAttributes f

namespace Filling.Alike

variable {F G H : Filling}

theorem refl (F : Filling) : F.Alike F := fun x => ⟨id, by cases F.data x <;> rfl⟩

theorem trans (h : F.Alike G) (h' : G.Alike H) : F.Alike H := by
  intro x
  obtain ⟨f, hf⟩ := h x
  obtain ⟨g, hg⟩ := h' x
  refine ⟨g ∘ f, ?_⟩
  rw [hg, hf]
  cases F.data x <;> rfl

theorem nsBelow (h : F.Alike G) (x : NodeId) : (G.data x).nsBelow = (F.data x).nsBelow := by
  obtain ⟨f, hf⟩ := h x
  rw [hf]
  cases F.data x <;> rfl

theorem isElement (h : F.Alike G) (x : NodeId) : (G.data x).isElement = (F.data x).isElement := by
  obtain ⟨f, hf⟩ := h x
  rw [hf]
  cases F.data x <;> rfl

end Filling.Alike

/-- The region in front of its anchor is what a morph shows.  `ns` is the namespace in which it
reads HTML. -/
structure Morph.Fills (m : Morph) (F : Filling) (ns : Namespace) : Prop where
  nodes : m.nodes = rootLabels (F.region m.anchor)
  value : ∀ value, m.value = some value → value.isNode = false →
    forestHtml (F.region m.anchor) = Morph.valueHtml m.shownEscaped ns value

theorem Morph.Fills.congr {m : Morph} {F G : Filling} {ns : Namespace} (h : m.Fills F ns)
    (hregion : G.region m.anchor = F.region m.anchor) : m.Fills G ns := by
  refine ⟨?_, ?_⟩
  · rw [hregion]
    exact h.nodes
  · rw [hregion]
    exact h.value

/-- The trees that display a value fill the region of the morph that shows it. -/
theorem Morph.Displays.fills {m : Morph} {base dom : Dom} {value : Value}
    {trees : List (Tree NodeId)} (h : m.Displays base dom value trees) {F : Filling}
    (hregion : F.region m.anchor = trees) :
    (m.showing value (rootLabels trees)).Fills F (dom.nsBelow m.context) := by
  refine ⟨congrArg rootLabels hregion.symm, fun value' hshows hvalue => ?_⟩
  obtain rfl : value = value' := Option.some.inj hshows
  refine (congrArg forestHtml hregion).trans ?_
  cases h with
  | node t hloose => cases hvalue
  | new _ _ => exact Morph.forestHtml_newTrees ..

/-! ## renders in progress -/

/-- A render in progress: besides the stage, only new morphs have been added to the world. -/
structure Rendering (base : World σ) (fragment : NodeId) (ts : List (Tree NodeId)) (F : Filling)
    (w : World σ) : Prop where
  stage : Stage base.dom fragment ts F w.dom
  heap : w.heap = base.heap
  linked : base.dom.Linked → w.dom.Linked
  size_le : base.morphs.size ≤ w.morphs.size
  morph?_eq : ∀ id : MorphId, id.index < base.morphs.size → w.morph? id = base.morph? id

namespace Rendering

variable {base w w' : World σ} {fragment : NodeId} {ts : List (Tree NodeId)} {F : Filling}

theorem grow (h : Rendering base fragment ts F w) (hgrows : w.Grows w') :
    Rendering base fragment ts F w' where
  stage := h.stage.extend hgrows.dom
  heap := hgrows.heap.trans h.heap
  linked hbase := hgrows.linked (h.linked hbase)
  size_le := Nat.le_trans h.size_le hgrows.size_le
  morph?_eq id hid := by
    rw [hgrows.morph?_eq id (Nat.lt_of_lt_of_le hid h.size_le), h.morph?_eq id hid]

/-- A new morph is given a value. -/
theorem updateMorph (h : Rendering base fragment ts F w) (hgrows : w.Grows w') {id : MorphId}
    (hid : w.morphs.size ≤ id.index) {m : Morph} (hm : w'.morph? id = some m) {value : Value}
    (hfresh : value.Fresh w.dom w'.dom) {G : Filling}
    (hstage : Stage base.dom fragment ts G (w'.updateMorph id value).dom) :
    Rendering base fragment ts G (w'.updateMorph id value) where
  stage := hstage
  heap := (World.heap_updateMorph ..).trans (hgrows.heap.trans h.heap)
  linked hbase := by
    rw [World.dom_updateMorph hm]
    exact (hgrows.linked (h.linked hbase)).update _ hfresh.index_lt
  size_le := by
    rw [World.size_morphs_updateMorph]
    exact Nat.le_trans h.size_le hgrows.size_le
  morph?_eq id' hid' := by
    rw [hgrows.morph?_updateMorph hid hm value (Nat.lt_of_lt_of_le hid' h.size_le),
      h.morph?_eq id' hid']

/-- The attributes of a node change; those of the fragment do not exist. -/
theorem changeAttributes (h : Rendering base fragment ts F w) {node : NodeId}
    (hnode : node = fragment ∨ node ∈ forestLabels ts) (f : Dict String → Dict String) :
    ∃ G, Rendering base fragment ts G { w with dom := w.dom.changeAttributes node f } ∧
      F.Alike G ∧ G.region = F.region := by
  rcases hnode with rfl | hnode
  · have hrecord : ∀ n, (w.dom.changeAttributes node f).record n = w.dom.record n := by
      intro n
      rw [Dom.changeAttributes, Dom.record_modify]
      split
      · next hn =>
        have hdata : (w.dom.record n).data = .fragment := by
          rw [hn.1]
          exact h.stage.data_fragment
        rw [hdata]
        show { w.dom.record n with data := .fragment } = w.dom.record n
        rw [← hdata]
      · rfl
    have hext : w.dom.Extends (w.dom.changeAttributes node f) :=
      ⟨Nat.le_of_eq (Dom.size_modify ..).symm, fun n _ => hrecord n⟩
    exact ⟨F, ⟨h.stage.extend hext, h.heap, fun hbase => (h.linked hbase).changeData _ _, h.size_le,
      h.morph?_eq⟩, .refl F, rfl⟩
  · refine ⟨F.setData node ((F.data node).mapAttributes f),
      ⟨h.stage.changeData hnode (NodeData.mapAttributes f), h.heap,
        fun hbase => (h.linked hbase).changeData _ _, h.size_le, h.morph?_eq⟩, fun x => ?_, rfl⟩
    rw [Filling.data_setData]
    split
    · next hx =>
      subst hx
      exact ⟨f, rfl⟩
    · exact Filling.Alike.refl F x

end Rendering

/-! ## sites -/

/-- Whether a site adds a morph. -/
def Action.addsMorph : Action → Bool
  | .content .. | .block .. | .component .. => true
  | .attr .. | .modifier _ => false

/-- What a site of the given kind makes of the filling and of the morphs: its morph is the next
one, and fills the region of the node if it is the first in front of it. -/
structure SiteRendered (action : Action) (target : Target) (ts : List (Tree NodeId)) (F G : Filling)
    (w w' : World σ) (result : Option MorphId) : Prop where
  alike : F.Alike G
  size_le : w.morphs.size ≤ w'.morphs.size
  morph?_eq : ∀ id : MorphId, id.index < w.morphs.size → w'.morph? id = w.morph? id
  region_eq : ∀ x, x ≠ target.node ∨ action.addsMorph = false → G.region x = F.region x
  result_eq : result = if action.addsMorph then some ⟨w.morphs.size⟩ else none
  fills : action.addsMorph → target.node ∈ forestLabels ts → F.region target.node = [] →
    (∀ id, target.context = some id → id.index < w.dom.size) →
      ∃ m, w'.morph? ⟨w.morphs.size⟩ = some m ∧ m.anchor = target.node ∧
        m.context = target.context ∧ m.escaped = m.shownEscaped ∧
        m.Fills G (w.dom.nsBelow target.context)

section Sites

variable {base w w₁ : World σ} {fragment : NodeId} {ts : List (Tree NodeId)} {F : Filling}
  {action : Action} {target : Target}

/-- Outside of elements that change, HTML is read in the namespaces in which it was read before. -/
theorem World.Grows.nsBelow_eq {w w' : World σ} (h : w.Grows w') {context : Option NodeId}
    (hcontext : ∀ id, context = some id → id.index < w.dom.size) :
    w'.dom.nsBelow context = w.dom.nsBelow context := by
  cases context with
  | none => rfl
  | some id =>
    rw [Dom.nsBelow, Dom.data, h.dom.record_eq id (hcontext id rfl)]
    rfl

/-- What is shown first in a new morph stands in front of its anchor, behind what stood there
before.  A morph in front of the fragment shows nothing, since the fragment has no place. -/
theorem Rendering.showIn (h : Rendering base fragment ts F w)
    (hnode : target.node = fragment ∨ target.node ∈ forestLabels ts)
    (hadds : action.addsMorph = true) {escaped : Bool} {value : Value}
    (hgrows : (w.addMorph (.create target.node escaped target.context)).2.Grows w₁)
    (hfresh : value.Fresh w.dom w₁.dom) :
    ∃ G, Rendering base fragment ts G (w₁.updateMorph ⟨w.morphs.size⟩ value) ∧
      SiteRendered action target ts F G w (w₁.updateMorph ⟨w.morphs.size⟩ value)
        (some ⟨w.morphs.size⟩) := by
  have hmorph := hgrows.morph?_new
  have hnew : w.morphs.size ≤ (⟨w.morphs.size⟩ : MorphId).index := Nat.le_refl _
  have hgrows' := (World.Grows.addMorph w (.create target.node escaped target.context)).trans hgrows
  have hle : w.morphs.size ≤ (w₁.updateMorph ⟨w.morphs.size⟩ value).morphs.size := by
    rw [World.size_morphs_updateMorph]
    exact hgrows'.size_le
  have hother : ∀ id : MorphId, id.index < w.morphs.size →
      (w₁.updateMorph ⟨w.morphs.size⟩ value).morph? id = w.morph? id :=
    fun _ hid => hgrows'.morph?_updateMorph hnew hmorph value hid
  -- The fragment has no parent, so a morph in front of it has nowhere to show anything.
  rcases hnode with hnode | hnode
  · have hupdate : (Morph.create target.node escaped target.context).update value w₁.dom =
        (Morph.create target.node escaped target.context, w₁.dom) := by
      have hparent : w₁.dom.parent? target.node = none := by
        rw [hnode, (h.grow hgrows').stage.parent?_fragment]
      rw [Morph.update_of_nodes_eq_nil rfl rfl,
        show (Morph.create target.node escaped target.context).anchor = target.node from rfl,
        hparent]
    refine ⟨F, h.updateMorph hgrows' hnew hmorph hfresh ?_, .refl F, hle, hother,
      fun _ _ => rfl, (if_pos hadds).symm, fun _ hmem => ?_⟩
    · rw [World.dom_updateMorph hmorph, hupdate]
      exact (h.grow hgrows').stage
    · rw [hnode] at hmem
      exact absurd (Filling.mem_forestLabels_forest.2 (.inl hmem))
        (h.stage.shows.host_not_mem fragment rfl)
  · obtain ⟨trees, hdisplays⟩ := hfresh.displays (.create target.node escaped target.context)
    obtain ⟨hshown, hstage⟩ := h.stage.first_update hgrows'.dom
      (m := .create target.node escaped target.context) hnode rfl rfl hdisplays
    rw [← World.dom_updateMorph hmorph] at hstage
    refine ⟨_, h.updateMorph hgrows' hnew hmorph hfresh hstage, .refl F, hle, hother,
      fun x hx => ?_, (if_pos hadds).symm, fun _ _ hempty hcontext => ?_⟩
    · refine Filling.region_setRegion_of_ne ?_ _
      rcases hx with hx | hx
      · exact hx
      · rw [hadds] at hx
        cases hx
    · have hregion : (F.setRegion target.node (F.region target.node ++ trees)).region target.node =
          trees := by
        rw [Filling.region_setRegion_self, hempty, List.nil_append]
      refine ⟨_, ?_, rfl, rfl, rfl, hgrows'.nsBelow_eq hcontext ▸ hdisplays.fills hregion⟩
      rw [World.morph?_updateMorph hmorph, if_pos rfl, hshown]

/-- A site that changes the attributes of its node, after it has added to the world. -/
theorem Rendering.change (h : Rendering base fragment ts F w)
    (hnode : target.node = fragment ∨ target.node ∈ forestLabels ts)
    (hadds : action.addsMorph = false) (hgrows : w.Grows w₁) (f : Dict String → Dict String) :
    ∃ G, Rendering base fragment ts G { w₁ with dom := w₁.dom.changeAttributes target.node f } ∧
      SiteRendered action target ts F G w
        { w₁ with dom := w₁.dom.changeAttributes target.node f } none := by
  obtain ⟨G, hrendering, halike, hregion⟩ := (h.grow hgrows).changeAttributes hnode f
  refine ⟨G, hrendering, halike, hgrows.size_le, hgrows.morph?_eq, fun x _ => by rw [hregion],
    by rw [hadds]; rfl, fun htrue => ?_⟩
  rw [hadds] at htrue
  cases htrue

end Sites

namespace Hooks.Sound

variable {heap : Heap} {hooks : Hooks σ} {scope : Scope} {p : Program} {action : Action}
  {target : Target} {base w w' : World σ} {fragment : NodeId} {ts : List (Tree NodeId)}
  {F : Filling} {result : Option MorphId}

/-- A site that calls a hook to show something. -/
theorem showIn (hrendering : Rendering base fragment ts F w) (hheap : w.heap = heap)
    (hnode : target.node = fragment ∨ target.node ∈ forestLabels ts)
    (hadds : action.addsMorph = true) {escaped : Bool} {α : Type} {x : Render σ α}
    {f : MorphId → α → Render σ Unit} (hx : x.Adds heap)
    (hf : ∀ morph a, (f morph a).ShowsIn heap morph)
    (hsite : (do
      let morph ← Render.addMorph (.create target.node escaped target.context)
      let a ← x
      f morph a
      return some morph : Render σ (Option MorphId)) w = some (result, w')) :
    ∃ G, Rendering base fragment ts G w' ∧ SiteRendered action target ts F G w w' result := by
  obtain ⟨morph, w₁, h₁, hsite⟩ := Render.exists_of_bind_eq hsite
  cases h₁
  obtain ⟨a, w₂, h₂, hsite⟩ := Render.exists_of_bind_eq hsite
  obtain ⟨_, w₃, h₃, hsite⟩ := Render.exists_of_bind_eq hsite
  cases hsite
  have hgrows := hx (w.addMorph (.create target.node escaped target.context)).2 a w₂ hheap h₂
  obtain ⟨w₃, value, hgrows', hfresh, rfl⟩ := hf _ a w₂ w' (hgrows.heap.trans hheap) h₃
  exact hrendering.showIn hnode hadds (hgrows.trans hgrows') (hfresh.mono hgrows.dom.size_le)

/-- A site that calls a hook to change an element. -/
theorem change (hrendering : Rendering base fragment ts F w) (hheap : w.heap = heap)
    (hnode : target.node = fragment ∨ target.node ∈ forestLabels ts)
    (hadds : action.addsMorph = false) {α : Type} {x : Render σ α} {f : α → Render σ Unit}
    (hx : x.Adds heap) (hf : ∀ a, (f a).ChangesAttributes heap target.node)
    (hsite : (do
      let a ← x
      f a
      return none : Render σ (Option MorphId)) w = some (result, w')) :
    ∃ G, Rendering base fragment ts G w' ∧ SiteRendered action target ts F G w w' result := by
  obtain ⟨a, w₁, h₁, hsite⟩ := Render.exists_of_bind_eq hsite
  obtain ⟨_, w₂, h₂, hsite⟩ := Render.exists_of_bind_eq hsite
  cases hsite
  have hgrows := hx w a w₁ hheap h₁
  obtain ⟨w₂, f, hgrows', rfl⟩ := hf a w₁ w' (hgrows.heap.trans hheap) h₂
  exact hrendering.change hnode hadds (hgrows.trans hgrows') f

/-- With sound hooks a site changes the filling at its node only. -/
theorem renderSite (h : hooks.Sound heap) (hscope : scope.NodeFree heap)
    (hrendering : Rendering base fragment ts F w) (hheap : w.heap = heap)
    (hnode : target.node = fragment ∨ target.node ∈ forestLabels ts)
    (hsite : p.renderSite hooks scope action target w = some (result, w')) :
    ∃ G, Rendering base fragment ts G w' ∧ SiteRendered action target ts F G w w' result := by
  cases action with
  | content call escaped =>
    exact showIn hrendering hheap hnode rfl (h.evaluateArguments hscope call)
      (fun morph a => h.content morph call.path scope a.1 a.2 _ hscope rfl) hsite
  | block call program inverse =>
    exact showIn hrendering hheap hnode rfl (h.evaluateArguments hscope call)
      (fun morph a => h.content morph call.path scope a.1 a.2 _ hscope rfl) hsite
  | component tag hash program =>
    exact showIn hrendering hheap hnode rfl (Render.adds_pure ())
      (fun morph _ => h.component morph tag scope hash _ hscope rfl rfl) hsite
  | attr name quoted parts =>
    exact change hrendering hheap hnode rfl (h.evaluateParts hscope parts)
      (fun values => h.attr target.node name quoted scope values _ hscope) hsite
  | modifier call =>
    exact change hrendering hheap hnode rfl (h.evaluateArguments hscope call)
      (fun a => h.element target.node call.path scope a.1 a.2 _ hscope) hsite

end Hooks.Sound

/-! ## runs -/

/-- The nodes in front of which sites show something. -/
def anchors (sites : List (Action × Target)) : List NodeId :=
  (sites.filter (·.1.addsMorph)).map (·.2.node)

theorem mem_anchors {sites : List (Action × Target)} {x : NodeId} :
    x ∈ anchors sites ↔ ∃ s ∈ sites, s.1.addsMorph = true ∧ s.2.node = x := by
  simp [anchors, and_assoc]

theorem mem_anchors_cons {s : Action × Target} {sites : List (Action × Target)} {x : NodeId}
    (h : x ∈ anchors sites) : x ∈ anchors (s :: sites) := by
  rw [mem_anchors] at h ⊢
  obtain ⟨s', hs, hadds⟩ := h
  exact ⟨s', List.mem_cons_of_mem _ hs, hadds⟩

theorem anchors_cons_of_addsMorph {action : Action} (h : action.addsMorph = true) (target : Target)
    (sites : List (Action × Target)) :
    anchors ((action, target) :: sites) = target.node :: anchors sites := by
  rw [anchors, List.filter_cons, if_pos h]
  rfl

theorem anchors_cons_of_not_addsMorph {action : Action} (h : action.addsMorph = false)
    (target : Target) (sites : List (Action × Target)) :
    anchors ((action, target) :: sites) = anchors sites := by
  rw [anchors, List.filter_cons, if_neg (by simp [h])]
  rfl

/-- Sites that show something in front of different nodes, which are static and in front of which
nothing is shown.  HTML is read in static nodes, or where nothing changes. -/
structure Spread (base : Dom) (ts : List (Tree NodeId)) (F : Filling)
    (sites : List (Action × Target)) : Prop where
  nodup : (anchors sites).Nodup
  static : ∀ x ∈ anchors sites, x ∈ forestLabels ts
  empty : ∀ x ∈ anchors sites, F.region x = []
  context : ∀ s ∈ sites, ∀ id, s.2.context = some id →
    id.index < base.size ∨ id ∈ forestLabels ts

/-- What sites, rendered one after the other, make of the filling and of the morphs: every morph
fills a region, and different morphs different ones. -/
structure SitesRendered (base : Dom) (sites : List (Action × Target)) (ts : List (Tree NodeId))
    (F G : Filling) (w w' : World σ) (morphs : List MorphId) : Prop where
  alike : F.Alike G
  size_le : w.morphs.size ≤ w'.morphs.size
  morph?_eq : ∀ id : MorphId, id.index < w.morphs.size → w'.morph? id = w.morph? id
  region_eq : ∀ x, x ∉ anchors sites → G.region x = F.region x
  anchored : Spread base ts F sites → ∀ x ∈ anchors sites, ∃ id ∈ morphs, ∃ m,
    w'.morph? id = some m ∧ m.anchor = x
  fills : Spread base ts F sites → ∀ id ∈ morphs, ∃ m, w'.morph? id = some m ∧
    m.anchor ∈ anchors sites ∧
    (∀ c, m.context = some c → c.index < base.size ∨ c ∈ forestLabels ts) ∧
    m.escaped = m.shownEscaped ∧ m.Fills G (w'.dom.nsBelow m.context)
  distinct : Spread base ts F sites → ∀ id ∈ morphs, ∀ id' ∈ morphs, ∀ m,
    w'.morph? id = some m → ∀ m', w'.morph? id' = some m' → m.anchor = m'.anchor → id = id'

section Runs

variable {base w w' w'' : World σ} {fragment : NodeId} {ts : List (Tree NodeId)} {F G H : Filling}
  {action : Action} {target : Target} {sites : List (Action × Target)}

theorem SitesRendered.nil (base : Dom) (ts : List (Tree NodeId)) (F : Filling) (w : World σ) :
    SitesRendered base [] ts F F w w [] :=
  ⟨.refl F, Nat.le_refl _, fun _ _ => rfl, fun _ _ => rfl, fun _ => by simp [anchors],
    fun _ => by simp, fun _ => by simp⟩

/-- While sites are rendered, HTML is read in the same namespaces. -/
theorem Rendering.nsBelow_eq (h : Rendering base fragment ts F w)
    (h' : Rendering base fragment ts G w') (halike : F.Alike G) {context : Option NodeId}
    (hcontext : ∀ id, context = some id → id.index < base.dom.size ∨ id ∈ forestLabels ts) :
    w'.dom.nsBelow context = w.dom.nsBelow context := by
  cases context with
  | none => rfl
  | some id =>
    rcases hcontext id rfl with hold | hstatic
    · rw [Dom.nsBelow, Dom.nsBelow, Dom.data, Dom.data, h.stage.extends_base.record_eq id hold,
        h'.stage.extends_base.record_eq id hold]
    · rw [Dom.nsBelow, Dom.nsBelow, h.stage.shows.data_eq hstatic, h'.stage.shows.data_eq hstatic,
        halike.nsBelow]

/-- The sites behind one that has been rendered are still spread. -/
theorem Spread.tail {base : Dom} {result : Option MorphId}
    (h : Spread base ts F ((action, target) :: sites))
    (hsite : SiteRendered action target ts F G w w' result) : Spread base ts G sites := by
  have hcontext : ∀ s ∈ sites, ∀ id, s.2.context = some id →
      id.index < base.size ∨ id ∈ forestLabels ts :=
    fun s hs => h.context s (List.mem_cons_of_mem _ hs)
  obtain ⟨hnodup, hstatic, hempty, -⟩ := h
  cases hadds : action.addsMorph with
  | true =>
    rw [anchors_cons_of_addsMorph hadds] at hnodup hstatic hempty
    rw [List.nodup_cons] at hnodup
    refine ⟨hnodup.2, fun x hx => hstatic x (List.mem_cons_of_mem _ hx), fun x hx => ?_, hcontext⟩
    have hne : x ≠ target.node := by
      rintro rfl
      exact hnodup.1 hx
    rw [hsite.region_eq x (.inl hne)]
    exact hempty x (List.mem_cons_of_mem _ hx)
  | false =>
    rw [anchors_cons_of_not_addsMorph hadds] at hnodup hstatic hempty
    refine ⟨hnodup, hstatic, fun x hx => ?_, hcontext⟩
    rw [hsite.region_eq x (.inr hadds)]
    exact hempty x hx

/-- The morph of the first site fills its region in the end, and no other morph does. -/
theorem SiteRendered.fills_first {result : Option MorphId} {morphs : List MorphId}
    (h : Rendering base fragment ts F w) (h'' : Rendering base fragment ts H w'')
    (hsite : SiteRendered action target ts F G w w' result)
    (hsites : SitesRendered base.dom sites ts G H w' w'' morphs)
    (hspread : Spread base.dom ts F ((action, target) :: sites)) {id : MorphId}
    (hresult : result = some id) :
    ∃ m, w''.morph? id = some m ∧ m.anchor = target.node ∧ target.node ∉ anchors sites ∧
      target.node ∈ anchors ((action, target) :: sites) ∧
      (∀ c, m.context = some c → c.index < base.dom.size ∨ c ∈ forestLabels ts) ∧
      m.escaped = m.shownEscaped ∧ m.Fills H (w''.dom.nsBelow m.context) := by
  have hadds : action.addsMorph = true := by
    have hcase := hsite.result_eq
    rw [hresult] at hcase
    split at hcase
    · assumption
    · cases hcase
  have hid : id = ⟨w.morphs.size⟩ := by
    have hcase := hsite.result_eq
    rw [hresult, if_pos hadds] at hcase
    exact Option.some.inj hcase
  subst hid
  have hanchors := anchors_cons_of_addsMorph hadds target sites
  have hmem : target.node ∈ anchors ((action, target) :: sites) := by
    rw [hanchors]
    exact List.mem_cons_self
  have hnot : target.node ∉ anchors sites := by
    have hnodup := hspread.nodup
    rw [hanchors, List.nodup_cons] at hnodup
    exact hnodup.1
  have hcontext := hspread.context (action, target) List.mem_cons_self
  obtain ⟨m, hm, hanchor, hmcontext, hescaped, hfills⟩ :=
    hsite.fills hadds (hspread.static _ hmem) (hspread.empty _ hmem) fun c hc => by
      rcases hcontext c hc with hold | hstatic
      · exact Nat.lt_of_lt_of_le hold h.stage.extends_base.size_le
      · exact h.stage.shows.index_lt hstatic
  have hlt := World.index_lt_of_morph?_eq_some hm
  rw [← hmcontext] at hcontext hfills
  refine ⟨m, ?_, hanchor, hnot, hmem, hcontext, hescaped, ?_⟩
  · rw [hsites.morph?_eq _ hlt, hm]
  · rw [h.nsBelow_eq h'' (hsite.alike.trans hsites.alike) hcontext]
    exact hfills.congr (hsites.region_eq _ (by rw [hanchor]; exact hnot))

/-- One site first, then the others. -/
theorem SitesRendered.cons {result : Option MorphId} {morphs : List MorphId}
    (h : Rendering base fragment ts F w) (h'' : Rendering base fragment ts H w'')
    (hsite : SiteRendered action target ts F G w w' result)
    (hsites : SitesRendered base.dom sites ts G H w' w'' morphs) :
    SitesRendered base.dom ((action, target) :: sites) ts F H w w''
      (result.toList ++ morphs) := by
  have hmem : ∀ id, id ∈ result.toList ++ morphs → result = some id ∨ id ∈ morphs := by
    intro id hid
    rwa [List.mem_append, Option.mem_toList] at hid
  constructor
  case alike => exact hsite.alike.trans hsites.alike
  case size_le => exact Nat.le_trans hsite.size_le hsites.size_le
  case morph?_eq =>
    intro id hid
    rw [hsites.morph?_eq id (Nat.lt_of_lt_of_le hid hsite.size_le), hsite.morph?_eq id hid]
  case region_eq =>
    intro x hx
    rw [hsites.region_eq x fun h => hx (mem_anchors_cons h)]
    refine hsite.region_eq x ?_
    by_cases hadds : action.addsMorph = true
    · rw [anchors_cons_of_addsMorph hadds, List.mem_cons] at hx
      exact .inl fun heq => hx (.inl heq)
    · exact .inr (Bool.eq_false_iff.2 hadds)
  case anchored =>
    intro hspread x hx
    by_cases hrest : x ∈ anchors sites
    · obtain ⟨id, hid, hm⟩ := hsites.anchored (hspread.tail hsite) x hrest
      exact ⟨id, List.mem_append_right _ hid, hm⟩
    · -- Only the first site is left.
      have hadds : action.addsMorph = true := by
        refine Bool.of_not_eq_false fun hnot => hrest ?_
        rwa [anchors_cons_of_not_addsMorph hnot] at hx
      rw [anchors_cons_of_addsMorph hadds, List.mem_cons] at hx
      obtain rfl := hx.resolve_right hrest
      have hresult := hsite.result_eq
      rw [if_pos hadds] at hresult
      obtain ⟨m, hm, hanchor, -⟩ := hsite.fills_first h h'' hsites hspread hresult
      exact ⟨_, List.mem_append_left _ (Option.mem_toList.2 hresult), m, hm, hanchor⟩
  case fills =>
    intro hspread id hid
    rcases hmem id hid with hresult | hid
    · obtain ⟨m, hm, hanchor, -, hfirst, hrest⟩ := hsite.fills_first h h'' hsites hspread hresult
      exact ⟨m, hm, by rw [hanchor]; exact hfirst, hrest⟩
    · obtain ⟨m, hm, hanchor, hrest⟩ := hsites.fills (hspread.tail hsite) id hid
      exact ⟨m, hm, mem_anchors_cons hanchor, hrest⟩
  case distinct =>
    intro hspread
    -- The first morph is alone in front of its anchor.
    have hfirst : ∀ id id', result = some id → id' ∈ morphs → ∀ m, w''.morph? id = some m →
        ∀ m', w''.morph? id' = some m' → m.anchor ≠ m'.anchor := by
      intro id id' hid hid' m hm m' hm' heq
      obtain ⟨m₁, hm₁, hanchor, hnot, -⟩ := hsite.fills_first h h'' hsites hspread hid
      obtain ⟨m₂, hm₂, hmem₂, -⟩ := hsites.fills (hspread.tail hsite) id' hid'
      obtain rfl : m = m₁ := Option.some.inj (hm.symm.trans hm₁)
      obtain rfl : m' = m₂ := Option.some.inj (hm'.symm.trans hm₂)
      rw [← heq, hanchor] at hmem₂
      exact hnot hmem₂
    intro id hid id' hid' m hm m' hm' heq
    rcases hmem id hid with h₁ | h₁
    · rcases hmem id' hid' with h₂ | h₂
      · exact Option.some.inj (h₁.symm.trans h₂)
      · exact absurd heq (hfirst id id' h₁ h₂ m hm m' hm')
    · rcases hmem id' hid' with h₂ | h₂
      · exact absurd heq.symm (hfirst id' id h₂ h₁ m' hm' m hm)
      · exact hsites.distinct (hspread.tail hsite) id h₁ id' h₂ m hm m' hm' heq

/-- Sites of nodes of the fragment, rendered one after the other with sound hooks. -/
theorem Hooks.Sound.run {heap : Heap} {hooks : Hooks σ} {scope : Scope} {p : Program}
    (h : hooks.Sound heap) (hscope : scope.NodeFree heap)
    (hrendering : Rendering base fragment ts F w) (hheap : w.heap = heap)
    (hnodes : ∀ s ∈ sites, s.2.node = fragment ∨ s.2.node ∈ forestLabels ts)
    {results : List (Option MorphId)} (hrun : p.run hooks scope sites w = some (results, w'')) :
    ∃ H, Rendering base fragment ts H w'' ∧
      SitesRendered base.dom sites ts F H w w'' (results.filterMap id) := by
  induction sites generalizing w F results with
  | nil =>
    cases hrun
    exact ⟨F, hrendering, .nil ..⟩
  | cons s sites ih =>
    obtain ⟨action, target⟩ := s
    rw [List.forall_mem_cons] at hnodes
    obtain ⟨result, results', w₁, rfl, hsite, hrun'⟩ := Program.exists_of_run_cons hrun
    obtain ⟨G, hrendering₁, hrendered⟩ := h.renderSite hscope hrendering hheap hnodes.1 hsite
    obtain ⟨H, hrendering₂, hrest⟩ := ih hrendering₁
      (by rw [hrendering₁.heap, ← hrendering.heap, hheap]) hnodes.2 hrun'
    refine ⟨H, hrendering₂, ?_⟩
    have hcons := SitesRendered.cons hrendering hrendering₂ hrendered hrest
    cases result <;> exact hcons

end Runs

/-! ## renders -/

/-- Paths do not leave a tree that is held. -/
theorem Dom.Holds.resolve_mem {dom : Dom} {q : Option NodeId} {t : Tree NodeId} (h : dom.Holds q t)
    (path : List Nat) {node : NodeId} (parent : NodeId) (hnode : node ∈ t.labels) :
    (dom.resolve node parent path).1 ∈ t.labels := by
  induction path generalizing node parent with
  | nil => exact hnode
  | cons index path ih =>
    rw [Dom.resolve]
    split
    · next child hchild =>
      exact ih node (h.mem_of_mem_children t node hnode child (List.mem_of_getElem? hchild))
    · exact hnode

section Renders

variable {heap : Heap} {hooks : Hooks σ} {scope : Scope} {p : Program} {w w' : World σ}
  {context : Option NodeId}

/-- The static trees of a program in front of which nothing is shown yet, and the world that holds
them. -/
theorem Rendering.start (w : World σ) (p : Program) (context : Option NodeId) :
    Rendering w (p.plant w.dom context).1
      (numberForest (w.dom.size + 1) (p.forest (w.dom.nsBelow context)))
      ⟨(p.plant w.dom context).2.data, fun _ => []⟩
      { w with dom := (p.plant w.dom context).2 } where
  stage := Stage.start w.dom (p.plantableAll_forest (w.dom.nsBelow context))
  heap := rfl
  linked hw := (hw.plantFragment _).1
  size_le := Nat.le_refl _
  morph?_eq _ _ := rfl

/-- The targets of the sites of a program are the fragment and static nodes. -/
theorem Program.node_mem_of_mem_targets (w : World σ) (p : Program) (context : Option NodeId) :
    ∀ s ∈ p.targets (p.plant w.dom context).2 (p.plant w.dom context).1 context,
      s.2.node = (p.plant w.dom context).1 ∨
        s.2.node ∈ forestLabels
          (numberForest (w.dom.size + 1) (p.forest (w.dom.nsBelow context))) := by
  intro s hs
  rw [Program.targets, List.mem_map] at hs
  obtain ⟨site, -, rfl⟩ := hs
  have hplanted := w.dom.planted_plantFragment (p.plantableAll_forest (w.dom.nsBelow context))
  have hmem := hplanted.holds.resolve_mem site.path (p.plant w.dom context).1
    (List.mem_cons_self (l := forestLabels _))
  rw [Tree.labels, List.mem_cons] at hmem
  exact hmem

namespace Hooks.Sound

/-- The sites of a program, rendered in the fragment it has built. -/
theorem renderSites (h : hooks.Sound heap) (hscope : scope.NodeFree heap) (hheap : w.heap = heap)
    {morphs : List MorphId}
    (hsites : p.renderSites hooks scope (p.plant w.dom context).1 context
      { w with dom := (p.plant w.dom context).2 } = some (morphs, w')) :
    ∃ G, Rendering w (p.plant w.dom context).1
        (numberForest (w.dom.size + 1) (p.forest (w.dom.nsBelow context))) G w' ∧
      SitesRendered w.dom (if p.isStatic then []
          else p.targets (p.plant w.dom context).2 (p.plant w.dom context).1 context)
        (numberForest (w.dom.size + 1) (p.forest (w.dom.nsBelow context)))
        ⟨(p.plant w.dom context).2.data, fun _ => []⟩ G { w with dom := (p.plant w.dom context).2 }
        w' morphs := by
  have hstart := Rendering.start w p context
  rw [Program.renderSites_eq] at hsites
  split at hsites
  · next hstatic =>
    cases hsites
    rw [if_pos hstatic]
    exact ⟨_, hstart, .nil ..⟩
  · next hstatic =>
    rw [if_neg hstatic]
    obtain ⟨⟨results, w₁⟩, hrun, heq⟩ := Option.map_eq_some_iff.1 hsites
    cases heq
    exact h.run hscope hstart hheap (Program.node_mem_of_mem_targets w p context) hrun

/-- A render adds a tree of new nodes to the world, and nothing else changes. -/
theorem render (h : hooks.Sound heap) (hscope : scope.NodeFree heap) (hheap : w.heap = heap)
    {rendered : Rendered} (hrender : p.render hooks scope context w = some (rendered, w')) :
    w.Grows w' ∧ ∃ t, t.label = rendered.root.node ∧ w.dom.Loose w'.dom t := by
  rw [Program.render_eq] at hrender
  obtain ⟨⟨morphs, w₁⟩, hsites, heq⟩ := Option.map_eq_some_iff.1 hrender
  cases heq
  obtain ⟨G, hrendering, -⟩ := h.renderSites hscope hheap hsites
  obtain ⟨t, ht, hloose, -⟩ := hrendering.stage.loose_unwrap
  refine ⟨⟨hrendering.heap, hrendering.stage.extends_unwrap,
    fun hw => (hrendering.linked hw).unwrap _, hrendering.size_le, hrendering.morph?_eq⟩,
    t, ht.symm, hloose⟩

end Hooks.Sound

end Renders

end LiveTemplate
