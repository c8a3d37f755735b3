import LiveTemplate.Proofs.Dom.Inheriting
import LiveTemplate.Proofs.Program.Resolution
import LiveTemplate.Proofs.Render.Placing

/-!
# LiveTemplate.Proofs.Render.Assembling

Putting renders together from the nodes of a body.

An `Interpretation` says what every node of a template stands for: what is shown in front of
it and what becomes of it.  If the sites of each node make of it what it stands for, whatever
has been rendered before (`Occurrence.Settles`), then a render of the compiled body makes the
trees the body stands for (`exists_renderSites`): the sites of a node change the filling of
the static trees at that node only, and they are rendered node by node.
-/

namespace LiveTemplate

variable {σ : Type}

/-! ## interpretations -/

/-- What nodes stand for where the namespace `root` is handed down to a body.  `around` is the
namespace that the elements around a node have determined, and `inherited` the one that the node
above it hands down. -/
structure Interpretation (root : Namespace) where
  /-- The trees that are shown in front of a node. -/
  front (inherited : Namespace) (node : Node) : List Markup
  /-- What becomes of a node, apart from its children. -/
  final (around : Option Namespace) (node : Node) : NodeData
  trees (around : Option Namespace) (inherited : Namespace) (nodes : List Node) : List Markup
  nsBelow_final : ∀ around node,
    (final around node).nsBelow = (node.data root around).nsBelow
  trees_nil : ∀ around inherited, trees around inherited [] = []
  trees_cons : ∀ around inherited node nodes,
    trees around inherited (node :: nodes) =
      front inherited node ++
        .node () (final around node)
            (trees (node.nsBelow around) (node.data root around).nsBelow node.children) ::
          trees around inherited nodes

/-- A filling has at a node trees of these shapes, and this data. -/
structure Filling.Has (F : Filling) (x : NodeId) (front : List Markup) (data : NodeData) :
    Prop where
  region : shapes (F.region x) = front
  data : F.data x = data

/-- Static trees in which every node is filled with what it stands for are the trees of the nodes.
The namespaces are handed down as in the document in which the static trees were built. -/
theorem shapes_forest {root inherited : Namespace} (I : Interpretation root) {built : Dom}
    {fragment : NodeId} {F : Filling} {first : Nat} (hfragment : fragment.index < first)
    (nodes : List Node) (path : List Nat) (around : Option Namespace) (index number base : Nat)
    {q : NodeId}
    (hholds : built.HoldsAll (some q) (numberForest (first + number) (skeletons root around nodes)))
    (hinherited : inherited = if q = fragment then root else (built.data q).nsBelow)
    (h : ∀ o ∈ occurrencesOf path around index number base nodes,
      F.Has ⟨first + o.number⟩
        (I.front (built.inherited fragment root ⟨first + o.number⟩) o.node)
        (I.final o.around o.node)) :
    shapes (F.forest (numberForest (first + number) (skeletons root around nodes))) =
      I.trees around inherited nodes := by
  induction nodes using nodes_induction
      generalizing path around index number base q inherited with
  | nil => exact (I.trees_nil around inherited).symm
  | cons node nodes ihchildren ihnodes =>
    have hcount : (Tree.node () (node.data root around)
        (skeletons root (node.nsBelow around) node.children)).count = node.count := by
      rw [Tree.count, forestCount_skeletons, count_eq]
    rw [skeletons, skeleton_eq, numberForest, numberTree, hcount, Nat.add_assoc,
      Nat.add_assoc] at hholds ⊢
    obtain ⟨⟨-, hrecord, hbelow⟩, hrest⟩ := hholds
    simp only [occurrencesOf_cons, List.mem_cons, List.mem_append] at h
    obtain ⟨hregion, hdata⟩ := h _ (.inl rfl)
    have hne : (⟨first + number⟩ : NodeId) ≠ fragment := by
      rintro rfl
      exact absurd hfragment (Nat.not_lt.2 (Nat.le_add_right ..))
    have hown : built.inherited fragment root ⟨first + number⟩ = inherited := by
      have hparent : built.parent? ⟨first + number⟩ = some q := by rw [Dom.parent?, hrecord]
      rw [Dom.inherited, hparent, hinherited]
      simp only [Option.some.injEq]
      rfl
    have hhanded : (node.data root around).nsBelow = if (⟨first + number⟩ : NodeId) = fragment
        then root else (built.data ⟨first + number⟩).nsBelow := by
      rw [if_neg hne, Dom.data_of_record hrecord]
    have hchildren := ihchildren _ _ _ _ _ hbelow hhanded fun o ho => h o (.inr (.inl ho))
    have hnodes := ihnodes _ _ _ _ _ hrest hinherited fun o ho => h o (.inr (.inr ho))
    rw [Filling.forest_cons, shapes_append, shapes, Tree.shape, hregion, hdata, hown, hchildren,
      hnodes, I.trees_cons]

/-! ## targets -/

/-- The target of the sites of a node. -/
def Occurrence.target (o : Occurrence) (dom : Dom) (fragment : NodeId) (context : Option NodeId) :
    Target :=
  let (node, parent) := dom.resolve fragment fragment o.path
  { node, context := if parent = fragment then context else some parent }

/-- A node that has been built is the target; in front of it HTML is read as content of its parent,
or as what the whole is the content of. -/
theorem Occurrence.IsBuilt.target_eq {o : Occurrence} {root : Namespace} {dom : Dom}
    {fragment id parent : NodeId} (h : o.IsBuilt root dom fragment id parent)
    (context : Option NodeId) :
    o.target dom fragment context =
      { node := id, context := if parent = fragment then context else some parent } := by
  rw [Occurrence.target, h.resolve]

/-- The targets of a compiled body, node by node. -/
theorem targets_compileBody (body : Body Node) (dom : Dom) (fragment : NodeId)
    (context : Option NodeId) :
    (compileBody body).targets dom fragment context = body.occurrences.flatMap fun o =>
      (o.node.actions o.base).map fun action => (action, o.target dom fragment context) := by
  rw [Program.targets, sites_compileBody, List.map_flatMap]
  congr 1
  funext o
  rw [Occurrence.sites, List.map_map]
  rfl

/-- While a body is rendered, HTML is read in front of each of its nodes in the namespace that the
node above it handed down when the static tree was built. -/
theorem nsBelow_target {body : Body Node} {base dom built : Dom} {fragment : NodeId}
    {ts : List (Tree NodeId)} {F : Filling} {context : Option NodeId} {first : Nat}
    (hcontext : ∀ id, context = some id → id.index < base.size)
    (hbuilt : ∀ o ∈ body.occurrences,
      ∃ parent, o.IsBuilt (base.nsBelow context) built fragment ⟨first + o.number⟩ parent)
    (hlabels : ∀ o ∈ body.occurrences, ⟨first + o.number⟩ ∈ forestLabels ts)
    (hstage : Stage base fragment ts F dom)
    (hkind : ∀ x, (F.data x).nsBelow = (built.data x).nsBelow) {o : Occurrence}
    (ho : o ∈ body.occurrences) :
    dom.nsBelow (o.target built fragment context).context =
      built.inherited fragment (base.nsBelow context) ⟨first + o.number⟩ := by
  obtain ⟨parent, hid⟩ := hbuilt o ho
  rw [hid.target_eq, Dom.inherited, hid.parent?_eq]
  simp only [Option.some.injEq]
  split
  · cases context with
    | none => rfl
    | some id =>
      rw [Dom.nsBelow, Dom.data, hstage.extends_base.record_eq id (hcontext id rfl)]
      rfl
  · next hne =>
    rcases parent_isBuilt hbuilt ho hid with ⟨rfl, -⟩ | ⟨o', ho', rfl, -⟩
    · exact absurd rfl hne
    · rw [Dom.nsBelow, hstage.shows.data_eq (hlabels o' ho'), hkind]
      rfl

/-- While a body is rendered, the element as whose content HTML is read is in the document. -/
theorem index_lt_of_target_context {body : Body Node} {base dom built : Dom} {root : Namespace}
    {fragment : NodeId} {ts : List (Tree NodeId)} {F : Filling} {context : Option NodeId}
    {first : Nat} (hcontext : ∀ id, context = some id → id.index < base.size)
    (hbuilt : ∀ o ∈ body.occurrences,
      ∃ parent, o.IsBuilt root built fragment ⟨first + o.number⟩ parent)
    (hlabels : ∀ o ∈ body.occurrences, ⟨first + o.number⟩ ∈ forestLabels ts)
    (hstage : Stage base fragment ts F dom) {o : Occurrence} (ho : o ∈ body.occurrences)
    {id : NodeId} (hid : (o.target built fragment context).context = some id) :
    id.index < dom.size := by
  obtain ⟨parent, hbuiltAt⟩ := hbuilt o ho
  rw [hbuiltAt.target_eq] at hid
  dsimp only at hid
  split at hid
  · exact Nat.lt_of_lt_of_le (hcontext id hid) hstage.extends_base.size_le
  · next hne =>
    obtain rfl := Option.some.inj hid
    rcases parent_isBuilt hbuilt ho hbuiltAt with ⟨rfl, -⟩ | ⟨o', ho', rfl, -⟩
    · exact absurd rfl hne
    · exact hstage.shows.index_lt (hlabels o' ho')

/-- Different nodes have their sites at different targets. -/
theorem nodup_targets {body : Body Node} {target : Occurrence → Target} {first : Nat}
    (h : ∀ o ∈ body.occurrences, (target o).node = ⟨first + o.number⟩) :
    (body.occurrences.map fun o => (target o).node).Nodup := by
  have hmap : (body.occurrences.map fun o => (target o).node) =
      (body.occurrences.map Occurrence.number).map fun n => ⟨first + n⟩ := by
    rw [List.map_map]
    exact List.map_congr_left h
  rw [hmap, numbers_bodyOccurrences]
  exact List.pairwise_map.2 (List.nodup_range.imp fun hne heq => hne (by simpa using heq))

/-- The sites of a compiled body that can be rendered at their targets are rendered. -/
theorem renderSites_of_run {body : Body Node} {hooks : Hooks σ} {scope : Scope} {fragment : NodeId}
    {context : Option NodeId} {w w' : World σ} {results : List (Option MorphId)}
    (hrun : (compileBody body).run hooks scope
      ((compileBody body).targets w.dom fragment context) w = some (results, w')) :
    (compileBody body).renderSites hooks scope fragment context w =
      some (results.filterMap id, w') := by
  rw [Program.renderSites_eq]
  split
  · next hstatic =>
    rw [Program.targets, sites_of_isStatic hstatic] at hrun
    cases hrun
    rfl
  · rw [hrun]
    rfl

/-! ## sites of a node -/

namespace Rendering

variable {base w w₁ : World σ} {fragment : NodeId} {ts : List (Tree NodeId)} {F : Filling}
  {target : Target}

/-- What is shown in a new morph in front of a node, where nothing was, becomes its region. -/
theorem present (h : Rendering base fragment ts F w) (hnode : target.node ∈ forestLabels ts)
    (hregion : F.region target.node = []) {escaped : Bool}
    (hgrows : (w.addMorph (.create target.node escaped target.context)).2.Grows w₁) {value : Value}
    {trees : List (Tree NodeId)} (hdisplays :
      (Morph.create target.node escaped target.context).Displays w.dom w₁.dom value trees) :
    Rendering base fragment ts (F.setRegion target.node trees)
      (w₁.updateMorph ⟨w.morphs.size⟩ value) := by
  have hmorph := hgrows.morph?_new
  have hgrows' := (World.Grows.addMorph w (.create target.node escaped target.context)).trans hgrows
  have hupdate := (h.stage.first_update hgrows.dom
    (m := .create target.node escaped target.context) hnode rfl rfl hdisplays).2
  rw [show F.region (Morph.create target.node escaped target.context).anchor = [] from hregion,
    List.nil_append, ← World.dom_updateMorph hmorph] at hupdate
  refine h.updateMorph hgrows' (Nat.le_refl _) hmorph ?_ hupdate
  cases hdisplays with
  | node t hloose => exact fun id hid => ⟨t, Value.node.inj hid, hloose⟩
  | new _ hvalue => exact Value.fresh_of_not_node hvalue

/-- The attributes of a static node change. -/
theorem setAttributes (h : Rendering base fragment ts F w) {node : NodeId}
    (hnode : node ∈ forestLabels ts) (f : Dict String → Dict String) :
    Rendering base fragment ts (F.setData node ((F.data node).mapAttributes f))
      { w with dom := w.dom.changeAttributes node f } where
  stage := h.stage.changeData hnode (NodeData.mapAttributes f)
  heap := h.heap
  linked hbase := (h.linked hbase).changeData _ _
  size_le := h.size_le
  morph?_eq := h.morph?_eq

/-- A value that is no node is shown as its trees. -/
theorem present_new (h : Rendering base fragment ts F w) (hnode : target.node ∈ forestLabels ts)
    (hregion : F.region target.node = []) (escaped : Bool) {value : Value}
    (hvalue : value.isNode = false) :
    Rendering base fragment ts
      (F.setRegion target.node
        ((Morph.create target.node escaped target.context).newTrees value w.dom))
      ((w.addMorph (.create target.node escaped target.context)).2.updateMorph ⟨w.morphs.size⟩
        value) :=
  h.present hnode hregion (.refl _) (.new value hvalue)

end Rendering

/-- The sites of a node make of it what it stands for and leave other nodes alone, whatever has
been rendered before. -/
def Occurrence.Settles (o : Occurrence) (p : Program) (hooks : Hooks σ) (scope : Scope)
    (heap : Heap) {root : Namespace} (I : Interpretation root) : Prop :=
  ∀ (base w : World σ) (fragment : NodeId) (ts : List (Tree NodeId)) (F : Filling)
    (target : Target), Rendering base fragment ts F w → w.heap = heap →
    target.node ∈ forestLabels ts →
    (∀ id, target.context = some id → id.index < w.dom.size) → F.region target.node = [] →
    F.data target.node = o.node.data root o.around →
      ∃ results w' F', p.run hooks scope
          ((o.node.actions o.base).map fun action => (action, target)) w = some (results, w') ∧
        Rendering base fragment ts F' w' ∧
        F'.Has target.node (I.front (w.dom.nsBelow target.context) o.node)
          (I.final o.around o.node) ∧
        ∀ x, x ≠ target.node → F'.region x = F.region x ∧ F'.data x = F.data x

/-- A node without sites that is built as what it becomes, and in front of which nothing is
shown. -/
theorem Occurrence.settles_of_static {o : Occurrence} {p : Program} {hooks : Hooks σ}
    {scope : Scope} {heap : Heap} {root : Namespace} {I : Interpretation root}
    (hactions : o.node.actions o.base = []) (hfront : ∀ ns, I.front ns o.node = [])
    (hfinal : I.final o.around o.node = o.node.data root o.around) :
    o.Settles p hooks scope heap I := by
  intro base w fragment ts F target hrendering _ _ _ hregion hdata
  rw [hactions]
  exact ⟨[], w, F, rfl, hrendering, ⟨by rw [hregion, hfront]; rfl, by rw [hdata, hfinal]⟩,
    fun _ _ => ⟨rfl, rfl⟩⟩

/-- Sites that change the attributes of their node, rendered one after the other: each adds to the
world before it changes the attributes as it says. -/
theorem Rendering.run_changes {base w : World σ} {fragment : NodeId} {ts : List (Tree NodeId)}
    {F : Filling} (p : Program) (hooks : Hooks σ) (scope : Scope) {heap : Heap} {target : Target}
    (hnode : target.node ∈ forestLabels ts)
    (changes : List (Action × (Dict String → Dict String)))
    (hchanges : ∀ change ∈ changes, ∀ w : World σ, w.heap = heap → ∃ w₁,
      p.renderSite hooks scope change.1 target w =
          some (none, { w₁ with dom := w₁.dom.changeAttributes target.node change.2 }) ∧
        w.Grows w₁)
    (hheap : w.heap = heap) (hrendering : Rendering base fragment ts F w) :
    ∃ results w' F', p.run hooks scope (changes.map fun change => (change.1, target)) w =
        some (results, w') ∧
      Rendering base fragment ts F' w' ∧ F'.region = F.region ∧
      (∀ x, x ≠ target.node → F'.data x = F.data x) ∧
      F'.data target.node = (F.data target.node).mapAttributes fun d =>
        changes.foldl (fun d change => change.2 d) d := by
  induction changes generalizing w F with
  | nil =>
    refine ⟨[], w, F, rfl, hrendering, rfl, fun _ _ => rfl, ?_⟩
    cases F.data target.node <;> rfl
  | cons change changes ih =>
    rw [List.forall_mem_cons] at hchanges
    obtain ⟨w₁, hsite, hgrows⟩ := hchanges.1 w hheap
    obtain ⟨results, w', F', hrun, hrendering', hregion, hother, hdata⟩ :=
      ih (w := { w₁ with dom := w₁.dom.changeAttributes target.node change.2 }) hchanges.2
        (hgrows.heap.trans hheap) ((hrendering.grow hgrows).setAttributes hnode change.2)
    refine ⟨none :: results, w', F', Program.run_cons hsite hrun, hrendering', hregion,
      fun x hx => ?_, ?_⟩
    · rw [hother x hx, Filling.data_setData, if_neg hx]
    · rw [hdata, Filling.data_setData, if_pos rfl]
      cases F.data target.node <;> rfl

/-- The sites of dynamic attributes, each with what it makes of the attributes. -/
def attributeChanges (f : Attribute → Dict String → Dict String) (attributes : List Attribute) :
    List (Action × (Dict String → Dict String)) :=
  attributes.filterMap fun a => a.action?.map (·, f a)

theorem map_fst_attributeChanges (f : Attribute → Dict String → Dict String)
    (attributes : List Attribute) :
    (attributeChanges f attributes).map Prod.fst = attributes.filterMap Attribute.action? := by
  rw [attributeChanges, List.map_filterMap]
  congr 1
  funext a
  cases a.action? <;> rfl

/-- Static attributes have no sites, and nothing is made of them. -/
theorem foldl_attributeChanges {f : Attribute → Dict String → Dict String}
    (hf : ∀ a, a.action? = none → ∀ d, f a d = d) (attributes : List Attribute) (d : Dict String) :
    (attributeChanges f attributes).foldl (fun d change => change.2 d) d =
      attributes.foldl (fun d a => f a d) d := by
  induction attributes generalizing d with
  | nil => rfl
  | cons a attributes ih =>
    rw [attributeChanges, List.foldl_cons]
    cases haction : a.action? with
    | none =>
      rw [List.filterMap_cons_none (by rw [haction]; rfl), hf a haction]
      exact ih d
    | some action =>
      rw [List.filterMap_cons_some (by rw [haction]; rfl), List.foldl_cons]
      exact ih (f a d)

/-! ## all sites -/

section Runs

variable {p : Program} {hooks : Hooks σ} {scope : Scope} {heap : Heap} {root : Namespace}
  {I : Interpretation root} {base w : World σ} {fragment : NodeId} {ts : List (Tree NodeId)}
  {F : Filling}

/-- The sites of nodes, rendered node by node, make of them what they stand for, if what the node
above hands down stays as it is. -/
theorem run_occurrences {inherited : Occurrence → Namespace} {target : Occurrence → Target}
    {F₀ : Filling} (os : List Occurrence)
    (hsettles : ∀ o ∈ os, o.Settles p hooks scope heap I)
    (hnode : ∀ o ∈ os, (target o).node ∈ forestLabels ts)
    (hnodup : (os.map fun o => (target o).node).Nodup)
    (hcontext : ∀ o ∈ os, ∀ F dom, Stage base.dom fragment ts F dom →
      ∀ id, (target o).context = some id → id.index < dom.size)
    (hns : ∀ o ∈ os, ∀ F dom, Stage base.dom fragment ts F dom →
      (∀ x, (F.data x).nsBelow = (F₀.data x).nsBelow) →
        dom.nsBelow (target o).context = inherited o)
    (hrendering : Rendering base fragment ts F w) (hheap : w.heap = heap)
    (hkind : ∀ x, (F.data x).nsBelow = (F₀.data x).nsBelow)
    (hfresh : ∀ o ∈ os, F.region (target o).node = [] ∧
      F.data (target o).node = o.node.data root o.around) :
    ∃ results w' F', p.run hooks scope
        (os.flatMap fun o => (o.node.actions o.base).map fun action => (action, target o)) w =
          some (results, w') ∧
      Rendering base fragment ts F' w' ∧
      (∀ o ∈ os, F'.Has (target o).node (I.front (inherited o) o.node)
        (I.final o.around o.node)) ∧
      ∀ x, (∀ o ∈ os, x ≠ (target o).node) → F'.region x = F.region x ∧ F'.data x = F.data x := by
  induction os generalizing w F with
  | nil => exact ⟨[], w, F, rfl, hrendering, by simp, fun _ _ => ⟨rfl, rfl⟩⟩
  | cons o os ih =>
    simp only [List.forall_mem_cons] at hsettles hnode hcontext hns hfresh
    rw [List.map_cons, List.nodup_cons] at hnodup
    have hne : ∀ o' ∈ os, (target o').node ≠ (target o).node :=
      fun o' ho' heq => hnodup.1 (List.mem_map.2 ⟨o', ho', heq⟩)
    obtain ⟨results, w₁, F₁, hrun, hrendering₁, hhas, hother⟩ :=
      hsettles.1 base w fragment ts F (target o) hrendering hheap hnode.1
        (hcontext.1 F w.dom hrendering.stage) hfresh.1.1 hfresh.1.2
    rw [hns.1 F w.dom hrendering.stage hkind] at hhas
    have hkind₁ : ∀ x, (F₁.data x).nsBelow = (F₀.data x).nsBelow := by
      intro x
      rw [← hkind]
      by_cases hx : x = (target o).node
      · rw [hx, hhas.data, hfresh.1.2, I.nsBelow_final]
      · rw [(hother x hx).2]
    have hheap₁ : w₁.heap = heap := by rw [hrendering₁.heap, ← hrendering.heap, hheap]
    obtain ⟨results', w₂, F₂, hrun', hrendering₂, hall, hrest⟩ := ih hsettles.2 hnode.2 hnodup.2
      hcontext.2 hns.2 hrendering₁ hheap₁ hkind₁ fun o' ho' => by
        obtain ⟨hregion, hdata⟩ := hother _ (hne o' ho')
        rw [hregion, hdata]
        exact hfresh.2 o' ho'
    refine ⟨results ++ results', w₂, F₂, ?_, hrendering₂, ?_, fun x hx => ?_⟩
    · rw [List.flatMap_cons]
      exact Program.run_append hrun hrun'
    · -- What the first node has become stays when the others are rendered.
      obtain ⟨hregion, hdata⟩ := hrest _ fun o' ho' => (hne o' ho').symm
      exact List.forall_mem_cons.2
        ⟨⟨by rw [hregion, hhas.region], by rw [hdata, hhas.data]⟩, hall⟩
    · rw [List.forall_mem_cons] at hx
      obtain ⟨hregion, hdata⟩ := hrest x hx.2
      rw [hregion, hdata]
      exact hother x hx.1

end Runs

/-! ## renders -/

section Renders

variable {hooks : Hooks σ} {scope : Scope} {context : Option NodeId} {w : World σ}
  {body : Body Node}

/-- The sites of a body, rendered in the fragment that has been built, fill it with the trees the
body stands for. -/
theorem exists_renderSites (I : Interpretation (w.dom.nsBelow context))
    (hsettles : ∀ o ∈ body.occurrences, o.Settles (compileBody body) hooks scope w.heap I)
    (hcontext : ∀ id, context = some id → id.index < w.dom.size) :
    ∃ morphs w' ts F, (compileBody body).renderSites hooks scope
        ((compileBody body).plant w.dom context).1 context
        { w with dom := ((compileBody body).plant w.dom context).2 } = some (morphs, w') ∧
      Rendering w ((compileBody body).plant w.dom context).1 ts F w' ∧
      shapes (F.forest ts) = I.trees none (w.dom.nsBelow context) body.children := by
  have hbuilt := isBuilt_compileBody body w.dom (w.dom.nsBelow context)
  have hstart := Rendering.start w (compileBody body) context
  have hplanted :=
    w.dom.planted_plantFragment ((compileBody body).plantableAll_forest (w.dom.nsBelow context))
  rw [Program.plant] at hstart ⊢
  generalize hplant : w.dom.plantFragment ((compileBody body).forest (w.dom.nsBelow context)) =
    planted at *
  obtain ⟨fragment, built⟩ := planted
  obtain ⟨rfl, -, hholds, -⟩ := hplanted
  simp only at hbuilt hstart hholds ⊢
  have hlabels : ∀ o ∈ body.occurrences, (⟨w.dom.size + 1 + o.number⟩ : NodeId) ∈ forestLabels
      (numberForest (w.dom.size + 1) ((compileBody body).forest (w.dom.nsBelow context))) :=
    fun o ho => mem_forestLabels_compileBody ho _ _
  have hnode : ∀ o ∈ body.occurrences, (o.target built ⟨w.dom.size⟩ context).node =
      ⟨w.dom.size + 1 + o.number⟩ := by
    intro o ho
    obtain ⟨parent, hid⟩ := hbuilt o ho
    rw [hid.target_eq]
  obtain ⟨results, w', F, hrun, hrendering, hhas, -⟩ :=
    run_occurrences body.occurrences hsettles
      (fun o ho => by rw [hnode o ho]; exact hlabels o ho) (nodup_targets hnode)
      (fun o ho F dom hstage id hid =>
        index_lt_of_target_context hcontext hbuilt hlabels hstage ho hid)
      (fun o ho F dom hstage hkind => nsBelow_target hcontext hbuilt hlabels hstage hkind ho)
      hstart rfl (fun _ => rfl)
      fun o ho => ⟨rfl, by rw [hnode o ho]; exact (hbuilt o ho).choose_spec.data_eq⟩
  rw [← targets_compileBody] at hrun
  refine ⟨_, w', _, F, renderSites_of_run hrun, hrendering, ?_⟩
  rw [forest_compileBody] at hholds ⊢
  refine shapes_forest I (Nat.lt_succ_self w.dom.size) body.children [] none 0 0 0
    hholds.children (if_pos rfl).symm fun o ho => ?_
  have hown := hhas o ho
  rwa [hnode o ho] at hown

/-- A body is rendered as the trees it stands for, in new nodes. -/
theorem exists_render (I : Interpretation (w.dom.nsBelow context))
    (hsettles : ∀ o ∈ body.occurrences, o.Settles (compileBody body) hooks scope w.heap I)
    (hcontext : ∀ id, context = some id → id.index < w.dom.size) :
    ∃ rendered w' t, (compileBody body).render hooks scope context w = some (rendered, w') ∧
      rendered.root.node = t.label ∧ w.Grows w' ∧ w.dom.Loose w'.dom t ∧
      shapes t.shown = I.trees none (w.dom.nsBelow context) body.children := by
  obtain ⟨morphs, w', ts, F, hsites, hrendering, hshapes⟩ :=
    exists_renderSites I hsettles hcontext
  obtain ⟨t, hroot, hloose, hshown⟩ := hrendering.stage.shown_unwrap
  refine ⟨_, _, t, Program.render_of_eq hsites, hroot, ?_, hloose, by rw [hshown, hshapes]⟩
  exact ⟨hrendering.heap, hrendering.stage.extends_unwrap,
    fun hw => (hrendering.linked hw).unwrap _, hrendering.size_le, hrendering.morph?_eq⟩

end Renders

end LiveTemplate
