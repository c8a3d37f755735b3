import LiveTemplate.Proofs.Dom.Moving
import LiveTemplate.Proofs.Render.Placing
import LiveTemplate.Proofs.Value.Sameness

/-!
# LiveTemplate.Proofs.Render.Steps

Renders in use.

Once something is rendered, its morphs are updated, cleared, and told to show values as
text or as HTML, and its root is moved as a whole (`Step`).  In whatever order that
happens, the document goes on showing the static trees somewhere, with what the morphs
were given last in front of their anchors (`InUse`).
-/

namespace LiveTemplate

variable {σ : Type}

/-! ## steps -/

/-- A step that is taken with a render. -/
inductive Step where
  | update (id : MorphId) (value : Value)
  | clear (id : MorphId)
  | setEscaped (id : MorphId) (escaped : Bool)
  | move (element : NodeId) (reference : Option NodeId)

/-- The morph a step is about. -/
def Step.morph? : Step → Option MorphId
  | .update id _ | .clear id | .setEscaped id _ => some id
  | .move .. => none

/-- Takes a step with the render of the given root. -/
def World.step (root : Root) (w : World σ) : Step → World σ
  | .update id value => w.updateMorph id value
  | .clear id => w.clearMorph id
  | .setEscaped id escaped => w.modifyMorph id fun m => { m with escaped }
  | .move element reference =>
    { w with dom := w.dom.insertBefore element root.node reference }

/-- Takes steps, one after the other. -/
def World.steps (root : Root) (w : World σ) (steps : List Step) : World σ :=
  steps.foldl (World.step root) w

/-- The steps that may be taken with a render: its own morphs are given values that are no nodes,
and its root is moved into elements that do not stand below it. -/
def Rendered.Allows (r : Rendered) (w : World σ) : Step → Prop
  | .update id value => id ∈ r.morphs ∧ value.isNode = false
  | .clear id | .setEscaped id _ => id ∈ r.morphs
  | .move element _ => (w.dom.data element).isElement ∧ ¬w.dom.IsBelow element r.root.node

def Rendered.AllowsAll (r : Rendered) : World σ → List Step → Prop
  | _, [] => True
  | w, step :: steps => r.Allows w step ∧ r.AllowsAll (w.step r.root step) steps

/-- What a morph has been told: how to show values, and the last value it was given together with
how it was to show values then. -/
structure Given where
  escaped : Bool
  last : Option (Value × Bool) := none

namespace Given

/-- What a step tells a morph. -/
def step (id : MorphId) (g : Given) : Step → Given
  | .update id' value => if id' = id then { g with last := some (value, g.escaped) } else g
  | .clear id' => if id' = id then { g with last := some (.null, g.escaped) } else g
  | .setEscaped id' escaped => if id' = id then { g with escaped } else g
  | .move .. => g

/-- What a morph shows that has been told so much: `first` if it was given no value, and else what
any morph makes of the last one. -/
def html (g : Given) (ns : Namespace) (first : List Char) : List Char :=
  match g.last with
  | none => first
  | some (value, escaped) => Morph.valueHtml escaped ns value

end Given

/-- What steps tell a morph that is as it is in `w` at first. -/
def World.given (w : World σ) (steps : List Step) (id : MorphId) : Given :=
  steps.foldl (Given.step id) { escaped := (w.morph? id).any (·.escaped) }

/-! ## starting over -/

/-- Makes a morph anew, where nothing is shown in front of its anchor. -/
def World.remake (w : World σ) (id : MorphId) (escaped : Bool) : World σ :=
  match w.morph? id with
  | none => w
  | some m =>
    let dom := match w.dom.parent? m.anchor with
      | none => w.dom
      | some parent => Morph.removeNodes w.dom parent m.nodes
    { w.modifyMorph id fun m => .create m.anchor escaped m.context with dom }

/-- Makes a morph anew if it has been given a value, and gives it the last one only. -/
def World.renew (given : MorphId → Given) (w : World σ) (id : MorphId) : World σ :=
  match (given id).last with
  | none => w
  | some (value, escaped) => (w.remake id escaped).updateMorph id value

/-! ## what stays -/

/-- A node that no value put where it is. -/
def Filling.Outside (F : Filling) (ts : List (Tree NodeId)) (dom : Dom) (x : NodeId) : Prop :=
  x.index < dom.size ∧ ∀ a ∈ forestLabels ts, x ∉ forestLabels (F.region a)

theorem Filling.Outside.setRegion {F : Filling} {ts : List (Tree NodeId)} {dom dom' : Dom}
    {x : NodeId} (h : F.Outside ts dom x) (hsize : dom.size ≤ dom'.size) {a : NodeId}
    (ha : a ∈ forestLabels ts) {new : List (Tree NodeId)}
    (hnew : ∀ y ∈ forestLabels new, y ∈ forestLabels (F.region a) ∨ dom.size ≤ y.index) :
    (F.setRegion a new).Outside ts dom' x := by
  refine ⟨Nat.lt_of_lt_of_le h.1 hsize, fun b hb hx => ?_⟩
  by_cases hba : b = a
  · subst hba
    rw [Filling.region_setRegion_self] at hx
    rcases hnew x hx with hold | hfresh
    · exact h.2 b ha hold
    · exact absurd h.1 (Nat.not_lt.2 hfresh)
  · rw [Filling.region_setRegion_of_ne hba] at hx
    exact h.2 b hb hx

/-- Where a render is, as its root tells: an only element is wherever it has been moved; a fragment
has everything, until its children are moved and it is left without any. -/
inductive Root.Places (dom : Dom) (F : Filling) (ts : List (Tree NodeId)) :
    Root → Option NodeId → List NodeId → List NodeId → Prop where
  | single {id : NodeId} {data : NodeData} {kids : List (Tree NodeId)}
    (hts : ts = [.node id data kids]) (helement : (F.data id).isElement = true)
    (hregion : F.region id = []) (host : Option NodeId) (before after : List NodeId) :
    Places dom F ts (.single id) host before after
  | sequence {fragment : NodeId} (hdata : dom.data fragment = .fragment) :
    Places dom F ts (.sequence fragment) (some fragment) [] []
  | emptied {fragment : NodeId} (hdata : dom.data fragment = .fragment)
    (hchildren : dom.children fragment = []) (hstatic : fragment ∉ forestLabels ts)
    (houtside : F.Outside ts dom fragment) (element : NodeId) (before after : List NodeId) :
    Places dom F ts (.sequence fragment) (some element) before after

/-- A morph that was `m₀` at first and has been told what `g` says: its region, which it knows, is
written accordingly. -/
structure Morph.InUse (m₀ m : Morph) (ts : List (Tree NodeId)) (F₀ F : Filling) (dom₀ dom : Dom)
    (g : Given) : Prop where
  anchor_eq : m.anchor = m₀.anchor
  context_eq : m.context = m₀.context
  static : m₀.anchor ∈ forestLabels ts
  not_element : (F₀.data m₀.anchor).isElement = false
  outside : ∀ c, m₀.context = some c → F.Outside ts dom c
  nsBelow_eq : dom.nsBelow m₀.context = dom₀.nsBelow m₀.context
  escaped_eq : m.escaped = g.escaped
  not_node : ∀ value escaped, g.last = some (value, escaped) → value.isNode = false
  fills : m.Fills F (dom₀.nsBelow m₀.context)
  html : forestHtml (F.region m₀.anchor) =
    g.html (dom₀.nsBelow m₀.context) (forestHtml (F₀.region m₀.anchor))

/-- A render of the world `w₀`, where the static trees were filled with `F₀`, after steps that have
told its morphs what `given` says. -/
structure InUse (w₀ : World σ) (r : Rendered) (ts : List (Tree NodeId)) (F₀ : Filling)
    (given : MorphId → Given) (F : Filling) (w : World σ) : Prop where
  linked : w.dom.Linked
  shows : ∃ host before after, w.dom.Shows host before after F ts ∧
    r.root.Places w.dom F ts host before after
  data_eq : F.data = F₀.data
  region_eq : ∀ x, (∀ id ∈ r.morphs, ∀ m, w₀.morph? id = some m → m.anchor ≠ x) → F.region x = []
  morph : ∀ id ∈ r.morphs, ∃ m₀ m, w₀.morph? id = some m₀ ∧ w.morph? id = some m ∧
    m₀.InUse m ts F₀ F w₀.dom w.dom (given id)
  distinct : ∀ id ∈ r.morphs, ∀ id' ∈ r.morphs, ∀ m, w₀.morph? id = some m →
    ∀ m', w₀.morph? id' = some m' → m.anchor = m'.anchor → id = id'

/-! ## values -/

theorem Morph.valueHtml_of_same {v value : Value} (h : v.same value = true) (escaped : Bool)
    (ns : Namespace) : valueHtml escaped ns v = valueHtml escaped ns value := by
  rw [valueHtml, valueHtml, (Value.isNullish_of_same h).1, Value.text_of_same v value h]

/-- Whether or not a value was shown before, the region is written as any morph shows it. -/
theorem Morph.Updated.fills {m : Morph} {value : Value} {dom : Dom} {p : NodeId} {F : Filling}
    {new : List (Tree NodeId)} (h : m.Updated value dom p (F.region m.anchor) new)
    (hnode : value.isNode = false) (hfills : m.Fills F (dom.nsBelow m.context)) :
    (m.update value dom).1.anchor = m.anchor ∧ (m.update value dom).1.context = m.context ∧
      (m.update value dom).1.escaped = m.escaped ∧
      (m.update value dom).1.Fills (F.setRegion m.anchor new) (dom.nsBelow m.context) ∧
      forestHtml new = valueHtml m.escaped (dom.nsBelow m.context) value := by
  rcases h.morph with ⟨hshows, rfl, hmorph⟩ | ⟨-, hmorph, hhtml⟩
  · rw [hmorph]
    rw [shows, Bool.and_eq_true, Option.any_eq_true, beq_iff_eq] at hshows
    obtain ⟨⟨v, hv, hsame⟩, hescaped⟩ := hshows
    refine ⟨rfl, rfl, rfl, hfills.congr (Filling.region_setRegion_self ..), ?_⟩
    rw [hfills.value v hv (by rw [(Value.isNullish_of_same hsame).2, hnode]), hescaped,
      valueHtml_of_same hsame]
  · rw [hmorph]
    have hregion : (F.setRegion m.anchor new).region m.anchor = new :=
      Filling.region_setRegion_self ..
    refine ⟨rfl, rfl, rfl, ⟨congrArg rootLabels hregion.symm, fun v hv _ => ?_⟩, hhtml⟩
    obtain rfl : value = v := Option.some.inj hv
    exact (congrArg forestHtml hregion).trans hhtml

/-- A morph whose anchor stands below `p` has become `m'`: of the nodes that there were before,
those outside its region are as they were, but for `p`, whose children are new where they were the
nodes of the morph. -/
structure Morph.Changed (m m' : Morph) (p : NodeId) (region : List (Tree NodeId)) (dom dom' : Dom) :
    Prop where
  parent : dom.parent? m.anchor = some p
  children : ∃ pre post, dom.children p = pre ++ m.nodes ++ m.anchor :: post ∧
    dom'.record p = { dom.record p with children := pre ++ m'.nodes ++ m.anchor :: post }
  frame : ∀ n, n.index < dom.size → n ≠ p → n ∉ forestLabels region → dom'.record n = dom.record n

theorem Morph.Updated.changed {m : Morph} {value : Value} {dom : Dom} {p : NodeId}
    {old new : List (Tree NodeId)} (h : m.Updated value dom p old new) (hlinked : dom.Linked)
    (hnodes : m.nodes = rootLabels old) (hparent : dom.parent? m.anchor = some p)
    {pre post : List NodeId}
    (hchildren : dom.children p = pre ++ rootLabels old ++ m.anchor :: post) :
    m.Changed (m.update value dom).1 p old dom (m.update value dom).2 := by
  have hnodes' : (m.update value dom).1.nodes = rootLabels new := by
    rcases h.morph with ⟨-, rfl, hmorph⟩ | ⟨-, hmorph, -⟩
    · rw [hmorph, hnodes]
    · rw [hmorph]
      rfl
  -- No child stands there twice, so the region is found where it is.
  have hnodup := hlinked.nodup_children p
  rw [hchildren, List.nodup_append, List.nodup_append] at hnodup
  obtain ⟨⟨-, -, hpre⟩, -, hpost⟩ := hnodup
  refine ⟨hparent, ⟨pre, post, by rw [hnodes, hchildren], ?_⟩, h.replaced.frame⟩
  rw [hnodes']
  refine h.replaced.record_parent pre post hchildren
    (fun hmem => hpost _ hmem _ List.mem_cons_self rfl) fun x hx hroot => ?_
  rcases List.mem_append.1 hx with hx | hx
  · exact hpre x hx x hroot rfl
  · exact hpost x (List.mem_append_right _ hroot) x (List.mem_cons_of_mem _ hx) rfl

/-! ## single steps -/

namespace Root.Places

variable {dom dom' : Dom} {host : Option NodeId} {before after : List NodeId} {F : Filling}
  {ts : List (Tree NodeId)} {root : Root} {a p : NodeId}

/-- Static nodes have a place, but for an only element. -/
theorem exists_parent (h : root.Places dom F ts host before after)
    (hshows : dom.Shows host before after F ts) (ha : a ∈ forestLabels ts)
    (helement : (F.data a).isElement = false) : ∃ p, dom.parent? a = some p := by
  cases h with
  | single hts hroot =>
    rcases Filling.root_or_child hshows.holds ha with ⟨hmem, -⟩ | ⟨p, -, hparent, -⟩
    · rw [hts] at hmem
      obtain rfl := List.mem_singleton.1 hmem
      rw [helement] at hroot
      cases hroot
    · exact ⟨p, hparent⟩
  | sequence => exact hshows.exists_parent ha
  | emptied => exact hshows.exists_parent ha

/-- A render stays where it is when the region in front of a static node, which is no element, gives
way to another one. -/
theorem replace (h : root.Places dom F ts host before after) (hlinked : dom.Linked)
    (hshows : dom.Shows host before after F ts) (ha : a ∈ forestLabels ts)
    (helement : (F.data a).isElement = false) (hparent : dom.parent? a = some p)
    {new : List (Tree NodeId)} (hr : dom.Replaced dom' p a (F.region a) new)
    (hnew : ∀ x ∈ forestLabels new, x ∈ forestLabels (F.region a) ∨ dom.size ≤ x.index) :
    root.Places dom' (F.setRegion a new) ts host before after := by
  cases h with
  | @single id data kids hts hroot hregion =>
    have hne : id ≠ a := by
      rintro rfl
      rw [helement] at hroot
      cases hroot
    have hregion' : (F.setRegion a new).region id = [] :=
      (Filling.region_setRegion_of_ne hne new).trans hregion
    exact .single (F := F.setRegion a new) hts hroot hregion' host before after
  | @sequence fragment hdata =>
    have hnot : fragment ∉ forestLabels (F.region a) := fun hmem =>
      hshows.host_not_mem fragment rfl (Filling.mem_forestLabels_forest.2 (.inr ⟨a, ha, hmem⟩))
    have hkept := hr.data_parent_of_not_mem (hshows.host_lt fragment rfl) hnot
    exact .sequence (hkept.1.trans hdata)
  | @emptied fragment hdata hchildren hstatic houtside =>
    have hne : fragment ≠ p := by
      rintro rfl
      have hmem := (hlinked.mem_children_iff fragment a).2 hparent
      rw [hchildren] at hmem
      cases hmem
    have hrecord := hr.frame fragment houtside.1 hne (houtside.2 a ha)
    refine .emptied ?_ ?_ hstatic (houtside.setRegion hr.size_le ha hnew) ..
    · rw [Dom.data, hrecord]
      exact hdata
    · rw [Dom.children, hrecord]
      exact hchildren

/-- A render stays what it is when its root is inserted into an element that is not below it. -/
theorem move (h : root.Places dom F ts host before after) (hlinked : dom.Linked)
    (hshows : dom.Shows host before after F ts) {element : NodeId}
    (helement : (dom.data element).isElement = true) (hnot : ¬dom.IsBelow element root.node)
    (reference : Option NodeId) :
    root.node.index < dom.size ∧ ∃ host' before' after',
      (dom.insertBefore element root.node reference).Shows host' before' after' F ts ∧
        root.Places (dom.insertBefore element root.node reference) F ts host' before' after' := by
  have hlt := Dom.index_lt_of_isElement helement
  have houtside : (∀ x ∈ rootLabels (F.forest ts), dom.IsBelow x root.node) →
      element ∉ forestLabels (F.forest ts) :=
    fun hroots hmem => hnot (hshows.holds.isBelow hroots element hmem)
  cases h with
  | @single id data kids hts hroot hregion =>
    have hid : id ∈ forestLabels ts := by
      rw [hts]
      exact List.mem_cons_self
    have hroots : rootLabels (F.forest ts) = [id] := by
      rw [hts, Filling.forest_cons, hregion]
      rfl
    have hmoved : dom.moved id = rootLabels (F.forest ts) := by
      rw [Dom.moved_of_isElement (by rw [hshows.data_eq hid]; exact hroot), hroots]
    have hnotmem := houtside fun x hx => by
      rw [hroots] at hx
      rw [List.mem_singleton.1 hx]
      exact .refl id
    obtain ⟨before', after', hshows'⟩ := hshows.insertRoots hlinked hmoved (hshows.index_lt hid) hlt
      hnotmem reference
    exact ⟨hshows.index_lt hid, _, _, _, hshows', .single hts hroot hregion ..⟩
  -- The children of the fragment go into the element, and the fragment stays behind without any.
  | @sequence fragment hdata =>
    have hfragment := hshows.host_lt fragment rfl
    have hchildren := hshows.children fragment rfl
    rw [List.nil_append, List.append_nil] at hchildren
    have hmoved : dom.moved fragment = rootLabels (F.forest ts) :=
      (Dom.moved_of_fragment hdata).trans hchildren
    have hnotmem := houtside fun x hx =>
      .parent (hshows.holds.parent?_eq hx) (.refl fragment)
    obtain ⟨before', after', hshows'⟩ := hshows.insertRoots hlinked hmoved hfragment hlt hnotmem
      reference
    have hstatic : fragment ∉ forestLabels ts := fun hmem =>
      hshows.host_not_mem fragment rfl (Filling.mem_forestLabels_forest.2 (.inl hmem))
    have hregion : F.Outside ts (dom.insertBefore element fragment reference) fragment :=
      ⟨by rw [Dom.size_insertBefore]; exact hfragment, fun a ha hmem =>
        hshows.host_not_mem fragment rfl (Filling.mem_forestLabels_forest.2 (.inr ⟨a, ha, hmem⟩))⟩
    have hne : fragment ≠ element := by
      rintro rfl
      rw [hdata] at helement
      cases helement
    refine ⟨hfragment, _, _, _, hshows', .emptied ?_ ?_ hstatic hregion ..⟩
    · rw [Dom.data_insertBefore, hdata]
    · rw [hlinked.children_insertBefore hlt, if_neg hne, hmoved, ← hchildren]
      exact List.filter_eq_nil_iff.2 fun x hx => by simpa using hx
  -- A fragment that has given its children away moves nothing, so all nodes stay where they are.
  | @emptied fragment hdata hchildren hstatic hregion element' =>
    have hmoved : dom.moved fragment = [] := (Dom.moved_of_fragment hdata).trans hchildren
    have hext := hlinked.extends_insertBefore hmoved hlt hregion.1 reference
    have hrecord := hext.record_eq fragment hregion.1
    refine ⟨hregion.1, _, _, _, hshows.extend hext, .emptied ?_ ?_ hstatic ?_ ..⟩
    · rw [Dom.data_insertBefore, hdata]
    · exact (congrArg NodeRecord.children hrecord).trans hchildren
    · exact ⟨Nat.lt_of_lt_of_le hregion.1 hext.size_le, hregion.2⟩

end Root.Places

namespace Morph.InUse

variable {m₀ m : Morph} {ts : List (Tree NodeId)} {F₀ F : Filling} {dom₀ dom dom' : Dom} {g : Given}
  {p a : NodeId} {new : List (Tree NodeId)}

theorem anchor_mem (h : m₀.InUse m ts F₀ F dom₀ dom g) : m.anchor ∈ forestLabels ts := by
  rw [h.anchor_eq]
  exact h.static

/-- Where a region gives way to another one, HTML is read outside of the regions, as before. -/
theorem outside_replaced (h : m₀.InUse m ts F₀ F dom₀ dom g) (ha : a ∈ forestLabels ts)
    (hr : dom.Replaced dom' p a (F.region a) new)
    (hnew : ∀ x ∈ forestLabels new, x ∈ forestLabels (F.region a) ∨ dom.size ≤ x.index) :
    (∀ c, m₀.context = some c → (F.setRegion a new).Outside ts dom' c) ∧
      dom'.nsBelow m₀.context = dom₀.nsBelow m₀.context := by
  refine ⟨fun c hc => (h.outside c hc).setRegion hr.size_le ha hnew, ?_⟩
  rw [← h.nsBelow_eq]
  cases hcontext : m₀.context with
  | none => rfl
  | some c =>
    obtain ⟨hlt, hregion⟩ := h.outside c hcontext
    rw [Dom.nsBelow, Dom.nsBelow, (hr.data_parent_of_not_mem hlt (hregion a ha)).1]

/-- The region of the morph gives way to another one, which shows a value it has been given. -/
theorem replace (h : m₀.InUse m ts F₀ F dom₀ dom g)
    (hr : dom.Replaced dom' p m.anchor (F.region m.anchor) new)
    (hnew : ∀ x ∈ forestLabels new, x ∈ forestLabels (F.region m.anchor) ∨ dom.size ≤ x.index)
    {m' : Morph} (hanchor : m'.anchor = m.anchor) (hcontext : m'.context = m.context)
    (hfills : m'.Fills (F.setRegion m.anchor new) (dom.nsBelow m.context)) {g' : Given}
    (hescaped : m'.escaped = g'.escaped) {value : Value} {escaped : Bool}
    (hlast : g'.last = some (value, escaped)) (hnode : value.isNode = false)
    (hhtml : forestHtml new = Morph.valueHtml escaped (dom.nsBelow m.context) value) :
    m₀.InUse m' ts F₀ (F.setRegion m.anchor new) dom₀ dom' g' := by
  obtain ⟨hkept, hns⟩ := h.outside_replaced h.anchor_mem hr hnew
  rw [h.context_eq, h.nsBelow_eq] at hfills hhtml
  refine ⟨hanchor.trans h.anchor_eq, hcontext.trans h.context_eq, h.static, h.not_element, hkept,
    hns, hescaped, fun v e hv => ?_, hfills, ?_⟩
  · rw [hlast] at hv
    cases hv
    exact hnode
  · rw [← h.anchor_eq, Filling.region_setRegion_self, hhtml, Given.html, hlast]

/-- The region in front of another node gives way to another one. -/
theorem replace_of_ne (h : m₀.InUse m ts F₀ F dom₀ dom g) (ha : a ∈ forestLabels ts)
    (hr : dom.Replaced dom' p a (F.region a) new)
    (hnew : ∀ x ∈ forestLabels new, x ∈ forestLabels (F.region a) ∨ dom.size ≤ x.index)
    (hne : m₀.anchor ≠ a) : m₀.InUse m ts F₀ (F.setRegion a new) dom₀ dom' g := by
  obtain ⟨hkept, hns⟩ := h.outside_replaced ha hr hnew
  have hregion := Filling.region_setRegion_of_ne (F := F) hne new
  refine { h with outside := hkept, nsBelow_eq := hns, fills := ?_, html := ?_ }
  · refine h.fills.congr ?_
    rw [h.anchor_eq]
    exact hregion
  · rw [hregion]
    exact h.html

end Morph.InUse

namespace InUse

variable {w₀ w : World σ} {r : Rendered} {ts : List (Tree NodeId)} {F₀ F : Filling}
  {given : MorphId → Given} {id : MorphId} {m₀ m : Morph}

/-- A morph of the render is in use as what it is now. -/
theorem morph_of_eq (h : InUse w₀ r ts F₀ given F w) (hid : id ∈ r.morphs)
    (hm : w.morph? id = some m) :
    ∃ m₀, w₀.morph? id = some m₀ ∧ m₀.InUse m ts F₀ F w₀.dom w.dom (given id) := by
  obtain ⟨m₀, m', hm₀, hm', huse⟩ := h.morph id hid
  obtain rfl : m = m' := Option.some.inj (hm.symm.trans hm')
  exact ⟨m₀, hm₀, huse⟩

/-- A morph of the render is in use as what it was at first. -/
theorem morph_of_first (h : InUse w₀ r ts F₀ given F w) (hid : id ∈ r.morphs)
    (hm₀ : w₀.morph? id = some m₀) :
    ∃ m, w.morph? id = some m ∧ m₀.InUse m ts F₀ F w₀.dom w.dom (given id) := by
  obtain ⟨m₀', m, hm₀', hm, huse⟩ := h.morph id hid
  obtain rfl : m₀ = m₀' := Option.some.inj (hm₀.symm.trans hm₀')
  exact ⟨m, hm, huse⟩

/-- An anchor is never without a place. -/
theorem exists_parent (h : InUse w₀ r ts F₀ given F w) (hid : id ∈ r.morphs)
    (hm : w.morph? id = some m) : ∃ p, w.dom.parent? m.anchor = some p := by
  obtain ⟨m₀, -, huse⟩ := h.morph_of_eq hid hm
  obtain ⟨host, before, after, hshows, hplaces⟩ := h.shows
  rw [huse.anchor_eq]
  exact hplaces.exists_parent hshows huse.static (by rw [h.data_eq]; exact huse.not_element)

/-- The region of a morph gives way to another one, which shows a value the morph has been given. -/
theorem replace (h : InUse w₀ r ts F₀ given F w) (hid : id ∈ r.morphs) (hm : w.morph? id = some m)
    {p : NodeId} (hparent : w.dom.parent? m.anchor = some p) {w' : World σ} {m' : Morph}
    {new : List (Tree NodeId)} (hlinked : w'.dom.Linked)
    (hr : w.dom.Replaced w'.dom p m.anchor (F.region m.anchor) new)
    (hnodup : (forestLabels new).Nodup)
    (hnew : ∀ x ∈ forestLabels new, x ∈ forestLabels (F.region m.anchor) ∨ w.dom.size ≤ x.index)
    (hmorph : ∀ id', w'.morph? id' = if id' = id then some m' else w.morph? id')
    (hanchor : m'.anchor = m.anchor) (hcontext : m'.context = m.context)
    (hfills : m'.Fills (F.setRegion m.anchor new) (w.dom.nsBelow m.context))
    {given' : MorphId → Given} (hgiven : ∀ id', id' ≠ id → given' id' = given id')
    (hescaped : m'.escaped = (given' id).escaped) {value : Value} {escaped : Bool}
    (hlast : (given' id).last = some (value, escaped)) (hnode : value.isNode = false)
    (hhtml : forestHtml new = Morph.valueHtml escaped (w.dom.nsBelow m.context) value) :
    InUse w₀ r ts F₀ given' (F.setRegion m.anchor new) w' := by
  obtain ⟨m₀, hm₀, huse⟩ := h.morph_of_eq hid hm
  obtain ⟨host, before, after, hshows, hplaces⟩ := h.shows
  have hstatic := huse.anchor_mem
  have helement : (F.data m.anchor).isElement = false := by
    rw [h.data_eq, huse.anchor_eq]
    exact huse.not_element
  refine ⟨hlinked, ⟨host, before, after, hshows.replace hstatic hparent hr hnodup hnew,
    hplaces.replace h.linked hshows hstatic helement hparent hr hnew⟩, h.data_eq, fun x hx => ?_,
    fun id' hid' => ?_, h.distinct⟩
  · rw [Filling.region_setRegion_of_ne]
    · exact h.region_eq x hx
    · rintro rfl
      exact hx id hid m₀ hm₀ huse.anchor_eq.symm
  by_cases heq : id' = id
  · subst heq
    exact ⟨m₀, m', hm₀, by rw [hmorph, if_pos rfl],
      huse.replace hr hnew hanchor hcontext hfills hescaped hlast hnode hhtml⟩
  · obtain ⟨m₀', m₁', hm₀', hm₁', huse'⟩ := h.morph id' hid'
    have hne : m₀'.anchor ≠ m.anchor := by
      rw [huse.anchor_eq]
      exact fun hanchors => heq (h.distinct id' hid' id hid m₀' hm₀' m₀ hm₀ hanchors)
    rw [hgiven id' heq]
    exact ⟨m₀', m₁', hm₀', by rw [hmorph, if_neg heq, hm₁'],
      huse'.replace_of_ne hstatic hr hnew hne⟩

/-- Giving a value to a morph replaces its region. -/
theorem update (h : InUse w₀ r ts F₀ given F w) (hid : id ∈ r.morphs) {value : Value}
    (hnode : value.isNode = false) :
    ∃ m p new, w.morph? id = some m ∧ w.dom.parent? m.anchor = some p ∧
      m.Updated value w.dom p (F.region m.anchor) new ∧
      InUse w₀ r ts F₀ (fun id' => (given id').step id' (.update id value))
        (F.setRegion m.anchor new) (w.updateMorph id value) := by
  obtain ⟨m₀, m, hm₀, hm, huse⟩ := h.morph id hid
  obtain ⟨host, before, after, hshows, hplaces⟩ := h.shows
  obtain ⟨p, hparent⟩ := h.exists_parent hid hm
  obtain ⟨new, hupdated, -⟩ := hshows.update huse.anchor_mem hparent huse.fills.nodes hnode
  have hfills : m.Fills F (w.dom.nsBelow m.context) := by
    rw [huse.context_eq, huse.nsBelow_eq]
    exact huse.fills
  obtain ⟨hanchor', hcontext', hescaped', hfills', hhtml⟩ := hupdated.fills hnode hfills
  have hdom := World.dom_updateMorph hm value
  have hlinked : (w.updateMorph id value).dom.Linked := by
    rw [hdom]
    refine h.linked.update m fun node hvalue => ?_
    rw [hvalue] at hnode
    cases hnode
  refine ⟨m, p, new, hm, hparent, hupdated, ?_⟩
  refine h.replace hid hm hparent hlinked (by rw [hdom]; exact hupdated.replaced) hupdated.nodup
    hupdated.old_or_fresh (World.morph?_updateMorph hm value) hanchor' hcontext' hfills'
    (fun id' hne => if_neg fun heq => hne heq.symm) ?_ ?_ hnode hhtml
  · rw [hescaped', huse.escaped_eq, Given.step, if_pos rfl]
  · rw [Given.step, if_pos rfl, huse.escaped_eq]

/-- Telling a morph how to show values changes nothing that is shown. -/
theorem setEscaped (h : InUse w₀ r ts F₀ given F w) (id : MorphId) (escaped : Bool) :
    InUse w₀ r ts F₀ (fun id' => (given id').step id' (.setEscaped id escaped)) F
      (w.step r.root (.setEscaped id escaped)) := by
  refine ⟨h.linked, h.shows, h.data_eq, h.region_eq, fun id' hid' => ?_, h.distinct⟩
  obtain ⟨m₀, m, hm₀, hm, huse⟩ := h.morph id' hid'
  have hmorph := World.morph?_modifyMorph w id (fun m => { m with escaped }) id'
  by_cases heq : id' = id
  · subst heq
    rw [if_pos rfl, hm] at hmorph
    refine ⟨m₀, { m with escaped }, hm₀, hmorph, { huse with
      escaped_eq := ?_, not_node := ?_, fills := ⟨huse.fills.nodes, huse.fills.value⟩, html := ?_ }⟩
    · rw [Given.step, if_pos rfl]
    · rw [Given.step, if_pos rfl]
      exact huse.not_node
    · rw [Given.step, if_pos rfl]
      exact huse.html
  · rw [if_neg heq] at hmorph
    have hgiven : (given id').step id' (.setEscaped id escaped) = given id' :=
      if_neg fun h => heq h.symm
    refine ⟨m₀, m, hm₀, hmorph.trans hm, ?_⟩
    rw [hgiven]
    exact huse

/-- Moving the root changes nothing but where the trees are. -/
theorem move (h : InUse w₀ r ts F₀ given F w) {element : NodeId}
    (helement : (w.dom.data element).isElement = true) (hnot : ¬w.dom.IsBelow element r.root.node)
    (reference : Option NodeId) :
    InUse w₀ r ts F₀ given F (w.step r.root (.move element reference)) := by
  obtain ⟨host, before, after, hshows, hplaces⟩ := h.shows
  obtain ⟨hroot, host', before', after', hmoved⟩ :=
    hplaces.move h.linked hshows helement hnot reference
  have hlinked := h.linked.insertBefore (Dom.index_lt_of_isElement helement) hroot reference
  refine ⟨hlinked, ⟨host', before', after', hmoved⟩, h.data_eq, h.region_eq, fun id hid => ?_,
    h.distinct⟩
  obtain ⟨m₀, m, hm₀, hm, huse⟩ := h.morph id hid
  refine ⟨m₀, m, hm₀, hm, { huse with outside := fun c hc => ?_, nsBelow_eq := ?_ }⟩
  · obtain ⟨hlt, hregion⟩ := huse.outside c hc
    exact ⟨Nat.lt_of_lt_of_le hlt (Nat.le_of_eq (Dom.size_insertBefore ..).symm), hregion⟩
  · rw [← huse.nsBelow_eq]
    cases m₀.context with
    | none => rfl
    | some c => exact congrArg NodeData.nsBelow (Dom.data_insertBefore ..)

/-- Every step that may be taken leaves a render in use. -/
theorem step (h : InUse w₀ r ts F₀ given F w) {step : Step} (hallowed : r.Allows w step) :
    ∃ F', InUse w₀ r ts F₀ (fun id => (given id).step id step) F' (w.step r.root step) := by
  cases step with
  | update id value =>
    obtain ⟨m, p, new, -, -, -, huse⟩ := h.update hallowed.1 hallowed.2
    exact ⟨_, huse⟩
  | clear id =>
    obtain ⟨m, p, new, -, -, -, huse⟩ := h.update hallowed (show Value.null.isNode = false from rfl)
    rw [World.step, World.clearMorph_eq]
    exact ⟨_, huse⟩
  | setEscaped id escaped => exact ⟨F, h.setEscaped id escaped⟩
  | move element reference => exact ⟨F, h.move hallowed.1 hallowed.2 reference⟩

/-- The nodes of a morph are the roots of its region, which stands directly in front of its
anchor. -/
theorem exists_stretch (h : InUse w₀ r ts F₀ given F w) (hid : id ∈ r.morphs)
    (hm : w.morph? id = some m) {p : NodeId} (hparent : w.dom.parent? m.anchor = some p) :
    m.nodes = rootLabels (F.region m.anchor) ∧
      ∃ pre post, w.dom.children p = pre ++ rootLabels (F.region m.anchor) ++ m.anchor :: post := by
  obtain ⟨m₀, -, huse⟩ := h.morph_of_eq hid hm
  obtain ⟨host, before, after, hshows, -⟩ := h.shows
  exact ⟨huse.fills.nodes, hshows.exists_children_eq huse.anchor_mem hparent⟩

/-- Giving a value to a morph changes its region only, and no other morph. -/
theorem changed_update (h : InUse w₀ r ts F₀ given F w) (hid : id ∈ r.morphs) {value : Value}
    (hnode : value.isNode = false) :
    ∃ m m' p, w.morph? id = some m ∧ (w.updateMorph id value).morph? id = some m' ∧
      m.Changed m' p (F.region m.anchor) w.dom (w.updateMorph id value).dom ∧
      ∀ id', id' ≠ id → (w.updateMorph id value).morph? id' = w.morph? id' := by
  obtain ⟨m, p, new, hm, hparent, hupdated, -⟩ := h.update hid hnode
  obtain ⟨hnodes, pre, post, hchildren⟩ := h.exists_stretch hid hm hparent
  refine ⟨m, (m.update value w.dom).1, p, hm, ?_, ?_, fun id' hne => ?_⟩
  · rw [World.morph?_updateMorph hm, if_pos rfl]
  · rw [World.dom_updateMorph hm]
    exact hupdated.changed h.linked hnodes hparent hchildren
  · rw [World.morph?_updateMorph hm, if_neg hne]

/-- A step that is about a morph changes its region only, and no other morph. -/
theorem changed (h : InUse w₀ r ts F₀ given F w) {step : Step} (hallowed : r.Allows w step)
    (hid : step.morph? = some id) :
    ∃ m m' p, w.morph? id = some m ∧ (w.step r.root step).morph? id = some m' ∧
      m.Changed m' p (F.region m.anchor) w.dom (w.step r.root step).dom ∧
      ∀ id', id' ≠ id → (w.step r.root step).morph? id' = w.morph? id' := by
  cases step with
  | update id' value =>
    obtain rfl : id' = id := Option.some.inj hid
    exact h.changed_update hallowed.1 hallowed.2
  | clear id' =>
    obtain rfl : id' = id := Option.some.inj hid
    rw [World.step, World.clearMorph_eq]
    exact h.changed_update hallowed (show Value.null.isNode = false from rfl)
  | setEscaped id' escaped =>
    obtain rfl : id' = id := Option.some.inj hid
    have hmorph := World.morph?_modifyMorph w id' fun m => { m with escaped }
    obtain ⟨m₀, m, -, hm, huse⟩ := h.morph id' hallowed
    obtain ⟨p, hparent⟩ := h.exists_parent hallowed hm
    obtain ⟨hnodes, pre, post, hchildren⟩ := h.exists_stretch hallowed hm hparent
    refine ⟨m, { m with escaped }, p, hm, ?_, ⟨hparent, ⟨pre, post, ?_, ?_⟩, fun n _ _ _ => rfl⟩,
      fun id hne => ?_⟩
    · rw [World.step, hmorph, if_pos rfl, hm]
      rfl
    · rw [hnodes, hchildren]
    · show w.dom.record p = { w.dom.record p with children := pre ++ m.nodes ++ m.anchor :: post }
      rw [hnodes, ← hchildren]
      rfl
    · rw [World.step, hmorph, if_neg hne]
  | move element reference => cases hid

/-- A render stays in use, whatever steps are taken and in whatever order. -/
theorem steps (h : InUse w₀ r ts F₀ given F w) {steps : List Step}
    (hallowed : r.AllowsAll w steps) :
    ∃ F', InUse w₀ r ts F₀ (fun id => steps.foldl (Given.step id) (given id)) F'
      (w.steps r.root steps) := by
  induction steps generalizing given F w with
  | nil => exact ⟨F, h⟩
  | cons step steps ih =>
    obtain ⟨F', h'⟩ := h.step hallowed.1
    exact ih h' hallowed.2

/-! ## order -/

/-- What is written of a render in use depends on the last values of its morphs only. -/
theorem forestHtml_eq (h : InUse w₀ r ts F₀ given F w) {given' : MorphId → Given} {F' : Filling}
    {w' : World σ} (h' : InUse w₀ r ts F₀ given' F' w')
    (hlast : ∀ id ∈ r.morphs, (given id).last = (given' id).last) :
    forestHtml (F.forest ts) = forestHtml (F'.forest ts) := by
  refine Filling.forestHtml_congr fun x hx => ⟨by rw [h.data_eq, h'.data_eq], ?_⟩
  by_cases hanchor : ∃ id ∈ r.morphs, ∃ m, w₀.morph? id = some m ∧ m.anchor = x
  · obtain ⟨id, hid, m₀, hm₀, rfl⟩ := hanchor
    obtain ⟨m, -, huse⟩ := h.morph_of_first hid hm₀
    obtain ⟨m', -, huse'⟩ := h'.morph_of_first hid hm₀
    rw [huse.html, huse'.html, Given.html, Given.html, hlast id hid]
  · have hnone : ∀ id ∈ r.morphs, ∀ m, w₀.morph? id = some m → m.anchor ≠ x :=
      fun id hid m hm hx => hanchor ⟨id, hid, m, hm, hx⟩
    rw [h.region_eq x hnone, h'.region_eq x hnone]

/-- A morph that is made anew has nothing in front of its anchor. -/
theorem remake (h : InUse w₀ r ts F₀ given F w) (hid : id ∈ r.morphs) (escaped : Bool) :
    ∃ F', InUse w₀ r ts F₀
      (fun id' => if id' = id then ⟨escaped, some (.null, escaped)⟩ else given id') F'
      (w.remake id escaped) := by
  obtain ⟨m₀, m, -, hm, huse⟩ := h.morph id hid
  obtain ⟨host, before, after, hshows, -⟩ := h.shows
  obtain ⟨p, hparent⟩ := h.exists_parent hid hm
  obtain ⟨-, hpold, -⟩ := hshows.region_of_parent huse.anchor_mem hparent
  have hremade : w.remake id escaped =
      { w.modifyMorph id fun m => .create m.anchor escaped m.context with
        dom := Morph.removeNodes w.dom p (rootLabels (F.region m.anchor)) } := by
    rw [World.remake, hm]
    simp only [hparent, huse.fills.nodes]
  have hmorph : ∀ id', (w.remake id escaped).morph? id' =
      if id' = id then some (.create m.anchor escaped m.context) else w.morph? id' := by
    intro id'
    rw [hremade]
    refine (World.morph?_modifyMorph w id _ id').trans ?_
    by_cases heq : id' = id
    · subst heq
      rw [if_pos rfl, if_pos rfl, hm]
      rfl
    · rw [if_neg heq, if_neg heq]
  have hlinked : (w.remake id escaped).dom.Linked := by
    rw [hremade]
    exact h.linked.removeNodes ..
  have hremoved : w.dom.Replaced (w.remake id escaped).dom p m.anchor (F.region m.anchor) [] := by
    rw [hremade]
    exact Dom.replaced_removeNodes w.dom m.anchor hpold
  have hfills : (Morph.create m.anchor escaped m.context).Fills (F.setRegion m.anchor [])
      (w.dom.nsBelow m.context) :=
    ⟨(congrArg rootLabels (Filling.region_setRegion_self F m.anchor [])).symm,
      by simp [Morph.create]⟩
  refine ⟨_, h.replace hid hm hparent hlinked hremoved List.nodup_nil (by simp [forestLabels])
    hmorph rfl rfl hfills (fun id' hne => if_neg hne) ?_ (congrArg Given.last (if_pos rfl)) rfl rfl⟩
  rw [if_pos rfl]
  rfl

/-- A morph that is made anew if it has been given a value shows what it was given last. -/
theorem renew (h : InUse w₀ r ts F₀ given F w) (hid : id ∈ r.morphs) {told : MorphId → Given}
    (hnode : ∀ value escaped, (told id).last = some (value, escaped) → value.isNode = false)
    (hnone : (told id).last = none → (given id).last = none) :
    ∃ given' F', InUse w₀ r ts F₀ given' F' (w.renew told id) ∧ (given' id).last = (told id).last ∧
      ∀ id', id' ≠ id → given' id' = given id' := by
  rw [World.renew]
  split
  · next hlast => exact ⟨given, F, h, (hnone hlast).trans hlast.symm, fun _ _ => rfl⟩
  · next value escaped hlast =>
    obtain ⟨F', h'⟩ := h.remake hid escaped
    obtain ⟨m, p, new, -, -, -, h''⟩ := h'.update hid (hnode value escaped hlast)
    refine ⟨_, _, h'', ?_, fun id' hne => ?_⟩
    · simp only [Given.step, if_pos]
      exact hlast.symm
    · simp only [Given.step, if_neg hne, if_neg hne.symm]

/-- Morphs that are made anew one after the other, if they have been given a value, show what they
were given last. -/
theorem renewed (h : InUse w₀ r ts F₀ given F w) {told : MorphId → Given}
    (hnode : ∀ id ∈ r.morphs, ∀ value escaped,
      (told id).last = some (value, escaped) → value.isNode = false)
    (hgiven : ∀ id, (given id).last = none ∨ (given id).last = (told id).last) {ids : List MorphId}
    (hids : ∀ id ∈ ids, id ∈ r.morphs) :
    ∃ given' F', InUse w₀ r ts F₀ given' F' (ids.foldl (World.renew told) w) ∧
      ∀ id, id ∈ ids ∨ (given id).last = (told id).last → (given' id).last = (told id).last := by
  induction ids generalizing given F w with
  | nil => exact ⟨given, F, h, fun id hid => hid.resolve_left List.not_mem_nil⟩
  | cons id ids ih =>
    rw [List.forall_mem_cons] at hids
    obtain ⟨given₁, F₁, h₁, hself, hother⟩ := h.renew hids.1 (hnode id hids.1) fun hnone =>
      (hgiven id).elim (fun h => h) fun h => h.trans hnone
    have hgiven₁ : ∀ id', (given₁ id').last = none ∨ (given₁ id').last = (told id').last := by
      intro id'
      by_cases heq : id' = id
      · subst heq
        exact .inr hself
      · rw [hother id' heq]
        exact hgiven id'
    obtain ⟨given₂, F₂, h₂, hlast⟩ := ih h₁ hgiven₁ hids.2
    refine ⟨given₂, F₂, h₂, fun id' hid' => hlast id' ?_⟩
    by_cases heq : id' = id
    · subst heq
      exact .inr hself
    · rw [hother id' heq]
      exact hid'.imp_left fun hmem => (List.mem_cons.1 hmem).resolve_left heq

end InUse

end LiveTemplate
