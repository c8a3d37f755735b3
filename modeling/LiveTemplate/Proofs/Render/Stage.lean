import LiveTemplate.Proofs.Morph.Regions
import LiveTemplate.Render.Program

/-!
# LiveTemplate.Proofs.Render.Stage

Renders in progress.

While the sites of a program are rendered, the document holds a new fragment with the
static trees of the program, filled, and all that was there before is as it was
(`Stage`).  A stage begins when the static trees have been built, goes on with every
site, whatever else is created meanwhile, and ends with a tree without a place, the
root of the render.
-/

namespace LiveTemplate

/-- A render in progress: `dom` has the filled trees in a fragment and is otherwise an extension of
`base`. -/
structure Stage (base : Dom) (fragment : NodeId) (ts : List (Tree NodeId)) (F : Filling)
    (dom : Dom) : Prop where
  shows : dom.Shows (some fragment) [] [] F ts
  extends_base : base.Extends dom
  data_fragment : dom.data fragment = .fragment
  parent?_fragment : dom.parent? fragment = none
  fragment_new : base.size ≤ fragment.index
  all_new : ∀ x ∈ forestLabels (F.forest ts), base.size ≤ x.index

/-- The parent of what is rendered: the fragment, or none for an element that has left it. -/
def Root.host : Root → Option NodeId
  | .single _ => none
  | .sequence fragment => some fragment

namespace Stage

variable {base dom dom' : Dom} {fragment : NodeId} {ts : List (Tree NodeId)} {F : Filling}

/-- A stage begins with static trees in front of which nothing is shown. -/
theorem start (base : Dom) {forest : List Markup} (hplantable : PlantableAll forest) :
    Stage base (base.plantFragment forest).1 (numberForest (base.size + 1) forest)
      ⟨(base.plantFragment forest).2.data, fun _ => []⟩ (base.plantFragment forest).2 := by
  obtain ⟨hext, hloose⟩ := base.loose_plantFragment hplantable
  obtain ⟨hlt, hrecord, hholds⟩ := hloose.holds
  have hforest := Filling.forest_of_holds hholds
  have hnodup := hloose.nodup
  rw [Tree.labels, List.nodup_cons] at hnodup
  exact
    { shows :=
        { apart := ⟨by simp [forestLabels], by simp [forestLabels], by simp [forestLabels]⟩
          nodup := hnodup.2
          holds := by rw [hforest]; exact hholds
          children := fun p hp => by
            obtain rfl := Option.some.inj hp
            rw [hforest, List.nil_append, List.append_nil]
            exact Dom.children_of_record hrecord
          host_lt := fun p hp => by
            obtain rfl := Option.some.inj hp
            exact hlt
          host_not_mem := fun p hp => by
            obtain rfl := Option.some.inj hp
            rw [hforest]
            exact hnodup.1
          around_lt := by simp
          around_not_mem := by simp }
      extends_base := hext
      data_fragment := Dom.data_of_record hrecord
      parent?_fragment := by rw [Dom.parent?, hrecord]
      fragment_new := hloose.fresh _ List.mem_cons_self
      all_new := fun x hx => by
        rw [hforest] at hx
        exact hloose.fresh x (List.mem_cons_of_mem _ hx) }

/-- New nodes do not disturb a stage. -/
theorem extend (h : Stage base fragment ts F dom) (hext : dom.Extends dom') :
    Stage base fragment ts F dom' := by
  have hrecord := hext.record_eq fragment (h.shows.host_lt fragment rfl)
  refine ⟨h.shows.extend hext, h.extends_base.trans hext, ?_, ?_, h.fragment_new, h.all_new⟩
  · rw [Dom.data, hrecord]
    exact h.data_fragment
  · rw [Dom.parent?, hrecord]
    exact h.parent?_fragment

/-- The parent of a static node is new. -/
theorem parent_new (h : Stage base fragment ts F dom) {a p : NodeId} (ha : a ∈ forestLabels ts)
    (hparent : dom.parent? a = some p) : base.size ≤ p.index := by
  rcases Filling.root_or_child h.shows.holds ha with ⟨-, hhost⟩ | ⟨q, hq, hq', -⟩
  · obtain rfl : p = fragment := Option.some.inj (hparent.symm.trans hhost)
    exact h.fragment_new
  · obtain rfl : p = q := Option.some.inj (hparent.symm.trans hq')
    exact h.all_new p (Filling.mem_forestLabels_forest.2 (.inl hq))

/-- A new morph in front of a static node shows its first value. -/
theorem first_update (h : Stage base fragment ts F dom) (hext : dom.Extends dom') {m : Morph}
    (hanchor : m.anchor ∈ forestLabels ts) (hnodes : m.nodes = []) (hvalue : m.value = none)
    {value : Value} {trees : List (Tree NodeId)} (hdisplays : m.Displays dom dom' value trees) :
    (m.update value dom').1 = m.showing value (rootLabels trees) ∧
      Stage base fragment ts (F.setRegion m.anchor (F.region m.anchor ++ trees))
        (m.update value dom').2 := by
  obtain ⟨p, hparent⟩ := h.shows.exists_parent hanchor
  obtain ⟨hmorph, hshows, hreplaced⟩ :=
    h.shows.first_update hext hanchor hparent hnodes hvalue hdisplays
  have hfresh := (hdisplays.labels hext.size_le).2
  have hle := h.extends_base.size_le
  have hregion : ∀ x ∈ forestLabels (F.region m.anchor), base.size ≤ x.index :=
    fun x hx => h.all_new x (Filling.mem_forestLabels_forest.2 (.inr ⟨_, hanchor, hx⟩))
  have hp := h.parent_new hanchor hparent
  have hfragment := hreplaced.data_parent_of_not_mem (h.shows.host_lt fragment rfl)
    (fun hmem => h.shows.host_not_mem fragment rfl
      (Filling.mem_forestLabels_forest.2 (.inr ⟨_, hanchor, hmem⟩)))
  refine ⟨hmorph, ?_⟩
  constructor
  case shows => exact hshows
  case extends_base =>
    refine ⟨Nat.le_trans hle hreplaced.size_le, fun n hn => ?_⟩
    rw [hreplaced.frame n (by omega), h.extends_base.record_eq n hn]
    · rintro rfl
      omega
    · exact fun hmem => absurd hn (Nat.not_lt.2 (hregion n hmem))
  case data_fragment => rw [hfragment.1, h.data_fragment]
  case parent?_fragment => rw [hfragment.2, h.parent?_fragment]
  case fragment_new => exact h.fragment_new
  case all_new =>
    intro x hx
    rcases Filling.mem_of_mem_setRegion hx with hx | hx
    · exact h.all_new x hx
    · rw [forestLabels_append, List.mem_append] at hx
      rcases hx with hx | hx
      · exact hregion x hx
      · exact Nat.le_trans hle (hfresh x hx)

/-- The attributes of a static node change. -/
theorem changeData (h : Stage base fragment ts F dom) {a : NodeId} (ha : a ∈ forestLabels ts)
    (f : NodeData → NodeData) :
    Stage base fragment ts (F.setData a (f (F.data a)))
      (dom.modify a fun r => { r with data := f r.data }) := by
  have hlt := h.shows.index_lt ha
  have hsize : (dom.modify a fun r => { r with data := f r.data }).size = dom.size :=
    Dom.size_modify ..
  have hself : (dom.modify a fun r => { r with data := f r.data }).record a =
      { dom.record a with data := f (F.data a) } := by
    rw [Dom.record_modify, if_pos ⟨rfl, hlt⟩, ← h.shows.data_eq ha]
    rfl
  have hframe : ∀ n, n ≠ a → (dom.modify a fun r => { r with data := f r.data }).record n =
      dom.record n := by
    intro n hn
    rw [Dom.record_modify, if_neg (fun h => hn h.1)]
  have hnew := h.all_new a (Filling.mem_forestLabels_forest.2 (.inl ha))
  have hne : fragment ≠ a := by
    rintro rfl
    exact h.shows.host_not_mem fragment rfl (Filling.mem_forestLabels_forest.2 (.inl ha))
  have hle := h.extends_base.size_le
  constructor
  case shows =>
    exact h.shows.setData ha (Nat.le_of_eq hsize.symm) hself fun n _ hn => hframe n hn
  case extends_base =>
    refine ⟨by rw [hsize]; exact hle, fun n hn => ?_⟩
    rw [hframe n, h.extends_base.record_eq n hn]
    rintro rfl
    omega
  case data_fragment =>
    rw [Dom.data, hframe fragment hne]
    exact h.data_fragment
  case parent?_fragment =>
    rw [Dom.parent?, hframe fragment hne]
    exact h.parent?_fragment
  case fragment_new => exact h.fragment_new
  case all_new =>
    intro x hx
    rw [Filling.mem_forestLabels_forest] at hx
    exact h.all_new x (Filling.mem_forestLabels_forest.2 hx)

/-! ## the end -/

/-- An only element leaves the fragment. -/
theorem unwrap_cases (h : Stage base fragment ts F dom) :
    (∃ t, F.forest ts = [t] ∧ t.data.isElement ∧
        dom.unwrap fragment = (.single t.label, dom.removeChild fragment t.label)) ∨
      dom.unwrap fragment = (.sequence fragment, dom) := by
  have hchildren := h.shows.children fragment rfl
  rw [List.nil_append, List.append_nil] at hchildren
  rw [Dom.unwrap]
  split
  · next only honly =>
    rw [hchildren] at honly
    obtain ⟨t, hforest, rfl⟩ := List.map_eq_singleton_iff.1 honly
    have hholds := h.shows.holds
    rw [hforest] at hholds
    rw [Dom.data_of_record hholds.1.record_label]
    split
    · next helement => exact .inl ⟨t, hforest, helement, rfl⟩
    · exact .inr rfl
  · exact .inr rfl

/-- An element that has left the fragment is held without a parent. -/
theorem holds_single (h : Stage base fragment ts F dom) {t : Tree NodeId}
    (hforest : F.forest ts = [t]) : (dom.removeChild fragment t.label).HoldsAll none [t] := by
  have hholds := h.shows.holds
  have hnodup := h.shows.nodup_forest
  have hnot := h.shows.host_not_mem fragment rfl
  rw [hforest] at hholds hnodup hnot
  refine hholds.reparent (Nat.le_of_eq (Dom.size_removeChild ..).symm) hnodup fun x hx => ?_
  have hne : x ≠ fragment := by
    rintro rfl
    exact hnot hx
  rw [Dom.record_eq, Dom.data_removeChild, Dom.parent?_removeChild, Dom.children_removeChild,
    if_neg hne]
  have hroots : x ∈ rootLabels [t] ↔ x = t.label := List.mem_singleton
  by_cases hroot : x = t.label
  · rw [if_pos ⟨hroot, hholds.parent?_eq (hroots.2 hroot)⟩, if_pos (hroots.2 hroot)]
    rfl
  · rw [if_neg (fun h => hroot h.1), if_neg (fun h => hroot (hroots.1 h))]
    rfl

/-- All that was there before is unchanged at the end. -/
theorem extends_unwrap (h : Stage base fragment ts F dom) :
    base.Extends (dom.unwrap fragment).2 := by
  rcases h.unwrap_cases with ⟨t, hforest, -, hunwrap⟩ | hunwrap
  · rw [hunwrap]
    have hnew : base.size ≤ t.label.index := by
      refine h.all_new _ ?_
      rw [hforest]
      exact List.mem_append_left _ t.label_mem_labels
    have hfragment := h.fragment_new
    refine ⟨by rw [Dom.size_removeChild]; exact h.extends_base.size_le, fun n hn => ?_⟩
    have hne : n ≠ fragment := by
      rintro rfl
      omega
    have hlabel : n ≠ t.label := by
      rintro rfl
      omega
    rw [← h.extends_base.record_eq n hn, Dom.record_eq, Dom.data_removeChild,
      Dom.parent?_removeChild, Dom.children_removeChild, if_neg hne, if_neg (fun h => hlabel h.1)]
    rfl
  · rw [hunwrap]
    exact h.extends_base

/-- What is rendered stands in the fragment, or on its own if it has left it. -/
theorem shows_unwrap (h : Stage base fragment ts F dom) :
    (dom.unwrap fragment).2.Shows (dom.unwrap fragment).1.host [] [] F ts := by
  rcases h.unwrap_cases with ⟨t, hforest, -, hunwrap⟩ | hunwrap
  · rw [hunwrap]
    exact
      { apart := h.shows.apart
        nodup := h.shows.nodup
        holds := hforest ▸ h.holds_single hforest
        children := fun p hp => by cases hp
        host_lt := fun p hp => by cases hp
        host_not_mem := fun p hp => by cases hp
        around_lt := by simp
        around_not_mem := by simp }
  · rw [hunwrap]
    exact h.shows

/-- The root of a render is a tree without a place that shows the filled trees. -/
theorem shown_unwrap (h : Stage base fragment ts F dom) :
    ∃ t, (dom.unwrap fragment).1.node = t.label ∧ base.Loose (dom.unwrap fragment).2 t ∧
      t.shown = F.forest ts := by
  have hnodup := h.shows.nodup_forest
  have hall := h.all_new
  rcases h.unwrap_cases with ⟨t, hforest, helement, hunwrap⟩ | hunwrap
  · have hholds := h.holds_single hforest
    have hfragment : ¬t.data.isFragment = true := by
      cases hdata : t.data <;> rw [hdata] at helement <;> simp [NodeData.isFragment]
      cases helement
    rw [hunwrap]
    rw [hforest, forestLabels, forestLabels, List.append_nil] at hnodup hall
    refine ⟨t, rfl, ⟨hholds.1, hnodup, hall⟩, ?_⟩
    rw [Tree.shown, if_neg hfragment, hforest]
  · have hlt := h.shows.host_lt fragment rfl
    have hchildren := h.shows.children fragment rfl
    have hnot := h.shows.host_not_mem fragment rfl
    rw [hunwrap]
    refine ⟨.node fragment .fragment (F.forest ts), rfl, ⟨⟨hlt, ?_, h.shows.holds⟩, ?_, ?_⟩, rfl⟩
    · rw [Dom.record_eq, h.data_fragment, h.parent?_fragment, hchildren, List.nil_append,
        List.append_nil]
    · exact List.nodup_cons.2 ⟨hnot, hnodup⟩
    · intro x hx
      rcases List.mem_cons.1 hx with rfl | hx
      · exact h.fragment_new
      · exact hall x hx

/-- The root of a render is a tree without a place, which is written as the filled trees are. -/
theorem loose_unwrap (h : Stage base fragment ts F dom) :
    ∃ t, (dom.unwrap fragment).1.node = t.label ∧ base.Loose (dom.unwrap fragment).2 t ∧
      t.html = forestHtml (F.forest ts) := by
  obtain ⟨t, hroot, hloose, hshown⟩ := h.shown_unwrap
  exact ⟨t, hroot, hloose, by rw [← hshown, forestHtml_shown]⟩

end Stage

end LiveTemplate
