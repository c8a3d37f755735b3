import LiveTemplate.Proofs.Dom.Replacing

/-!
# LiveTemplate.Proofs.Dom.Filling

Static trees with regions in front of their nodes.

A `Filling` says what a static tree has become: the data that each of its nodes has
now, and the trees that are shown in front of it, its *region*.  `F.forest ts` are the
static trees `ts` filled in that way.

1. The regions are apart from each other and from the static nodes (`Apart`), so no
   node occurs twice in the filled trees (`nodup_forest`).
2. A change of one region in the document (`Dom.Replaced`) is a change of the filling
   at one node, and so is a change of data: the document goes on showing the filled
   trees (`Dom.Shows.replace`, `Dom.Shows.setData`).
-/

namespace LiveTemplate

/-- What the nodes of static trees are now, and what is shown in front of them. -/
structure Filling where
  data : NodeId → NodeData
  region : NodeId → List (Tree NodeId)

namespace Filling

mutual

/-- A static tree, filled. -/
def tree (F : Filling) : Tree NodeId → Tree NodeId
  | .node id _ kids => .node id (F.data id) (F.forest kids)

/-- Static trees, filled: each stands behind its region. -/
def forest (F : Filling) : List (Tree NodeId) → List (Tree NodeId)
  | [] => []
  | t :: ts => F.region t.label ++ F.tree t :: F.forest ts

end

/-- The filling with another region in front of `a`. -/
def setRegion (F : Filling) (a : NodeId) (region : List (Tree NodeId)) : Filling :=
  { F with region := fun x => if x = a then region else F.region x }

/-- The filling with other data at `a`. -/
def setData (F : Filling) (a : NodeId) (data : NodeData) : Filling :=
  { F with data := fun x => if x = a then data else F.data x }

variable {F G : Filling}

@[simp] theorem region_setRegion_self (F : Filling) (a : NodeId) (region : List (Tree NodeId)) :
    (F.setRegion a region).region a = region := if_pos rfl

theorem region_setRegion_of_ne {x a : NodeId} (h : x ≠ a) (region : List (Tree NodeId)) :
    (F.setRegion a region).region x = F.region x := if_neg h

@[simp] theorem data_setRegion (F : Filling) (a x : NodeId) (region : List (Tree NodeId)) :
    (F.setRegion a region).data x = F.data x := rfl

@[simp] theorem region_setData (F : Filling) (a x : NodeId) (data : NodeData) :
    (F.setData a data).region x = F.region x := rfl

theorem data_setData (F : Filling) (a x : NodeId) (data : NodeData) :
    (F.setData a data).data x = if x = a then data else F.data x := rfl

@[simp] theorem forest_nil (F : Filling) : F.forest [] = [] := rfl

theorem forest_cons (F : Filling) (id : NodeId) (data : NodeData) (kids ts : List (Tree NodeId)) :
    F.forest (.node id data kids :: ts) =
      F.region id ++ .node id (F.data id) (F.forest kids) :: F.forest ts := rfl

theorem forest_append (F : Filling) (ts us : List (Tree NodeId)) :
    F.forest (ts ++ us) = F.forest ts ++ F.forest us := by
  induction ts with
  | nil => rfl
  | cons t ts ih => simp [forest, ih]

/-- Filled trees are written with what is written of the regions. -/
theorem forestHtml_congr {ts : List (Tree NodeId)}
    (h : ∀ x ∈ forestLabels ts,
      F.data x = G.data x ∧ forestHtml (F.region x) = forestHtml (G.region x)) :
    forestHtml (F.forest ts) = forestHtml (G.forest ts) := by
  induction ts using forest_induction with
  | nil => rfl
  | cons id data kids ts ihkids ihts =>
    simp only [forestLabels, Tree.labels, List.cons_append, List.mem_cons, List.mem_append] at h
    obtain ⟨hdata, hregion⟩ := h id (.inl rfl)
    rw [forest_cons, forest_cons, forestHtml_append, forestHtml_append, hregion, forestHtml,
      forestHtml, Tree.html, Tree.html, hdata, ihkids fun x hx => h x (.inr (.inl hx)),
      ihts fun x hx => h x (.inr (.inr hx))]

/-- The roots of filled trees depend on the regions of the static roots only. -/
theorem rootLabels_forest_congr {ts : List (Tree NodeId)}
    (h : ∀ x ∈ rootLabels ts, F.region x = G.region x) :
    rootLabels (F.forest ts) = rootLabels (G.forest ts) := by
  induction ts with
  | nil => rfl
  | cons t ts ih =>
    obtain ⟨id, data, kids⟩ := t
    simp only [rootLabels_cons, Tree.label, List.mem_cons] at h
    rw [forest_cons, forest_cons, rootLabels_append, rootLabels_append, rootLabels_cons,
      rootLabels_cons, h id (.inl rfl), ih fun x hx => h x (.inr hx)]
    rfl

/-- Static trees are themselves when nothing is shown in front of them. -/
theorem forest_of_holds {dom : Dom} {parent : Option NodeId} {ts : List (Tree NodeId)}
    (h : dom.HoldsAll parent ts) : forest ⟨dom.data, fun _ => []⟩ ts = ts := by
  induction ts using forest_induction generalizing parent with
  | nil => rfl
  | cons id data kids ts ihkids ihts =>
    obtain ⟨⟨-, hrecord, hkids⟩, hts⟩ := h
    rw [forest_cons, ihkids hkids, ihts hts]
    show Tree.node id (dom.data id) kids :: ts = _
    rw [Dom.data_of_record hrecord]

/-! ## apartness -/

/-- The regions in front of static nodes are apart from the static nodes and from each other, and
no node occurs twice in them. -/
structure Apart (F : Filling) (static : List NodeId) : Prop where
  region_static : ∀ x ∈ static, ∀ y ∈ static, y ∉ forestLabels (F.region x)
  disjoint : ∀ x ∈ static, ∀ y ∈ static, x ≠ y →
    ∀ z ∈ forestLabels (F.region x), z ∉ forestLabels (F.region y)
  nodup : ∀ x ∈ static, (forestLabels (F.region x)).Nodup

/-- Regions stay apart when one is replaced by nodes of its own and by new ones. -/
theorem Apart.setRegion {static : List NodeId} (h : F.Apart static) {a : NodeId} (ha : a ∈ static)
    {region : List (Tree NodeId)} (hnodup : (forestLabels region).Nodup)
    (hnew : ∀ z ∈ forestLabels region, z ∈ forestLabels (F.region a) ∨
      (z ∉ static ∧ ∀ y ∈ static, z ∉ forestLabels (F.region y))) :
    (F.setRegion a region).Apart static := by
  have hself := region_setRegion_self F a region
  have hother : ∀ x, x ≠ a → (F.setRegion a region).region x = F.region x :=
    fun x hx => region_setRegion_of_ne hx region
  refine ⟨fun x hx y hy => ?_, fun x hx y hy hxy => ?_, fun x hx => ?_⟩
  · by_cases hxa : x = a
    · subst hxa
      rw [hself]
      intro hmem
      rcases hnew y hmem with hold | hfresh
      · exact h.region_static x hx y hy hold
      · exact hfresh.1 hy
    · rw [hother x hxa]
      exact h.region_static x hx y hy
  · by_cases hxa : x = a
    · subst hxa
      rw [hself, hother y (Ne.symm hxy)]
      intro z hz
      rcases hnew z hz with hold | hfresh
      · exact h.disjoint x hx y hy hxy z hold
      · exact hfresh.2 y hy
    · by_cases hya : y = a
      · subst hya
        rw [hself, hother x hxa]
        intro z hz hmem
        rcases hnew z hmem with hold | hfresh
        · exact h.disjoint x hx y hy hxy z hz hold
        · exact hfresh.2 x hx hz
      · rw [hother x hxa, hother y hya]
        exact h.disjoint x hx y hy hxy
  · by_cases hxa : x = a
    · subst hxa
      rw [hself]
      exact hnodup
    · rw [hother x hxa]
      exact h.nodup x hx

theorem Apart.setData {static : List NodeId} (h : F.Apart static) (a : NodeId) (data : NodeData) :
    (F.setData a data).Apart static :=
  ⟨h.region_static, h.disjoint, h.nodup⟩

/-- Where a node of filled trees comes from. -/
theorem mem_forestLabels_forest {ts : List (Tree NodeId)} {z : NodeId} :
    z ∈ forestLabels (F.forest ts) ↔
      z ∈ forestLabels ts ∨ ∃ x ∈ forestLabels ts, z ∈ forestLabels (F.region x) := by
  induction ts using forest_induction with
  | nil => simp [forestLabels]
  | cons id data kids ts ihkids ihts =>
    simp only [forest_cons, forestLabels_append, forestLabels, Tree.labels, List.mem_append,
      List.mem_cons, ihkids, ihts, List.cons_append]
    grind

/-- What is shown once a region is another was shown before, or is in the new one. -/
theorem mem_of_mem_setRegion {a : NodeId} {region ts : List (Tree NodeId)} {z : NodeId}
    (hz : z ∈ forestLabels ((F.setRegion a region).forest ts)) :
    z ∈ forestLabels (F.forest ts) ∨ z ∈ forestLabels region := by
  rw [mem_forestLabels_forest] at hz ⊢
  rcases hz with hz | ⟨y, hy, hz⟩
  · exact .inl (.inl hz)
  · by_cases hya : y = a
    · subst hya
      rw [region_setRegion_self] at hz
      exact .inr hz
    · rw [region_setRegion_of_ne hya] at hz
      exact .inl (.inr ⟨y, hy, hz⟩)

/-- Nodes below a bound that do not stand in the filled trees do not stand in them when nodes above
it have come into a region. -/
theorem not_mem_setRegion {ts new : List (Tree NodeId)} {a : NodeId} (ha : a ∈ forestLabels ts)
    {size : Nat} (hnew : ∀ x ∈ forestLabels new, x ∈ forestLabels (F.region a) ∨ size ≤ x.index)
    {x : NodeId} (hlt : x.index < size) (hx : x ∉ forestLabels (F.forest ts)) :
    x ∉ forestLabels ((F.setRegion a new).forest ts) := by
  intro hmem
  rcases mem_of_mem_setRegion hmem with hmem | hmem
  · exact hx hmem
  · rcases hnew x hmem with hold | hge
    · exact hx (mem_forestLabels_forest.2 (.inr ⟨a, ha, hold⟩))
    · exact absurd hlt (Nat.not_lt.2 hge)

/-- No node occurs twice in filled trees. -/
theorem nodup_forest {static : List NodeId} (hapart : F.Apart static) {ts : List (Tree NodeId)}
    (hsub : ∀ x ∈ forestLabels ts, x ∈ static) (hnodup : (forestLabels ts).Nodup) :
    (forestLabels (F.forest ts)).Nodup := by
  induction ts using forest_induction with
  | nil => simp [forestLabels]
  | cons id data kids ts ihkids ihts =>
    simp only [forestLabels, Tree.labels, List.cons_append, List.mem_cons, List.mem_append,
      List.nodup_cons, List.nodup_append] at hsub hnodup
    obtain ⟨hid, hkids, hts, hkidsts⟩ := hnodup
    have hidstatic := hsub id (.inl rfl)
    have hkidsstatic : ∀ x ∈ forestLabels kids, x ∈ static := fun x hx => hsub x (.inr (.inl hx))
    have htsstatic : ∀ x ∈ forestLabels ts, x ∈ static := fun x hx => hsub x (.inr (.inr hx))
    have hregion := hapart.region_static
    have hdisjoint := hapart.disjoint
    simp only [forest_cons, forestLabels_append, forestLabels, Tree.labels, List.cons_append,
      List.nodup_append, List.nodup_cons, List.mem_append, List.mem_cons, mem_forestLabels_forest]
    refine ⟨hapart.nodup id hidstatic, ⟨?_, ihkids hkidsstatic hkids, ihts htsstatic hts, ?_⟩, ?_⟩
    · grind
    · grind
    · grind

/-- Without a change at `a` the roots stay. -/
theorem rootLabels_setRegion_of_not_mem {a : NodeId} {ts : List (Tree NodeId)}
    (h : a ∉ rootLabels ts) (region : List (Tree NodeId)) :
    rootLabels ((F.setRegion a region).forest ts) = rootLabels (F.forest ts) := by
  refine rootLabels_forest_congr fun x hx => region_setRegion_of_ne ?_ region
  rintro rfl
  exact h hx

/-- The roots of filled trees around one of the static roots. -/
theorem rootLabels_forest_append_cons (F : Filling) (us : List (Tree NodeId)) (t : Tree NodeId)
    (vs : List (Tree NodeId)) :
    rootLabels (F.forest (us ++ t :: vs)) =
      rootLabels (F.forest us) ++ rootLabels (F.region t.label) ++
        t.label :: rootLabels (F.forest vs) := by
  obtain ⟨id, data, kids⟩ := t
  rw [forest_append, forest_cons, rootLabels_append, rootLabels_append, rootLabels_cons,
    List.append_assoc]
  rfl

/-- Where a root of filled trees comes from. -/
theorem mem_rootLabels_forest {ts : List (Tree NodeId)} {z : NodeId} :
    z ∈ rootLabels (F.forest ts) ↔
      z ∈ rootLabels ts ∨ ∃ x ∈ rootLabels ts, z ∈ rootLabels (F.region x) := by
  induction ts with
  | nil => simp
  | cons t ts ih =>
    obtain ⟨id, data, kids⟩ := t
    simp only [forest_cons, rootLabels_append, rootLabels_cons, List.mem_append, List.mem_cons, ih,
      Tree.label]
    grind

/-- A static node is a root, or a root of what stands below the static node that is its parent. -/
theorem root_or_child {dom : Dom} {q : Option NodeId} {ts : List (Tree NodeId)}
    (h : dom.HoldsAll q (F.forest ts)) {a : NodeId} (ha : a ∈ forestLabels ts) :
    (a ∈ rootLabels ts ∧ dom.parent? a = q) ∨
      ∃ p ∈ forestLabels ts, dom.parent? a = some p ∧
        ∃ kids, a ∈ rootLabels kids ∧ dom.children p = rootLabels (F.forest kids) := by
  induction ts using forest_induction generalizing q with
  | nil => simp [forestLabels] at ha
  | cons id data kids ts ihkids ihts =>
    rw [forest_cons, Dom.holdsAll_append] at h
    obtain ⟨-, ⟨-, hrecord, hkids⟩, hts⟩ := h
    simp only [forestLabels, Tree.labels, List.cons_append, List.mem_cons, List.mem_append] at ha ⊢
    rcases ha with rfl | ha | ha
    · exact .inl ⟨List.mem_cons_self, by rw [Dom.parent?, hrecord]⟩
    · rcases ihkids hkids ha with ⟨hroot, hparent⟩ | ⟨p, hp, hchild⟩
      · exact .inr ⟨id, .inl rfl, hparent, kids, hroot, Dom.children_of_record hrecord⟩
      · exact .inr ⟨p, .inr (.inl hp), hchild⟩
    · rcases ihts hts ha with ⟨hroot, hparent⟩ | ⟨p, hp, hchild⟩
      · exact .inl ⟨List.mem_cons_of_mem _ hroot, hparent⟩
      · exact .inr ⟨p, .inr (.inr hp), hchild⟩

/-- What stands directly in front of a static root of filled trees is its region. -/
theorem exists_rootLabels_forest_eq {ts : List (Tree NodeId)} {a : NodeId}
    (ha : a ∈ rootLabels ts) :
    ∃ us vs, rootLabels (F.forest ts) =
      rootLabels (F.forest us) ++ rootLabels (F.region a) ++ a :: rootLabels (F.forest vs) := by
  obtain ⟨t, ht, rfl⟩ := List.mem_map.1 ha
  obtain ⟨us, vs, rfl⟩ := List.append_of_mem ht
  exact ⟨us, vs, rootLabels_forest_append_cons F us t vs⟩

theorem data_of_mem {dom : Dom} {q : Option NodeId} {ts : List (Tree NodeId)}
    (h : dom.HoldsAll q (F.forest ts)) {a : NodeId} (ha : a ∈ forestLabels ts) :
    dom.data a = F.data a := by
  induction ts using forest_induction generalizing q with
  | nil => simp [forestLabels] at ha
  | cons id data kids ts ihkids ihts =>
    rw [forest_cons, Dom.holdsAll_append] at h
    obtain ⟨-, ⟨-, hrecord, hkids⟩, hts⟩ := h
    simp only [forestLabels, Tree.labels, List.cons_append, List.mem_cons, List.mem_append] at ha
    rcases ha with rfl | ha | ha
    · exact Dom.data_of_record hrecord
    · exact ihkids hkids ha
    · exact ihts hts ha

/-- A region stands below the parent of the node it is in front of. -/
theorem holdsAll_region {dom : Dom} {q : Option NodeId} {ts : List (Tree NodeId)}
    (h : dom.HoldsAll q (F.forest ts)) {a : NodeId} (ha : a ∈ forestLabels ts) :
    dom.HoldsAll (dom.parent? a) (F.region a) := by
  induction ts using forest_induction generalizing q with
  | nil => simp [forestLabels] at ha
  | cons id data kids ts ihkids ihts =>
    rw [forest_cons, Dom.holdsAll_append] at h
    obtain ⟨hregion, ⟨-, hrecord, hkids⟩, hts⟩ := h
    simp only [forestLabels, Tree.labels, List.cons_append, List.mem_cons, List.mem_append] at ha
    rcases ha with rfl | ha | ha
    · rw [Dom.parent?, hrecord]
      exact hregion
    · exact ihkids hkids ha
    · exact ihts hts ha

end Filling

/-! ## changing a region -/

namespace Filling

variable {F : Filling} {static : List NodeId} {dom dom' : Dom} {p a : NodeId}
  {new : List (Tree NodeId)}

/-- The roots of other filled trees are neither the node nor the roots of its region. -/
theorem Apart.not_mem_of_mem_rootLabels (h : F.Apart static) (ha : a ∈ static)
    {ws : List (Tree NodeId)} (hws : ∀ x ∈ forestLabels ws, x ∈ static) (hnot : a ∉ forestLabels ws)
    {x : NodeId} (hx : x ∈ rootLabels (F.forest ws)) : x ≠ a ∧ x ∉ rootLabels (F.region a) := by
  have hregion : x ∉ forestLabels (F.region a) → x ∉ rootLabels (F.region a) :=
    fun h h' => h (mem_forestLabels_of_mem_rootLabels h')
  rcases mem_forestLabels_forest.1 (mem_forestLabels_of_mem_rootLabels hx) with hx | ⟨y, hy, hx⟩
  · exact ⟨fun heq => hnot (heq ▸ hx), hregion (h.region_static _ ha _ (hws x hx))⟩
  · have hne : y ≠ a := fun heq => hnot (heq ▸ hy)
    refine ⟨?_, hregion (h.disjoint y (hws y hy) _ ha hne x hx)⟩
    rintro rfl
    exact h.region_static y (hws y hy) _ ha hx

/-- The children of `p`, when the region in front of one of them has changed. -/
theorem record_replaced (hapart : F.Apart static) (ha : a ∈ static)
    (hr : dom.Replaced dom' p a (F.region a) new) {kids : List (Tree NodeId)}
    (hsub : ∀ x ∈ forestLabels kids, x ∈ static) (hnodup : (forestLabels kids).Nodup)
    (hmem : a ∈ rootLabels kids) (before after : List NodeId)
    (haround : ∀ x ∈ before ++ after, x ∉ forestLabels (F.forest kids))
    (hchildren : dom.children p = before ++ rootLabels (F.forest kids) ++ after) :
    dom'.record p = { dom.record p with
      children := before ++ rootLabels ((F.setRegion a new).forest kids) ++ after } := by
  -- The roots are split at `a`, which stands behind its region and in front of all later ones.
  obtain ⟨t, ht, rfl⟩ := List.mem_map.1 hmem
  obtain ⟨us, vs, rfl⟩ := List.append_of_mem ht
  have hroots := rootLabels_forest_append_cons F us t vs
  have hroots' := rootLabels_forest_append_cons (F.setRegion t.label new) us t vs
  simp only [forestLabels_append, forestLabels, List.nodup_append, List.mem_append] at hnodup hsub
  obtain ⟨hus, ⟨htnodup, hvs, htvs⟩, husvs⟩ := hnodup
  have hlabel := t.label_mem_labels
  have husroot : t.label ∉ forestLabels us := fun h => husvs _ h _ (.inl hlabel) rfl
  have hvsroot : t.label ∉ forestLabels vs := fun h => htvs _ hlabel _ h rfl
  rw [region_setRegion_self,
    rootLabels_setRegion_of_not_mem fun h => husroot (mem_forestLabels_of_mem_rootLabels h),
    rootLabels_setRegion_of_not_mem fun h => hvsroot (mem_forestLabels_of_mem_rootLabels h)]
    at hroots'
  have hregion : ∀ x ∈ rootLabels (F.region t.label),
      x ∈ forestLabels (F.forest (us ++ t :: vs)) := by
    intro x hx
    refine mem_forestLabels_of_mem_rootLabels ?_
    rw [hroots]
    simp [hx]
  have husother : ∀ x ∈ rootLabels (F.forest us), x ≠ t.label ∧ x ∉ rootLabels (F.region t.label) :=
    fun x => hapart.not_mem_of_mem_rootLabels ha (fun y hy => hsub y (.inl hy)) husroot
  have hvsother : ∀ x ∈ rootLabels (F.forest vs), x ≠ t.label ∧ x ∉ rootLabels (F.region t.label) :=
    fun x => hapart.not_mem_of_mem_rootLabels ha (fun y hy => hsub y (.inr (.inr hy))) hvsroot
  have haroot : t.label ∈ forestLabels (F.forest (us ++ t :: vs)) :=
    mem_forestLabels_of_mem_rootLabels (mem_rootLabels_forest.2 (.inl hmem))
  have hrecord := hr.record_parent (before ++ rootLabels (F.forest us))
    (rootLabels (F.forest vs) ++ after) ?_ ?_ ?_
  · rw [hrecord, hroots']
    simp
  · rw [hchildren, hroots]
    simp
  · simp only [List.mem_append, not_or]
    refine ⟨⟨fun h => haround _ (by simp [h]) haroot, fun h => (husother _ h).1 rfl⟩, fun h => ?_⟩
    exact hapart.region_static _ ha _ ha (mem_forestLabels_of_mem_rootLabels h)
  · intro x hx hxregion
    simp only [List.mem_append] at hx haround
    rcases hx with (hx | hx) | hx | hx
    · exact haround x (.inl hx) (hregion x hxregion)
    · exact (husother x hx).2 hxregion
    · exact (hvsother x hx).2 hxregion
    · exact haround x (.inr hx) (hregion x hxregion)

/-- The document goes on holding filled trees when one region changes. -/
theorem holdsAll_replace (hapart : F.Apart static) (ha : a ∈ static) (hmem : a ∈ dom.children p)
    (hparent : dom.parent? a = some p) (hp : ∀ x ∈ static, p ∉ forestLabels (F.region x))
    (hr : dom.Replaced dom' p a (F.region a) new) {ts : List (Tree NodeId)}
    (hsub : ∀ x ∈ forestLabels ts, x ∈ static) (hnodup : (forestLabels ts).Nodup)
    {q : Option NodeId} (h : dom.HoldsAll q (F.forest ts)) :
    dom'.HoldsAll q ((F.setRegion a new).forest ts) := by
  induction ts using forest_induction generalizing q with
  | nil => trivial
  | cons id data kids ts ihkids ihts =>
    simp only [forestLabels, Tree.labels, List.cons_append, List.mem_cons, List.mem_append,
      List.nodup_cons, List.nodup_append] at hsub hnodup
    obtain ⟨hid, hkids, hts, -⟩ := hnodup
    have hkidsstatic : ∀ x ∈ forestLabels kids, x ∈ static := fun x hx => hsub x (.inr (.inl hx))
    have hidstatic := hsub id (.inl rfl)
    rw [forest_cons, Dom.holdsAll_append] at h
    obtain ⟨hregion, ⟨hlt, hrecord, hbelow⟩, hrest⟩ := h
    rw [forest_cons, Dom.holdsAll_append]
    refine ⟨?_, ⟨Nat.lt_of_lt_of_le hlt hr.size_le, ?_, ihkids hkidsstatic hkids hbelow⟩,
      ihts (fun x hx => hsub x (.inr (.inr hx))) hts hrest⟩
    -- Of the regions only the one in front of `a` changes.
    · by_cases hida : id = a
      · subst hida
        rw [Dom.parent?, hrecord] at hparent
        rw [region_setRegion_self, show q = some p from hparent]
        exact hr.holds
      · rw [region_setRegion_of_ne hida]
        refine Dom.HoldsAll.congr hr.size_le _ (fun x hx => hr.frame x ?_ ?_ ?_) hregion
        · exact hregion.index_lt _ x hx
        · rintro rfl
          exact hp id hidstatic hx
        · exact hapart.disjoint id hidstatic a ha hida x hx
    -- Of the static nodes only `p` gets other children: `a` is a child of no other one.
    · by_cases hidp : id = p
      · subst hidp
        have hchildren := Dom.children_of_record hrecord
        have hakids : a ∈ rootLabels kids := by
          rw [hchildren] at hmem
          rcases mem_rootLabels_forest.1 hmem with hmem | ⟨x, hx, hregion⟩
          · exact hmem
          · have hxstatic := hkidsstatic x (mem_forestLabels_of_mem_rootLabels hx)
            have hnot := hapart.region_static x hxstatic a ha
            exact absurd (mem_forestLabels_of_mem_rootLabels hregion) hnot
        have hreplaced := record_replaced hapart ha hr hkidsstatic hkids hakids [] [] (by simp)
          (by simpa using hchildren)
        rw [hreplaced, hrecord]
        simp
      · have hakids : a ∉ rootLabels kids := by
          intro hakids
          have := hbelow.parent?_eq (mem_rootLabels_forest.2 (.inl hakids))
          rw [hparent] at this
          exact hidp (Option.some.inj this).symm
        rw [hr.frame id hlt hidp (hapart.region_static a ha id hidstatic), hrecord, data_setRegion,
          rootLabels_setRegion_of_not_mem hakids]

/-- The document goes on holding filled trees when the data of a node changes. -/
theorem holdsAll_setData (hapart : F.Apart static) (ha : a ∈ static) {data : NodeData}
    (hsize : dom.size ≤ dom'.size) (hself : dom'.record a = { dom.record a with data })
    (hframe : ∀ n, n.index < dom.size → n ≠ a → dom'.record n = dom.record n)
    {ts : List (Tree NodeId)} (hsub : ∀ x ∈ forestLabels ts, x ∈ static) {q : Option NodeId}
    (h : dom.HoldsAll q (F.forest ts)) : dom'.HoldsAll q ((F.setData a data).forest ts) := by
  induction ts using forest_induction generalizing q with
  | nil => trivial
  | cons id d kids ts ihkids ihts =>
    simp only [forestLabels, Tree.labels, List.cons_append, List.mem_cons, List.mem_append] at hsub
    rw [forest_cons, Dom.holdsAll_append] at h
    obtain ⟨hregion, ⟨hlt, hrecord, hbelow⟩, hrest⟩ := h
    have hroots : rootLabels ((F.setData a data).forest kids) = rootLabels (F.forest kids) :=
      rootLabels_forest_congr fun x _ => rfl
    rw [forest_cons, Dom.holdsAll_append, region_setData]
    refine ⟨?_, ⟨Nat.lt_of_lt_of_le hlt hsize, ?_,
        ihkids (fun x hx => hsub x (.inr (.inl hx))) hbelow⟩,
      ihts (fun x hx => hsub x (.inr (.inr hx))) hrest⟩
    · refine Dom.HoldsAll.congr hsize _ (fun x hx => hframe x (hregion.index_lt _ x hx) ?_) hregion
      rintro rfl
      exact hapart.region_static id (hsub id (.inl rfl)) x ha hx
    · rw [hroots, data_setData]
      by_cases hida : id = a
      · subst hida
        rw [hself, hrecord, if_pos rfl]
      · rw [hframe id hlt hida, hrecord, if_neg hida]

end Filling

namespace Dom

/-! ## documents that show filled trees -/

/-- A document shows filled trees below `host`, between the nodes `before` and `after`.  Without a
host they have no parent. -/
structure Shows (dom : Dom) (host : Option NodeId) (before after : List NodeId) (F : Filling)
    (ts : List (Tree NodeId)) : Prop where
  apart : F.Apart (forestLabels ts)
  nodup : (forestLabels ts).Nodup
  holds : dom.HoldsAll host (F.forest ts)
  children : ∀ h, host = some h → dom.children h = before ++ rootLabels (F.forest ts) ++ after
  host_lt : ∀ h, host = some h → h.index < dom.size
  host_not_mem : ∀ h, host = some h → h ∉ forestLabels (F.forest ts)
  around_lt : ∀ x ∈ before ++ after, x.index < dom.size
  around_not_mem : ∀ x ∈ before ++ after, x ∉ forestLabels (F.forest ts)

namespace Shows

variable {dom dom' : Dom} {host : Option NodeId} {before after : List NodeId} {F : Filling}
  {ts : List (Tree NodeId)}

theorem index_lt (h : dom.Shows host before after F ts) {x : NodeId} (hx : x ∈ forestLabels ts) :
    x.index < dom.size :=
  h.holds.index_lt _ x (Filling.mem_forestLabels_forest.2 (.inl hx))

theorem region_index_lt (h : dom.Shows host before after F ts) {a x : NodeId}
    (ha : a ∈ forestLabels ts) (hx : x ∈ forestLabels (F.region a)) : x.index < dom.size :=
  h.holds.index_lt _ x (Filling.mem_forestLabels_forest.2 (.inr ⟨a, ha, hx⟩))

/-- More nodes do not matter. -/
theorem extend (h : dom.Shows host before after F ts) (hext : dom.Extends dom') :
    dom'.Shows host before after F ts where
  apart := h.apart
  nodup := h.nodup
  holds := hext.holdsAll h.holds
  children p hp := by
    rw [Dom.children, hext.record_eq p (h.host_lt p hp)]
    exact h.children p hp
  host_lt p hp := Nat.lt_of_lt_of_le (h.host_lt p hp) hext.size_le
  host_not_mem := h.host_not_mem
  around_lt x hx := Nat.lt_of_lt_of_le (h.around_lt x hx) hext.size_le
  around_not_mem := h.around_not_mem

section Replace

variable {p a : NodeId} {new : List (Tree NodeId)}

/-- The region in front of a root is replaced, below the host. -/
theorem replaced_root (h : dom.Shows host before after F ts) (ha : a ∈ rootLabels ts)
    (hhost : host = some p) (hparent : dom.parent? a = some p)
    (hr : dom.Replaced dom' p a (F.region a) new) :
    dom'.children p = before ++ rootLabels ((F.setRegion a new).forest ts) ++ after ∧
      dom'.HoldsAll host ((F.setRegion a new).forest ts) := by
  have hstatic := mem_forestLabels_of_mem_rootLabels ha
  have hchildren := h.children p hhost
  have hmem : a ∈ dom.children p := by
    rw [hchildren]
    simp [Filling.mem_rootLabels_forest.2 (.inl ha)]
  have hp : ∀ x ∈ forestLabels ts, p ∉ forestLabels (F.region x) := fun x hx hpx =>
    h.host_not_mem p hhost (Filling.mem_forestLabels_forest.2 (.inr ⟨x, hx, hpx⟩))
  refine ⟨?_, Filling.holdsAll_replace h.apart hstatic hmem hparent hp hr (fun _ hx => hx) h.nodup
    h.holds⟩
  exact Dom.children_of_record (Filling.record_replaced h.apart hstatic hr (fun _ hx => hx) h.nodup
    ha before after h.around_not_mem hchildren)

/-- The region in front of a child of a static node is replaced, where the host does not change. -/
theorem replaced_child (h : dom.Shows host before after F ts) (ha : a ∈ forestLabels ts)
    (hp : p ∈ forestLabels ts) (hparent : dom.parent? a = some p) (hmem : a ∈ dom.children p)
    (hr : dom.Replaced dom' p a (F.region a) new) :
    (∀ q, host = some q → dom'.children q =
        before ++ rootLabels ((F.setRegion a new).forest ts) ++ after) ∧
      dom'.HoldsAll host ((F.setRegion a new).forest ts) := by
  have hpregion : ∀ x ∈ forestLabels ts, p ∉ forestLabels (F.region x) :=
    fun x hx => h.apart.region_static x hx p hp
  refine ⟨fun q hq => ?_, Filling.holdsAll_replace h.apart ha hmem hparent hpregion hr
    (fun _ hx => hx) h.nodup h.holds⟩
  have hqnot := h.host_not_mem q hq
  have hqp : q ≠ p := by
    rintro rfl
    exact hqnot (Filling.mem_forestLabels_forest.2 (.inl hp))
  have haroot : a ∉ rootLabels ts := by
    intro hroot
    have hqparent := h.holds.parent?_eq (Filling.mem_rootLabels_forest.2 (.inl hroot))
    rw [hparent, hq] at hqparent
    exact hqp (Option.some.inj hqparent).symm
  have hqregion : q ∉ forestLabels (F.region a) := fun hmem =>
    hqnot (Filling.mem_forestLabels_forest.2 (.inr ⟨a, ha, hmem⟩))
  rw [Dom.children, hr.frame q (h.host_lt q hq) hqp hqregion,
    Filling.rootLabels_setRegion_of_not_mem haroot]
  exact h.children q hq

/-- One region is replaced. -/
theorem replace (h : dom.Shows host before after F ts) (ha : a ∈ forestLabels ts)
    (hparent : dom.parent? a = some p) (hr : dom.Replaced dom' p a (F.region a) new)
    (hnodup : (forestLabels new).Nodup)
    (hnew : ∀ x ∈ forestLabels new, x ∈ forestLabels (F.region a) ∨ dom.size ≤ x.index) :
    dom'.Shows host before after (F.setRegion a new) ts := by
  have hapart : (F.setRegion a new).Apart (forestLabels ts) := by
    refine h.apart.setRegion ha hnodup fun z hz => ?_
    rcases hnew z hz with hold | hfresh
    · exact .inl hold
    · refine .inr ⟨fun hstatic => ?_, fun y hy hmem => ?_⟩
      · exact absurd (h.index_lt hstatic) (Nat.not_lt.2 hfresh)
      · exact absurd (h.region_index_lt hy hmem) (Nat.not_lt.2 hfresh)
  have hrest : (∀ q, host = some q → dom'.children q =
        before ++ rootLabels ((F.setRegion a new).forest ts) ++ after) ∧
      dom'.HoldsAll host ((F.setRegion a new).forest ts) := by
    rcases Filling.root_or_child h.holds ha with
      ⟨hroot, hhost⟩ | ⟨p', hp', hp'parent, kids, hroot, hkids⟩
    · have hhost : host = some p := by rw [← hhost, hparent]
      obtain ⟨hchildren, hholds⟩ := h.replaced_root hroot hhost hparent hr
      refine ⟨fun q hq => ?_, hholds⟩
      obtain rfl : q = p := Option.some.inj (hq.symm.trans hhost)
      exact hchildren
    · obtain rfl : p' = p := Option.some.inj (hp'parent.symm.trans hparent)
      have hchild : a ∈ dom.children p' := by
        rw [hkids]
        exact Filling.mem_rootLabels_forest.2 (.inl hroot)
      exact h.replaced_child ha hp' hparent hchild hr
  exact
    { apart := hapart
      nodup := h.nodup
      holds := hrest.2
      children := hrest.1
      host_lt := fun q hq => Nat.lt_of_lt_of_le (h.host_lt q hq) hr.size_le
      host_not_mem := fun q hq =>
        Filling.not_mem_setRegion ha hnew (h.host_lt q hq) (h.host_not_mem q hq)
      around_lt := fun x hx => Nat.lt_of_lt_of_le (h.around_lt x hx) hr.size_le
      around_not_mem := fun x hx =>
        Filling.not_mem_setRegion ha hnew (h.around_lt x hx) (h.around_not_mem x hx) }

end Replace

/-- The data of a static node changes. -/
theorem setData (h : dom.Shows host before after F ts) {a : NodeId} {data : NodeData}
    (ha : a ∈ forestLabels ts) (hsize : dom.size ≤ dom'.size)
    (hself : dom'.record a = { dom.record a with data })
    (hframe : ∀ n, n.index < dom.size → n ≠ a → dom'.record n = dom.record n) :
    dom'.Shows host before after (F.setData a data) ts := by
  have hroots : rootLabels ((F.setData a data).forest ts) = rootLabels (F.forest ts) :=
    Filling.rootLabels_forest_congr fun x _ => rfl
  have hlabels : ∀ x, x ∈ forestLabels ((F.setData a data).forest ts) ↔
      x ∈ forestLabels (F.forest ts) := by
    intro x
    rw [Filling.mem_forestLabels_forest, Filling.mem_forestLabels_forest]
    rfl
  have hhost : ∀ q, host = some q → q ≠ a := by
    rintro q hq rfl
    exact h.host_not_mem q hq (Filling.mem_forestLabels_forest.2 (.inl ha))
  exact
    { apart := h.apart.setData a data
      nodup := h.nodup
      holds := Filling.holdsAll_setData h.apart ha hsize hself hframe (fun x hx => hx) h.holds
      children := fun q hq => by
        rw [Dom.children, hframe q (h.host_lt q hq) (hhost q hq), hroots]
        exact h.children q hq
      host_lt := fun q hq => Nat.lt_of_lt_of_le (h.host_lt q hq) hsize
      host_not_mem := fun q hq hmem => h.host_not_mem q hq ((hlabels q).1 hmem)
      around_lt := fun x hx => Nat.lt_of_lt_of_le (h.around_lt x hx) hsize
      around_not_mem := fun x hx hmem => h.around_not_mem x hx ((hlabels x).1 hmem) }

/-- A static node has the data that the filling gives it. -/
theorem data_eq (h : dom.Shows host before after F ts) {a : NodeId} (ha : a ∈ forestLabels ts) :
    dom.data a = F.data a :=
  Filling.data_of_mem h.holds ha

/-- Below a host every static node has a parent. -/
theorem exists_parent {p : NodeId} (h : dom.Shows (some p) before after F ts) {a : NodeId}
    (ha : a ∈ forestLabels ts) : ∃ p, dom.parent? a = some p := by
  rcases Filling.root_or_child h.holds ha with ⟨-, hhost⟩ | ⟨q, -, hparent, -⟩
  · exact ⟨p, hhost⟩
  · exact ⟨q, hparent⟩

/-- The parent of a static node, where it has one: the region in front of the node stands below it
as well. -/
theorem region_of_parent (h : dom.Shows host before after F ts) {a p : NodeId}
    (ha : a ∈ forestLabels ts) (hparent : dom.parent? a = some p) :
    p.index < dom.size ∧ p ∉ forestLabels (F.region a) ∧ dom.HoldsAll (some p) (F.region a) := by
  have hregion : dom.HoldsAll (some p) (F.region a) := by
    rw [← hparent]
    exact Filling.holdsAll_region h.holds ha
  rcases Filling.root_or_child h.holds ha with ⟨-, hhost⟩ | ⟨p', hp', hparent', -⟩
  · rw [hparent] at hhost
    have hnot := h.host_not_mem p hhost.symm
    exact ⟨h.host_lt p hhost.symm,
      fun hp => hnot (Filling.mem_forestLabels_forest.2 (.inr ⟨a, ha, hp⟩)), hregion⟩
  · obtain rfl : p' = p := Option.some.inj (hparent'.symm.trans hparent)
    exact ⟨h.index_lt hp', h.apart.region_static a ha p' hp', hregion⟩

/-- The region in front of a static node stands directly in front of it below its parent. -/
theorem exists_children_eq (h : dom.Shows host before after F ts) {a p : NodeId}
    (ha : a ∈ forestLabels ts) (hparent : dom.parent? a = some p) :
    ∃ pre post, dom.children p = pre ++ rootLabels (F.region a) ++ a :: post := by
  rcases Filling.root_or_child h.holds ha with
    ⟨hroot, hhost⟩ | ⟨p', -, hparent', kids, hroot, hkids⟩
  · obtain ⟨us, vs, hroots⟩ := Filling.exists_rootLabels_forest_eq (F := F) hroot
    refine ⟨before ++ rootLabels (F.forest us), rootLabels (F.forest vs) ++ after, ?_⟩
    rw [h.children p (by rw [← hhost, hparent]), hroots]
    simp only [List.append_assoc, List.cons_append]
  · obtain rfl : p' = p := Option.some.inj (hparent'.symm.trans hparent)
    obtain ⟨us, vs, hroots⟩ := Filling.exists_rootLabels_forest_eq (F := F) hroot
    exact ⟨rootLabels (F.forest us), rootLabels (F.forest vs), hkids.trans hroots⟩

/-- No node is shown twice. -/
theorem nodup_forest (h : dom.Shows host before after F ts) :
    (forestLabels (F.forest ts)).Nodup :=
  Filling.nodup_forest h.apart (fun _ hx => hx) h.nodup

end Shows

end Dom

end LiveTemplate
