import LiveTemplate.Morph
import LiveTemplate.Proofs.Dom.Planting

/-!
# LiveTemplate.Proofs.Dom.Replacing

Replacing the trees that stand in front of a node.

`Extends` says that a document has got new nodes and is otherwise unchanged;
`Replaced` that the trees directly in front of a node `a`, below its parent `p`, have
given way to others, while no other node that was there has changed but `p`, and `p`
in this stretch of its children only.  Removing the trees, inserting new ones and
changing a text in place are replacements, and replacements compose.
-/

namespace LiveTemplate

/-- The trees that inserting a tree shows: the children of a fragment, or the tree itself. -/
def Tree.shown {α : Type} (t : Tree α) : List (Tree α) :=
  if t.data.isFragment then t.children else [t]

/-- A tree is written as what it shows. -/
theorem forestHtml_shown {α : Type} (t : Tree α) : forestHtml t.shown = t.html := by
  obtain ⟨l, data, kids⟩ := t
  rw [Tree.shown]
  split
  · next hfragment =>
    cases data with
    | fragment => rfl
    | element | text | comment => cases hfragment
  · rw [forestHtml, forestHtml, List.append_nil]

theorem forestLabels_shown_sublist {α : Type} (t : Tree α) :
    (forestLabels t.shown).Sublist t.labels := by
  obtain ⟨id, data, kids⟩ := t
  rw [Tree.shown]
  split
  · exact List.sublist_cons_self id (forestLabels kids)
  · simp [forestLabels]

/-- A fragment does not show itself. -/
theorem label_not_mem_shown {α : Type} {t : Tree α} (hnodup : t.labels.Nodup)
    (hfragment : t.data.isFragment) : t.label ∉ forestLabels t.shown := by
  obtain ⟨id, data, kids⟩ := t
  rw [Tree.shown, if_pos hfragment]
  exact (List.nodup_cons.1 hnodup).1

/-- Where no label occurs twice, what is below a root is no root. -/
theorem not_mem_rootLabels_of_mem_children {α : Type} {ts : List (Tree α)}
    (hnodup : (forestLabels ts).Nodup) {t : Tree α} (ht : t ∈ ts) {x : α}
    (hx : x ∈ forestLabels t.children) : x ∈ forestLabels ts ∧ x ∉ rootLabels ts := by
  obtain ⟨us, vs, rfl⟩ := List.append_of_mem ht
  obtain ⟨id, data, kids⟩ := t
  have husroots := fun h => @mem_forestLabels_of_mem_rootLabels _ x us h
  have hvsroots := fun h => @mem_forestLabels_of_mem_rootLabels _ x vs h
  simp only [Tree.children, forestLabels_append, forestLabels, Tree.labels, rootLabels_append,
    rootLabels_cons, Tree.label, List.cons_append, List.nodup_append, List.nodup_cons,
    List.mem_append, List.mem_cons] at *
  grind

namespace Dom

/-! ## new nodes -/

/-- A document with more nodes: those that were there have not changed. -/
structure Extends (dom dom' : Dom) : Prop where
  size_le : dom.size ≤ dom'.size
  record_eq : ∀ n, n.index < dom.size → dom'.record n = dom.record n

namespace Extends

theorem refl (dom : Dom) : dom.Extends dom := ⟨Nat.le_refl _, fun _ _ => rfl⟩

theorem trans {dom₁ dom₂ dom₃ : Dom} (h₁ : dom₁.Extends dom₂) (h₂ : dom₂.Extends dom₃) :
    dom₁.Extends dom₃ := by
  have hle := h₁.size_le
  refine ⟨Nat.le_trans hle h₂.size_le, fun n hn => ?_⟩
  rw [h₂.record_eq n (by omega), h₁.record_eq n hn]

theorem holds {dom dom' : Dom} (h : dom.Extends dom') {q : Option NodeId} {t : Tree NodeId}
    (ht : dom.Holds q t) : dom'.Holds q t :=
  Holds.congr h.size_le t (fun x hx => h.record_eq x (ht.index_lt t x hx)) ht

theorem holdsAll {dom dom' : Dom} (h : dom.Extends dom') {q : Option NodeId}
    {ts : List (Tree NodeId)} (hts : dom.HoldsAll q ts) : dom'.HoldsAll q ts :=
  HoldsAll.congr h.size_le ts (fun x hx => h.record_eq x (hts.index_lt ts x hx)) hts

end Extends

/-- A tree without a place, of nodes that are not in `base`. -/
structure Loose (base dom : Dom) (t : Tree NodeId) : Prop where
  holds : dom.Holds none t
  nodup : t.labels.Nodup
  fresh : ∀ x ∈ t.labels, base.size ≤ x.index

theorem Loose.extend {base dom dom' : Dom} {t : Tree NodeId} (h : base.Loose dom t)
    (hext : dom.Extends dom') : base.Loose dom' t :=
  ⟨hext.holds h.holds, h.nodup, h.fresh⟩

/-- A new node is a loose tree. -/
theorem loose_create (dom : Dom) (data : NodeData) :
    dom.Extends (dom.create data).2 ∧ dom.Loose (dom.create data).2 (.node ⟨dom.size⟩ data []) := by
  refine ⟨⟨?_, fun n hn => record_create_of_lt data hn⟩, ⟨⟨?_, ?_, trivial⟩, ?_, ?_⟩⟩
  · rw [size_create]
    exact Nat.le_succ _
  · rw [size_create]
    exact Nat.lt_succ_self _
  · exact record_create_new dom data
  · simp [Tree.labels, forestLabels]
  · simp [Tree.labels, forestLabels]

/-- A planted fragment is a loose tree. -/
theorem loose_plantFragment (dom : Dom) {ts : List Markup} (hplantable : PlantableAll ts) :
    dom.Extends (dom.plantFragment ts).2 ∧
      dom.Loose (dom.plantFragment ts).2
        (.node (dom.plantFragment ts).1 .fragment (numberForest (dom.size + 1) ts)) := by
  have hplanted := dom.planted_plantFragment hplantable
  have hid := hplanted.id_eq
  refine ⟨⟨by have := hplanted.size; omega, hplanted.frame⟩, hplanted.holds, ?_, ?_⟩
  · rw [Tree.labels, List.nodup_cons]
    refine ⟨fun hmem => ?_, nodup_forestLabels_numberForest ..⟩
    have := (mem_forestLabels_numberForest.1 hmem).1
    rw [hid] at this
    exact absurd this (Nat.not_succ_le_self _)
  · intro x hx
    rw [Tree.labels, List.mem_cons] at hx
    rcases hx with rfl | hx
    · exact Nat.le_of_eq (congrArg NodeId.index hid).symm
    · have := (mem_forestLabels_numberForest.1 hx).1
      omega

/-! ## replacements -/

/-- The trees `old` in front of `a`, a child of `p`, have given way to `new`; among the nodes that
were there only `p` and those of `old` have changed. -/
structure Replaced (dom dom' : Dom) (p a : NodeId) (old new : List (Tree NodeId)) : Prop where
  size_le : dom.size ≤ dom'.size
  holds : dom'.HoldsAll (some p) new
  data_parent : dom'.data p = dom.data p
  parent_parent : dom'.parent? p = dom.parent? p
  record_parent : ∀ pre post, dom.children p = pre ++ rootLabels old ++ a :: post →
    a ∉ pre ++ rootLabels old → (∀ x ∈ pre ++ post, x ∉ rootLabels old) →
      dom'.record p = { dom.record p with children := pre ++ rootLabels new ++ a :: post }
  frame : ∀ n, n.index < dom.size → n ≠ p → n ∉ forestLabels old → dom'.record n = dom.record n

/-- Outside the trees that are replaced no node gets other data or another parent. -/
theorem Replaced.data_parent_of_not_mem {dom dom' : Dom} {p a : NodeId}
    {old new : List (Tree NodeId)} (h : dom.Replaced dom' p a old new) {n : NodeId}
    (hn : n.index < dom.size) (hnold : n ∉ forestLabels old) :
    dom'.data n = dom.data n ∧ dom'.parent? n = dom.parent? n := by
  by_cases hnp : n = p
  · subst hnp
    exact ⟨h.data_parent, h.parent_parent⟩
  · have hframe := h.frame n hn hnp hnold
    rw [data, parent?, hframe]
    exact ⟨rfl, rfl⟩

/-- New nodes replace nothing. -/
theorem Extends.replaced {dom dom' : Dom} (h : dom.Extends dom') {p : NodeId} (a : NodeId)
    {old : List (Tree NodeId)} (hold : dom.HoldsAll (some p) old) (hp : p.index < dom.size) :
    dom.Replaced dom' p a old old where
  size_le := h.size_le
  holds := h.holdsAll hold
  data_parent := by rw [data, h.record_eq p hp]; rfl
  parent_parent := by rw [parent?, h.record_eq p hp]; rfl
  record_parent pre post hchildren _ _ := by
    rw [h.record_eq p hp, ← hchildren]
    rfl
  frame n hn _ _ := h.record_eq n hn

/-- Old trees are removed first, then new ones take their place. -/
theorem Replaced.trans {dom₁ dom₂ dom₃ : Dom} {p a : NodeId} {old new : List (Tree NodeId)}
    (h₁ : dom₁.Replaced dom₂ p a old []) (h₂ : dom₂.Replaced dom₃ p a [] new) :
    dom₁.Replaced dom₃ p a old new where
  size_le := Nat.le_trans h₁.size_le h₂.size_le
  holds := h₂.holds
  data_parent := h₂.data_parent.trans h₁.data_parent
  parent_parent := h₂.parent_parent.trans h₁.parent_parent
  record_parent pre post hchildren ha hother := by
    have hfirst := h₁.record_parent pre post hchildren ha hother
    have ha' : a ∉ pre ++ rootLabels ([] : List (Tree NodeId)) := by
      intro hmem
      exact ha (List.mem_append_left _ (by simpa using hmem))
    rw [h₂.record_parent pre post (children_of_record hfirst) ha' (by simp), hfirst]
  frame n hn hnp hnold := by
    have hle := h₁.size_le
    rw [h₂.frame n (by omega) hnp (by simp [forestLabels]), h₁.frame n hn hnp hnold]

/-! ## removing -/

section RemoveNodes

variable (dom : Dom) (p : NodeId) (nodes : List NodeId)

@[simp] theorem size_removeNodes : (Morph.removeNodes dom p nodes).size = dom.size := by
  induction nodes generalizing dom with
  | nil => rfl
  | cons node nodes ih => exact (ih _).trans (size_removeChild ..)

@[simp] theorem data_removeNodes (n : NodeId) :
    (Morph.removeNodes dom p nodes).data n = dom.data n := by
  induction nodes generalizing dom with
  | nil => rfl
  | cons node nodes ih => exact (ih _).trans (data_removeChild ..)

theorem children_removeNodes (n : NodeId) :
    (Morph.removeNodes dom p nodes).children n =
      if n = p then (dom.children n).filter (· ∉ nodes) else dom.children n := by
  induction nodes generalizing dom with
  | nil =>
    have hall : (dom.children n).filter (· ∉ ([] : List NodeId)) = dom.children n :=
      List.filter_eq_self.2 (by simp)
    rw [hall, ite_self]
    rfl
  | cons node nodes ih =>
    have hstep : Morph.removeNodes dom p (node :: nodes) =
        Morph.removeNodes (dom.removeChild p node) p nodes := rfl
    rw [hstep, ih, children_removeChild]
    by_cases hn : n = p
    · rw [if_pos hn, if_pos hn, if_pos hn, List.filter_filter]
      refine List.filter_congr fun x _ => ?_
      by_cases hx : x = node <;> simp [hx]
    · simp [hn]

theorem parent?_removeNodes (n : NodeId) :
    (Morph.removeNodes dom p nodes).parent? n =
      if n ∈ nodes ∧ dom.parent? n = some p then none else dom.parent? n := by
  induction nodes generalizing dom with
  | nil => simp [Morph.removeNodes]
  | cons node nodes ih =>
    have hstep : Morph.removeNodes dom p (node :: nodes) =
        Morph.removeNodes (dom.removeChild p node) p nodes := rfl
    rw [hstep, ih, parent?_removeChild]
    by_cases hn : n = node
    · subst hn
      by_cases hp : dom.parent? n = some p <;> simp [hp]
    · simp [hn]

end RemoveNodes

/-- Removing trees replaces them by none. -/
theorem replaced_removeNodes (dom : Dom) {p : NodeId} (a : NodeId) {old : List (Tree NodeId)}
    (hp : p ∉ forestLabels old) :
    dom.Replaced (Morph.removeNodes dom p (rootLabels old)) p a old [] where
  size_le := Nat.le_of_eq (size_removeNodes ..).symm
  holds := trivial
  data_parent := data_removeNodes ..
  parent_parent := by
    have hproot : p ∉ rootLabels old := fun h => hp (mem_forestLabels_of_mem_rootLabels h)
    rw [parent?_removeNodes, if_neg (fun h => hproot h.1)]
  record_parent pre post hchildren ha hother := by
    have hproot : p ∉ rootLabels old := fun h => hp (mem_forestLabels_of_mem_rootLabels h)
    have hfilter : (dom.children p).filter (· ∉ rootLabels old) = pre ++ a :: post := by
      rw [hchildren, List.filter_append, List.filter_append, List.filter_cons]
      have hpre : pre.filter (· ∉ rootLabels old) = pre :=
        List.filter_eq_self.2 fun x hx => by simpa using hother x (List.mem_append_left _ hx)
      have hpost : post.filter (· ∉ rootLabels old) = post :=
        List.filter_eq_self.2 fun x hx => by simpa using hother x (List.mem_append_right _ hx)
      have hroots : (rootLabels old).filter (· ∉ rootLabels old) = [] :=
        List.filter_eq_nil_iff.2 fun x hx => by simpa using hx
      have haroot : a ∉ rootLabels old := fun h => ha (List.mem_append_right _ h)
      rw [hpre, hpost, hroots, if_pos (by simpa using haroot), List.append_nil]
    rw [record_eq, data_removeNodes, parent?_removeNodes, children_removeNodes, hfilter]
    simp [hproot, record_eq]
  frame n hn hnp hnold := by
    have hnroot : n ∉ rootLabels old := fun h => hnold (mem_forestLabels_of_mem_rootLabels h)
    rw [record_eq, data_removeNodes, parent?_removeNodes, children_removeNodes, record_eq]
    simp [hnp, hnroot]

/-! ## inserting -/

/-- Trees whose roots have got another parent. -/
theorem HoldsAll.reparent {dom dom' : Dom} {q q' : Option NodeId} (hsize : dom.size ≤ dom'.size)
    {ts : List (Tree NodeId)} (h : dom.HoldsAll q ts) (hnodup : (forestLabels ts).Nodup)
    (hrecord : ∀ x ∈ forestLabels ts, dom'.record x =
      if x ∈ rootLabels ts then { dom.record x with parent := q' } else dom.record x) :
    dom'.HoldsAll q' ts := by
  rw [holdsAll_iff] at h ⊢
  intro t ht
  obtain ⟨id, data, kids⟩ := t
  obtain ⟨hlt, hself, hkids⟩ := h _ ht
  have hid : id ∈ rootLabels ts := List.mem_map.2 ⟨_, ht, rfl⟩
  have hbelow : ∀ x ∈ forestLabels kids, x ∈ forestLabels ts ∧ x ∉ rootLabels ts :=
    fun x hx => not_mem_rootLabels_of_mem_children hnodup ht hx
  refine ⟨Nat.lt_of_lt_of_le hlt hsize, ?_, HoldsAll.congr hsize kids (fun x hx => ?_) hkids⟩
  · rw [hrecord id (mem_forestLabels_of_mem_rootLabels hid), if_pos hid, hself]
  · rw [hrecord x (hbelow x hx).1, if_neg (hbelow x hx).2]

section Insert

variable {base dom : Dom} {t : Tree NodeId} {p : NodeId}

theorem Loose.parent?_label (h : base.Loose dom t) : dom.parent? t.label = none := by
  rw [Dom.parent?, h.holds.record_label]

theorem Loose.ne_label (h : base.Loose dom t) (hp : p.index < base.size) : p ≠ t.label := by
  rintro rfl
  exact absurd hp (Nat.not_lt.2 (h.fresh _ t.label_mem_labels))

/-- A fragment gives its children away. -/
theorem Loose.moved_eq (h : base.Loose dom t) : dom.moved t.label = rootLabels t.shown := by
  rw [moved, data_of_record h.holds.record_label, children_of_record h.holds.record_label,
    Tree.shown]
  split <;> rfl

/-- Inserting a tree without a place changes the children of its new parent only. -/
theorem Loose.record_insertBefore (h : base.Loose dom t) (hsize : base.size ≤ dom.size)
    (hp : p.index < base.size) (reference : Option NodeId) {n : NodeId} (hn : n.index < base.size) :
    (dom.insertBefore p t.label reference).record n =
      if n = p then
        { dom.record n with
          children := insertAmong (dom.children n) (rootLabels t.shown) reference }
      else dom.record n := by
  have hnlabel := h.ne_label hn
  have hroots : n ∉ rootLabels t.shown := by
    intro hmem
    have hlabels := (forestLabels_shown_sublist t).subset (mem_forestLabels_of_mem_rootLabels hmem)
    exact absurd hn (Nat.not_lt.2 (h.fresh n hlabels))
  rw [Dom.record_eq, data_insertBefore, parent?_insertBefore _ h.parent?_label,
    children_insertBefore _ h.parent?_label (h.ne_label hp), h.moved_eq,
    if_neg (fun h => hroots h.1)]
  by_cases hnp : n = p
  · subst hnp
    rw [if_pos ⟨rfl, Nat.lt_of_lt_of_le hn hsize⟩, if_pos rfl]
    rfl
  · rw [if_neg (fun h => hnp h.1), if_neg (fun h => hnlabel h.1), if_neg hnp]
    rfl

/-- The trees that are inserted are held below their new parent. -/
theorem Loose.holdsAll_insertBefore (h : base.Loose dom t) (hp : p.index < base.size)
    (reference : Option NodeId) :
    (dom.insertBefore p t.label reference).HoldsAll (some p) t.shown := by
  have hfree := h.parent?_label
  have hshown : ∃ q, dom.HoldsAll q t.shown := by
    rw [Tree.shown]
    split
    · exact ⟨_, h.holds.children⟩
    · exact ⟨_, h.holds, trivial⟩
  obtain ⟨q, hshown⟩ := hshown
  have hsublist := forestLabels_shown_sublist t
  refine HoldsAll.reparent (Nat.le_of_eq (size_insertBefore ..).symm) hshown
    (hsublist.nodup h.nodup) fun x hx => ?_
  have hxp : x ≠ p := by
    rintro rfl
    exact absurd hp (Nat.not_lt.2 (h.fresh x (hsublist.subset hx)))
  have hxlabel : ¬(x = t.label ∧ (dom.data t.label).isFragment) := by
    rintro ⟨rfl, hfragment⟩
    rw [data_of_record h.holds.record_label] at hfragment
    exact label_not_mem_shown h.nodup hfragment hx
  have hkids : (dom.insertBefore p t.label reference).children x = dom.children x := by
    rw [children_insertBefore _ hfree (h.ne_label hp), if_neg (fun h => hxp h.1), if_neg hxlabel]
  rw [Dom.record_eq, data_insertBefore, parent?_insertBefore _ hfree, hkids, h.moved_eq]
  by_cases hxroot : x ∈ rootLabels t.shown
  · rw [if_pos ⟨hxroot, hshown.index_lt _ x hx⟩, if_pos hxroot]
    rfl
  · rw [if_neg (fun h => hxroot h.1), if_neg hxroot]
    rfl

/-- Inserting a tree without a place in front of `a`: a fragment shows its children, and any other
tree itself. -/
theorem replaced_insertBefore (hext : base.Extends dom) (hloose : base.Loose dom t) (a : NodeId)
    {old : List (Tree NodeId)} (hold : base.HoldsAll (some p) old) (hp : p.index < base.size)
    (hpold : p ∉ forestLabels old) :
    base.Replaced (dom.insertBefore p t.label (some a)) p a old (old ++ t.shown) := by
  have hrecord := fun n hn => hloose.record_insertBefore hext.size_le hp (some a) (n := n) hn
  have hframe : ∀ n : NodeId, n.index < base.size → n ≠ p →
      (dom.insertBefore p t.label (some a)).record n = base.record n := by
    intro n hn hnp
    rw [hrecord n hn, if_neg hnp, hext.record_eq n hn]
  have hself := hrecord p hp
  rw [if_pos rfl, hext.record_eq p hp] at hself
  have hsize : base.size ≤ (dom.insertBefore p t.label (some a)).size := by
    rw [size_insertBefore]
    exact hext.size_le
  constructor
  case size_le => exact hsize
  case holds =>
    refine holdsAll_append.2 ⟨?_, hloose.holdsAll_insertBefore hp (some a)⟩
    refine HoldsAll.congr hsize old (fun x hx => hframe x (hold.index_lt old x hx) ?_) hold
    rintro rfl
    exact hpold hx
  case data_parent =>
    rw [data_of_record hself]
    rfl
  case parent_parent =>
    rw [parent?, hself]
    rfl
  case frame => exact fun n hn hnp _ => hframe n hn hnp
  case record_parent =>
    intro pre post hchildren ha _
    have hkids : dom.children p = base.children p := by
      rw [Dom.children, hext.record_eq p hp]
      rfl
    rw [hself, hkids, hchildren, insertAmong_append_cons ha, rootLabels_append,
      List.append_assoc pre]

/-- A tree without a place becomes the content of a new node without children. -/
theorem loose_appendChild {dom₀ : Dom} {e : NodeId} {data : NodeData}
    (hbase : base.size ≤ dom₀.size) (he : base.Loose dom₀ (.node e data []))
    (hext : dom₀.Extends dom) (ht : dom₀.Loose dom t) :
    base.Loose (dom.appendChild e t.label) (.node e data t.shown) ∧
      ∀ n : NodeId, n.index < base.size → (dom.appendChild e t.label).record n = dom.record n := by
  have helt : e.index < dom₀.size := he.holds.1
  have heold : base.size ≤ e.index := he.fresh e List.mem_cons_self
  have hrecord := fun n hn => ht.record_insertBefore hext.size_le helt none (n := n) hn
  have hfresh : ∀ x ∈ forestLabels t.shown, dom₀.size ≤ x.index :=
    fun x hx => ht.fresh x ((forestLabels_shown_sublist t).subset hx)
  refine ⟨⟨⟨?_, ?_, ht.holdsAll_insertBefore helt none⟩, ?_, ?_⟩, fun n hn => ?_⟩
  · rw [appendChild, size_insertBefore]
    exact Nat.lt_of_lt_of_le helt hext.size_le
  · have hself : dom.record e = _ := (hext.record_eq e helt).trans he.holds.2.1
    rw [appendChild, hrecord e helt, if_pos rfl, children_of_record hself, hself]
    rfl
  · refine List.nodup_cons.2 ⟨fun hmem => ?_, (forestLabels_shown_sublist t).nodup ht.nodup⟩
    exact absurd helt (Nat.not_lt.2 (hfresh e hmem))
  · intro x hx
    rcases List.mem_cons.1 hx with rfl | hx
    · exact heold
    · exact Nat.le_trans hbase (hfresh x hx)
  · have hne : n ≠ e := by
      rintro rfl
      omega
    rw [appendChild, hrecord n (by omega), if_neg hne]

end Insert

/-! ## changing a text -/

/-- Changing a text in place replaces it. -/
theorem replaced_setText {dom : Dom} {p a id : NodeId} {s : String} {kids : List (Tree NodeId)}
    (hold : dom.HoldsAll (some p) [.node id (.text s) kids])
    (hnodup : (forestLabels [.node id (.text s) kids]).Nodup) (hp : p ≠ id) (s' : String) :
    dom.Replaced (dom.setText id s') p a [.node id (.text s) kids]
      [.node id (.text s') kids] := by
  obtain ⟨⟨hlt, hrecord, hkids⟩, -⟩ := hold
  simp only [forestLabels, Tree.labels, List.append_nil, List.nodup_cons] at hnodup
  have hframe : ∀ n, n ≠ id → (dom.setText id s').record n = dom.record n := by
    intro n hn
    rw [setText, record_modify, if_neg (fun h => hn h.1)]
  have hsize : (dom.setText id s').size = dom.size := size_modify ..
  constructor
  case size_le => exact Nat.le_of_eq hsize.symm
  case holds =>
    refine ⟨⟨by rw [hsize]; exact hlt, ?_, ?_⟩, trivial⟩
    · rw [setText, record_modify, if_pos ⟨rfl, hlt⟩, hrecord]
      rfl
    · refine HoldsAll.congr (Nat.le_of_eq hsize.symm) kids (fun x hx => hframe x ?_) hkids
      rintro rfl
      exact hnodup.1 hx
  case data_parent =>
    rw [data, hframe p hp]
    rfl
  case parent_parent =>
    rw [parent?, hframe p hp]
    rfl
  case record_parent =>
    intro pre post hchildren _ _
    rw [hframe p hp]
    have heq : pre ++ rootLabels [.node id (.text s') kids] ++ a :: post = dom.children p := by
      rw [hchildren]
      rfl
    rw [heq]
    rfl
  case frame =>
    intro n _ _ hn
    refine hframe n ?_
    rintro rfl
    exact hn (by simp [forestLabels, Tree.labels])

end Dom

end LiveTemplate
