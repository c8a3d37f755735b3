import LiveTemplate.Proofs.Dom.Operations
import LiveTemplate.Proofs.Morph.Showing

/-!
# LiveTemplate.Proofs.Morph.Updating

What an update does to the places of nodes, wherever the nodes of the morph are.

An update of a morph goes one of two ways.  It changes no place at all, or it takes the
nodes that the morph remembers out of the anchor's parent and puts those there that show the
value (`Put`): new ones, unless the value is a node (`Placed`, `Relinked`).  A remembered
node that stands elsewhere stays where it is.
-/

namespace LiveTemplate

/-! ## updates as operations -/

namespace Dom.Reached

variable {dom : Dom}

theorem removeNodes (h : dom.Reached) (parent : NodeId) (nodes : List NodeId) :
    (Morph.removeNodes dom parent nodes).Reached := by
  induction nodes generalizing dom with
  | nil => exact h
  | cons node nodes ih => exact ih (h.step (.removeChild parent node) trivial)

theorem content (h : dom.Reached) (m : Morph) (value : Value) :
    (m.content value dom).2.Reached := by
  unfold Morph.content
  split
  · exact h
  · exact h
  · exact h
  · by_cases hescaped : m.escaped
    · simp only [hescaped, if_pos]
      exact h.step (.create (.text value.text)) (by rintro _ _ _ ⟨⟩)
    · simp only [hescaped, Bool.false_eq_true, if_false]
      exact h.step (.parseHtml value.text m.context) trivial

/-- An update does nothing that operations could not do. -/
theorem update (h : dom.Reached) (m : Morph) {value : Value}
    (hvalue : ∀ id, value = .node id → id.index < dom.size) : (m.update value dom).2.Reached := by
  have hway := m.way_update value dom
  generalize m.update value dom = result at hway ⊢
  cases hway with
  | idle _ => exact h
  | detached _ _ => exact h
  | reuse _ _ _ => exact h.step (.setText _ _) trivial
  | @replace p _ hanchor _ =>
    have hlt := (h.consistent.linked.index_lt hanchor).1
    have hremoved := h.removeNodes p m.nodes
    obtain ⟨-, hle, hid⟩ := hremoved.consistent.linked.content m
      (by rwa [size_removeNodes] : ∀ id, value = .node id → id.index < _)
    have hcontent := hremoved.content m value
    rw [size_removeNodes] at hle
    rw [Morph.replace]
    split
    · next heq =>
      rw [heq] at hcontent
      exact hcontent
    · next id dom' heq =>
      rw [heq] at hcontent hle hid
      exact hcontent.step (.insertBefore p id (some m.anchor))
        ⟨Nat.lt_of_lt_of_le hlt hle, hid id rfl⟩

end Dom.Reached

namespace Morph

variable {m : Morph} {value : Value} {dom : Dom} {p : NodeId}

/-! ## the ways of an update -/

/-- Where no text is reused the remembered nodes are removed below the anchor's parent, and the
trees of the value are put in front of the anchor. -/
theorem update_of_not_reusable (hlinked : dom.Linked) (hnode : value.isNode = false)
    (hshows : m.shows value = false) (hanchor : dom.parent? m.anchor = some p)
    (hreusable : m.reusable? value dom = none) :
    (m.update value dom).1 = m.showing value (rootLabels (m.newTrees value dom)) ∧
      (removeNodes dom p m.nodes).Replaced (m.update value dom).2 p m.anchor []
        (m.newTrees value dom) := by
  have hreplaced := m.replaced_replace (Dom.Extends.refl _) (.new value hnode)
    (show (removeNodes dom p m.nodes).HoldsAll (some p) [] from trivial)
    (by rw [Dom.size_removeNodes]; exact (hlinked.index_lt hanchor).1) (by simp [forestLabels])
  rw [newTrees_removeNodes, List.nil_append] at hreplaced
  rw [update_eq_replace hshows hanchor hreusable]
  exact hreplaced

/-- Where nodes are replaced, the remembered ones below the anchor's parent are taken out, and no
other one that was there is moved. -/
theorem parent?_update_of_not_reusable (hlinked : dom.Linked) (hnode : value.isNode = false)
    (hshows : m.shows value = false) (hanchor : dom.parent? m.anchor = some p)
    (hreusable : m.reusable? value dom = none) {x : NodeId} (hx : x.index < dom.size) :
    (m.update value dom).2.parent? x =
      if x ∈ m.nodes ∧ dom.parent? x = some p then none else dom.parent? x := by
  have hreplaced := (update_of_not_reusable hlinked hnode hshows hanchor hreusable).2
  have hbase : x.index < (removeNodes dom p m.nodes).size := by rwa [Dom.size_removeNodes]
  rw [(hreplaced.data_parent_of_not_mem hbase (by simp [forestLabels])).2, Dom.parent?_removeNodes]

@[simp] theorem anchor_replace (m : Morph) (value : Value) (p : NodeId) (dom : Dom) :
    (m.replace value p dom).1.anchor = m.anchor := by
  rw [replace]
  split <;> rfl

@[simp] theorem value_replace (m : Morph) (value : Value) (p : NodeId) (dom : Dom) :
    (m.replace value p dom).1.value = some value := by
  rw [replace]
  split <;> rfl

@[simp] theorem anchor_update (m : Morph) (value : Value) (dom : Dom) :
    (m.update value dom).1.anchor = m.anchor := by
  have hway := m.way_update value dom
  generalize m.update value dom = result at hway ⊢
  cases hway with
  | idle _ => rfl
  | detached _ _ => rfl
  | reuse _ _ _ => rfl
  | replace _ _ _ => exact m.anchor_replace ..

/-! ## values of all kinds -/

/-- Making the node that shows a value changes nothing that was there. -/
theorem extends_content (m : Morph) (value : Value) (dom : Dom) :
    dom.Extends (m.content value dom).2 := by
  by_cases hnull : value.isNullish = true
  · rw [content_of_isNullish m hnull]
    exact .refl dom
  by_cases hnode : value.isNode = true
  · cases value <;> simp [Value.isNode] at hnode
    exact .refl dom
  · obtain ⟨t, -, hextends, -, -⟩ :=
      m.content_new (Bool.eq_false_iff.2 hnull) (Bool.eq_false_iff.2 hnode) dom
    exact hextends

/-- What is moved in order to show a value is the value itself, a child of a fragment that is the
value, or new. -/
theorem mem_moved_content (m : Morph) {value : Value} {dom : Dom} {id : NodeId}
    (hid : (m.content value dom).1 = some id) {x : NodeId}
    (hx : x ∈ (m.content value dom).2.moved id) :
    value = .node x ∨
      (∃ f, value = .node f ∧ (dom.data f).isFragment = true ∧ x ∈ dom.children f) ∨
      dom.size ≤ x.index := by
  have hnull : value.isNullish = false := by
    refine Bool.eq_false_iff.2 fun hnull => ?_
    rw [content_of_isNullish m hnull] at hid
    cases hid
  by_cases hnode : value.isNode = true
  · cases value with
    | node own =>
      obtain rfl : own = id := Option.some.inj hid
      by_cases hfragment : (dom.data own).isFragment = true
      · rw [content, Dom.moved, if_pos hfragment] at hx
        exact .inr (.inl ⟨own, rfl, hfragment, hx⟩)
      · rw [content, Dom.moved, if_neg hfragment] at hx
        exact .inl (List.mem_singleton.1 hx ▸ rfl)
    | _ => cases hnode
  · have hnode := Bool.eq_false_iff.2 hnode
    obtain ⟨t, hlabel, -, hloose, hshown⟩ := m.content_new hnull hnode dom
    obtain rfl : t.label = id := Option.some.inj (hlabel.symm.trans hid)
    rw [hloose.moved_eq, hshown] at hx
    exact .inr (.inr ((m.labels_newTrees hnode dom).2 x (mem_forestLabels_of_mem_rootLabels hx)))

/-- Whether a node stays where it is when the remembered ones below `p` are taken out and the
nodes `shown` are put in. -/
def stays (m : Morph) (dom : Dom) (p : NodeId) (shown : List NodeId) (x : NodeId) : Bool :=
  x ∉ shown ∧ ¬(x ∈ m.nodes ∧ dom.parent? x = some p)

/-- Of the children that are left some may be taken out as well. -/
theorem filter_children_removeNodes (m : Morph) (hlinked : dom.Linked) (p q : NodeId)
    (shown : List NodeId) :
    ((removeNodes dom p m.nodes).children q).filter (· ∉ shown) =
      (dom.children q).filter (m.stays dom p shown) := by
  have hparent := fun x => hlinked.mem_children_iff q x
  rw [Dom.children_removeNodes]
  split
  · next hq =>
    subst hq
    rw [List.filter_filter]
    exact List.filter_congr fun x hx => by simp [stays, (hparent x).1 hx]
  · next hq =>
    exact List.filter_congr fun x hx => by simp [stays, (hparent x).1 hx, hq]

/-- What is left of the nodes of a document when the remembered ones below `p` have been taken
out. -/
structure Cleared (m : Morph) (dom : Dom) (p : NodeId) (cleared : Dom) : Prop where
  size_le : dom.size ≤ cleared.size
  data_eq : ∀ x : NodeId, x.index < dom.size → cleared.data x = dom.data x
  parent?_eq : ∀ x : NodeId, x.index < dom.size → cleared.parent? x =
    if x ∈ m.nodes ∧ dom.parent? x = some p then none else dom.parent? x
  children_eq : ∀ (q : NodeId) (shown : List NodeId), q.index < dom.size →
    (cleared.children q).filter (· ∉ shown) = (dom.children q).filter (m.stays dom p shown)

/-- Making what shows a value leaves the nodes alone that were there. -/
theorem cleared_content (m : Morph) (hlinked : dom.Linked) (p : NodeId) (value : Value) :
    m.Cleared dom p (m.content value (removeNodes dom p m.nodes)).2 := by
  have hsize : (removeNodes dom p m.nodes).size = dom.size := Dom.size_removeNodes ..
  have hextends := m.extends_content value (removeNodes dom p m.nodes)
  have hrecord : ∀ x : NodeId, x.index < dom.size →
      (m.content value (removeNodes dom p m.nodes)).2.record x =
        (removeNodes dom p m.nodes).record x := fun x hx => hextends.record_eq x (hsize ▸ hx)
  constructor
  case size_le => exact hsize ▸ hextends.size_le
  case data_eq =>
    intro x hx
    rw [Dom.data, hrecord x hx]
    exact Dom.data_removeNodes ..
  case parent?_eq =>
    intro x hx
    rw [Dom.parent?, hrecord x hx]
    exact Dom.parent?_removeNodes ..
  case children_eq =>
    intro q shown hq
    rw [Dom.children, hrecord q hq]
    exact m.filter_children_removeNodes hlinked ..

/-- What an update that replaces nodes below `p` makes of the links: remembered nodes below `p` are
taken out, and those that are shown are put in front of the anchor, wherever they were. -/
structure Put (m : Morph) (value : Value) (dom : Dom) (p : NodeId) (m' : Morph) (dom' : Dom) :
    Prop where
  size_le : dom.size ≤ dom'.size
  index_lt : ∀ x ∈ m'.nodes, x.index < dom'.size
  /-- A node that is shown is the value, a child of the fragment that is the value, or new. -/
  source : ∀ x ∈ m'.nodes, value = .node x ∨
    (∃ f, value = .node f ∧ (dom.data f).isFragment = true ∧ dom.parent? x = some f) ∨
    dom.size ≤ x.index
  data_eq : ∀ x : NodeId, x.index < dom.size → dom'.data x = dom.data x
  parent?_of_mem : ∀ x ∈ m'.nodes, dom'.parent? x = some p
  parent?_of_not_mem : ∀ x : NodeId, x.index < dom.size → x ∉ m'.nodes → dom'.parent? x =
    if x ∈ m.nodes ∧ dom.parent? x = some p then none else dom.parent? x
  children_eq : ∀ q : NodeId, q.index < dom.size → dom'.children q =
    let rest := (dom.children q).filter (m.stays dom p m'.nodes)
    if q = p then Dom.insertAmong rest m'.nodes (some m.anchor) else rest

/-- A replacement puts there what shows the value. -/
theorem put_replace (m : Morph) (hlinked : dom.Linked) (hp : p.index < dom.size)
    (hvalue : ∀ id, value = .node id → id.index < dom.size) :
    m.Put value dom p (m.replace value p dom).1 (m.replace value p dom).2 := by
  have hsize : (removeNodes dom p m.nodes).size = dom.size := Dom.size_removeNodes ..
  have hremoved := hlinked.removeNodes p m.nodes
  have hcleared := m.cleared_content hlinked p value
  obtain ⟨hlinked', -, hid⟩ := hremoved.content m
    fun id (h : value = .node id) => hsize.symm ▸ hvalue id h
  -- What is inserted is the value, a child of the fragment that is the value, or new.  Nodes are
  -- taken away first, which makes none a child of the fragment.
  have hsource : ∀ id, (m.content value (removeNodes dom p m.nodes)).1 = some id →
      ∀ x ∈ (m.content value (removeNodes dom p m.nodes)).2.moved id, value = .node x ∨
        (∃ f, value = .node f ∧ (dom.data f).isFragment = true ∧ dom.parent? x = some f) ∨
        dom.size ≤ x.index := fun id h x hx => by
    rcases m.mem_moved_content h hx with hnode | ⟨f, hnode, hfragment, hchild⟩ | hfresh
    · exact .inl hnode
    · rw [Dom.data_removeNodes] at hfragment
      rw [hremoved.mem_children_iff, Dom.parent?_removeNodes] at hchild
      split at hchild
      · cases hchild
      · exact .inr (.inl ⟨f, hnode, hfragment, hchild⟩)
    · exact .inr (.inr (hsize ▸ hfresh))
  rw [replace]
  split
  · next cleared heq =>
    rw [heq] at hcleared
    refine ⟨hcleared.size_le, by simp [showing], by simp [showing], hcleared.data_eq,
      by simp [showing], fun x hx _ => hcleared.parent?_eq x hx, fun q hq => ?_⟩
    have hkept := hcleared.children_eq q [] hq
    rw [List.filter_eq_self.2 (by simp)] at hkept
    simp only [showing, Dom.insertAmong_nil, ite_self]
    exact hkept
  · next id cleared heq =>
    rw [heq] at hcleared hlinked' hid hsource
    have hlt := hid id rfl
    have hplt := Nat.lt_of_lt_of_le hp hcleared.size_le
    constructor
    case size_le =>
      rw [Dom.size_insertBefore]
      exact hcleared.size_le
    case index_lt =>
      intro x hx
      rw [Dom.size_insertBefore]
      exact hlinked'.moved_lt hlt x hx
    case source => exact hsource id rfl
    case data_eq =>
      intro x hx
      rw [Dom.data_insertBefore, hcleared.data_eq x hx]
    case parent?_of_mem =>
      intro x hx
      exact (hlinked'.parent?_insertBefore hlt ..).trans (if_pos hx)
    case parent?_of_not_mem =>
      intro x hx hnot
      exact (hlinked'.parent?_insertBefore hlt ..).trans
        ((if_neg hnot).trans (hcleared.parent?_eq x hx))
    case children_eq =>
      intro q hq
      rw [hlinked'.children_insertBefore hplt, hcleared.children_eq q _ hq]
      rfl

/-- A node that is no fragment is all that is shown in place of what was there. -/
theorem nodes_replace_node {n : NodeId} (hfragment : (dom.data n).isFragment = false)
    (m : Morph) (p : NodeId) : (m.replace (.node n) p dom).1.nodes = [n] := by
  simp [replace, content, showing, inserted, hfragment]

/-- What an update with a value that is no fragment puts there: new nodes, unless the value is a
node. -/
structure Placed (m : Morph) (value : Value) (dom : Dom) (p : NodeId) (m' : Morph) (dom' : Dom) :
    Prop extends m.Put value dom p m' dom' where
  new : ∀ x ∈ m'.nodes, value = .node x ∨ dom.size ≤ x.index

/-- A replacement places what shows the value. -/
theorem placed_replace (m : Morph) (hlinked : dom.Linked) (hp : p.index < dom.size)
    (hvalue : ∀ id, value = .node id → id.index < dom.size ∧ (dom.data id).isFragment = false) :
    m.Placed value dom p (m.replace value p dom).1 (m.replace value p dom).2 where
  toPut := m.put_replace hlinked hp fun id hid => (hvalue id hid).1
  new x hx := by
    rcases (m.put_replace hlinked hp fun id hid => (hvalue id hid).1).source x hx with
      hnode | ⟨f, hnode, hfragment, -⟩ | hfresh
    · exact .inl hnode
    · rw [(hvalue f hnode).2] at hfragment
      cases hfragment
    · exact .inr hfresh

/-- An update that cannot reuse a text places what shows the value. -/
theorem placed_update (hlinked : dom.Linked) (hshows : m.shows value = false)
    (hanchor : dom.parent? m.anchor = some p) (hreusable : m.reusable? value dom = none)
    (hvalue : ∀ id, value = .node id → id.index < dom.size ∧ (dom.data id).isFragment = false) :
    m.Placed value dom p (m.update value dom).1 (m.update value dom).2 := by
  rw [update_eq_replace hshows hanchor hreusable]
  exact m.placed_replace hlinked (hlinked.index_lt hanchor).1 hvalue

/-! ## places -/

/-- What an update makes of the places of nodes. -/
inductive Relinked (m : Morph) (dom : Dom) (m' : Morph) (dom' : Dom) : Prop where
  /-- No node gets another place. -/
  | kept (nodes : m'.nodes = m.nodes) (size : dom'.size = dom.size)
    (parent?_eq : ∀ x, dom'.parent? x = dom.parent? x)
  /-- Remembered nodes that stand below the anchor's parent are taken out, and new ones put in. -/
  | replaced (p : NodeId) (anchor : dom.parent? m.anchor = some p) (size_le : dom.size ≤ dom'.size)
    (new : ∀ x ∈ m'.nodes, dom.size ≤ x.index ∧ x.index < dom'.size ∧ dom'.parent? x = some p)
    (parent?_eq : ∀ x : NodeId, x.index < dom.size →
      dom'.parent? x = if x ∈ m.nodes ∧ dom.parent? x = some p then none else dom.parent? x)

/-- An update with a value that is no node goes one of the two ways. -/
theorem relinked_update (hlinked : dom.Linked) (m : Morph) (hnode : value.isNode = false) :
    m.Relinked dom (m.update value dom).1 (m.update value dom).2 := by
  have hway := m.way_update value dom
  generalize hresult : m.update value dom = result at hway ⊢
  cases hway with
  | idle _ => exact .kept rfl rfl fun _ => rfl
  | detached _ _ => exact .kept rfl rfl fun _ => rfl
  | reuse _ _ _ => exact .kept rfl (Dom.size_setText ..) fun x => Dom.parent?_setText ..
  | @replace p hshows hanchor hreusable =>
    obtain ⟨hmorph, hreplaced⟩ := update_of_not_reusable hlinked hnode hshows hanchor hreusable
    have hsize := hreplaced.size_le
    rw [Dom.size_removeNodes] at hsize
    rw [← hresult]
    refine .replaced p hanchor hsize (fun x hx => ?_) fun x hx => ?_
    · rw [hmorph] at hx
      have hlabel := mem_forestLabels_of_mem_rootLabels hx
      exact ⟨(m.labels_newTrees hnode dom).2 x hlabel, hreplaced.holds.index_lt _ x hlabel,
        hreplaced.holds.parent?_eq hx⟩
    · exact parent?_update_of_not_reusable hlinked hnode hshows hanchor hreusable hx

namespace Relinked

variable {m' : Morph} {dom' : Dom} {x : NodeId}

theorem size_le (h : m.Relinked dom m' dom') : dom.size ≤ dom'.size := by
  cases h with
  | kept nodes size parent?_eq => exact Nat.le_of_eq size.symm
  | replaced p anchor size_le new parent?_eq => exact size_le

/-- The nodes that a morph remembers after an update are those of before or new ones. -/
theorem mem_or_fresh (h : m.Relinked dom m' dom') (hx : x ∈ m'.nodes) :
    x ∈ m.nodes ∨ dom.size ≤ x.index ∧ x.index < dom'.size := by
  cases h with
  | kept nodes size parent?_eq => exact .inl (nodes ▸ hx)
  | replaced p anchor size_le new parent?_eq => exact .inr ⟨(new x hx).1, (new x hx).2.1⟩

/-- A node that is not remembered keeps its parent. -/
theorem parent?_of_not_mem (h : m.Relinked dom m' dom') (hx : x.index < dom.size)
    (hnodes : x ∉ m.nodes) : dom'.parent? x = dom.parent? x := by
  cases h with
  | kept nodes size parent?_eq => exact parent?_eq x
  | replaced p anchor size_le new parent?_eq => rw [parent?_eq x hx, if_neg fun h => hnodes h.1]

/-- No node that was there gets a new parent. -/
theorem parent?_eq_some (h : m.Relinked dom m' dom') (hx : x.index < dom.size) {q : NodeId}
    (hparent : dom'.parent? x = some q) : dom.parent? x = some q := by
  cases h with
  | kept nodes size parent?_eq => rwa [parent?_eq] at hparent
  | replaced p anchor size_le new parent?_eq =>
    rw [parent?_eq x hx] at hparent
    split at hparent
    · cases hparent
    · exact hparent

/-- A remembered node that still stands below the anchor's parent is remembered. -/
theorem mem_of_parent? (h : m.Relinked dom m' dom') (hx : x.index < dom.size) (hmem : x ∈ m.nodes)
    {p : NodeId} (hanchor : ∀ q, dom.parent? m.anchor = some q → q = p)
    (hparent : dom'.parent? x = some p) : x ∈ m'.nodes := by
  cases h with
  | kept nodes size parent?_eq => rwa [nodes]
  | replaced q anchor size_le new parent?_eq =>
    obtain rfl := hanchor q anchor
    rw [parent?_eq x hx] at hparent
    split at hparent
    · cases hparent
    · next hnot => exact absurd ⟨hmem, hparent⟩ hnot

end Relinked

end Morph

end LiveTemplate
