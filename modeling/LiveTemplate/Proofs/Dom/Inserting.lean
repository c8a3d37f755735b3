import LiveTemplate.Proofs.Dom.Acyclicity
import Mathlib.Data.List.Basic
import Mathlib.Data.List.TakeWhile

/-!
# LiveTemplate.Proofs.Dom.Inserting

What an insertion makes of the children of all nodes.

The moved nodes become one run among the children of their new parent, all other children
stay in their order, and nothing else changes (`Dom.Inserted`).  The run stands in one of
two places (`Dom.Place`):

1. directly in front of the reference, if this is a child of the parent and does not move
   itself;
2. at the end otherwise: without a reference, with one that is no child of the parent, and
   with the moved node itself, which is taken out of its place before the reference is
   looked for.

So what stood behind the reference stands behind the run (`Dom.KeepsBehind`), unless a node
is inserted in front of itself and is not the last child.
-/

namespace LiveTemplate

namespace Dom

variable {dom : Dom} {parent child : NodeId} {reference : Option NodeId}

/-! ## where the moved nodes are put -/

/-- What is inserted comes behind siblings among which the reference is not. -/
theorem insertAmong_of_forall_not_mem {siblings : List NodeId} (nodes : List NodeId)
    (h : ∀ r ∈ reference, r ∉ siblings) :
    insertAmong siblings nodes reference = siblings ++ nodes := by
  cases reference with
  | none => rfl
  | some r =>
    have hne : ∀ x ∈ siblings, decide (x ≠ r) = true := by
      intro x hx
      exact decide_eq_true fun heq => h r rfl (heq ▸ hx)
    rw [insertAmong, List.takeWhile_eq_self_iff.2 hne, List.dropWhile_eq_nil_iff.2 hne,
      List.append_nil]

/-- A node that occurs once is the last one if nothing stands behind it. -/
theorem getLast?_append_cons_eq_some_iff {pre post : List NodeId} {r : NodeId} (h : r ∉ post) :
    (pre ++ r :: post).getLast? = some r ↔ post = [] := by
  rcases List.eq_nil_or_concat post with rfl | ⟨init, z, rfl⟩
  · simp
  · have hne : z ≠ r := by
      rintro rfl
      exact h (by simp)
    simp [List.getLast?_append, List.getLast?_cons, hne]

/-- The other children of `parent` in front of the nodes that inserting `child` moves there, and
those behind them. -/
inductive Place (dom : Dom) (parent child : NodeId) :
    Option NodeId → List NodeId → List NodeId → Prop where
  /-- The moved nodes are put in front of the reference. -/
  | front {r : NodeId} {pre post : List NodeId} (children : dom.children parent = pre ++ r :: post)
    (not_moved : r ∉ dom.moved child) :
    Place dom parent child (some r) (pre.filter (· ∉ dom.moved child))
      (r :: post.filter (· ∉ dom.moved child))
  /-- No child that stays is the reference, so the moved nodes are put at the end. -/
  | last {reference : Option NodeId}
    (moved : ∀ r ∈ reference, r ∈ dom.children parent → r ∈ dom.moved child) :
    Place dom parent child reference ((dom.children parent).filter (· ∉ dom.moved child)) []

/-- There is a place for whatever is inserted. -/
theorem exists_place (dom : Dom) (parent child : NodeId) (reference : Option NodeId) :
    ∃ before after, dom.Place parent child reference before after := by
  by_cases h : ∃ r ∈ reference, r ∈ dom.children parent ∧ r ∉ dom.moved child
  · obtain ⟨r, hr, hmem, hmoved⟩ := h
    obtain rfl := Option.mem_def.1 hr
    obtain ⟨pre, post, hchildren⟩ := List.append_of_mem hmem
    exact ⟨_, _, .front hchildren hmoved⟩
  · refine ⟨_, _, .last fun r hr hmem => ?_⟩
    by_contra hmoved
    exact h ⟨r, hr, hmem, hmoved⟩

namespace Place

variable {before after : List NodeId}

/-- The other children of the parent stay in their order. -/
theorem append_eq (h : dom.Place parent child reference before after) :
    before ++ after = (dom.children parent).filter (· ∉ dom.moved child) := by
  cases h with
  | front children not_moved =>
    rw [children, List.filter_append, List.filter_cons_of_pos (by simpa using not_moved)]
  | last => exact List.append_nil _

/-- The moved nodes are put between the others. -/
theorem insertAmong_eq (h : dom.Place parent child reference before after)
    (hlinked : dom.Linked) :
    insertAmong ((dom.children parent).filter (· ∉ dom.moved child)) (dom.moved child) reference =
      before ++ dom.moved child ++ after := by
  rw [← h.append_eq]
  cases h with
  | front children not_moved =>
    have hpre := (hlinked.not_mem_of_children_eq children).1
    exact insertAmong_append_cons fun hmem => hpre (List.mem_filter.1 hmem).1
  | last moved =>
    rw [List.append_nil, List.append_nil]
    refine insertAmong_of_forall_not_mem _ fun r hr hmem => ?_
    obtain ⟨hchild, hstays⟩ := List.mem_filter.1 hmem
    exact of_decide_eq_true hstays (moved r hr hchild)

/-- The moved nodes are put at the end if no child that stays is the reference. -/
theorem eq_nil (h : dom.Place parent child reference before after)
    (hmoved : ∀ r ∈ reference, r ∈ dom.children parent → r ∈ dom.moved child) : after = [] := by
  cases h with
  | @front r pre post children not_moved =>
    have hmem : r ∈ dom.children parent := children ▸ List.mem_append_right _ List.mem_cons_self
    exact absurd (hmoved r rfl hmem) not_moved
  | last => rfl

/-- The moved nodes are put directly in front of a reference that stays among the children. -/
theorem head?_eq (h : dom.Place parent child reference before after) {r : NodeId}
    (hr : r ∈ reference) (hmem : r ∈ dom.children parent) (hmoved : r ∉ dom.moved child) :
    after.head? = some r := by
  cases h with
  | front => exact hr
  | last moved => exact absurd (moved r hr hmem) hmoved

end Place

/-! ## what an insertion changes -/

/-- `dom'` is `dom` with what inserting `child` moves as one run among the children of `parent`,
between `before` and `after`. -/
structure Inserted (dom dom' : Dom) (parent child : NodeId) (before after : List NodeId) :
    Prop where
  /-- The moved nodes are one run, a fragment's children in their order. -/
  children_parent : dom'.children parent = before ++ dom.moved child ++ after
  /-- The other children of the parent are those that it had, in their order. -/
  others : before ++ after = (dom.children parent).filter (· ∉ dom.moved child)
  /-- A fragment is left empty. -/
  children_fragment : (dom.data child).isFragment = true → dom'.children child = []
  /-- The moved nodes are gone from any other parent, which keeps the rest. -/
  children_other : ∀ p, p ≠ parent →
    dom'.children p = (dom.children p).filter (· ∉ dom.moved child)
  /-- The moved nodes have the parent, all others the one that they had. -/
  parent?_eq : ∀ x, dom'.parent? x = if x ∈ dom.moved child then some parent else dom.parent? x
  /-- All nodes stay what they are apart from their places. -/
  data_eq : ∀ x, dom'.data x = dom.data x
  /-- There are no more nodes than before. -/
  size_eq : dom'.size = dom.size
  /-- Nothing changes of a node that does not move and that no moved node is taken from or put
  into. -/
  record_eq : ∀ x, x ≠ parent → x ∉ dom.moved child →
    (∀ y ∈ dom.moved child, dom.parent? y ≠ some x) → dom'.record x = dom.record x

/-- All siblings that stood behind the reference are in `after`, but for those that move. -/
def KeepsBehind (dom : Dom) (parent child : NodeId) (reference : Option NodeId)
    (after : List NodeId) : Prop :=
  ∀ r ∈ reference, ∀ pre post, dom.children parent = pre ++ r :: post →
    ∀ x ∈ post, x ∉ dom.moved child → x ∈ after

namespace Linked

variable {before after : List NodeId}

/-- An insertion puts the moved nodes in their place, and does nothing else. -/
theorem inserted (h : dom.Linked) (hparent : parent.index < dom.size)
    (hchild : child.index < dom.size) (hne : child ≠ parent)
    (hplace : dom.Place parent child reference before after) :
    dom.Inserted (dom.insertBefore parent child reference) parent child before after where
  children_parent := by
    rw [h.children_insertBefore hparent, if_pos rfl, hplace.insertAmong_eq h]
  others := hplace.append_eq
  children_fragment hfragment := by
    rw [h.children_insertBefore hparent, if_neg hne, moved, if_pos hfragment]
    exact List.filter_eq_nil_iff.2 fun x hx => by simpa using hx
  children_other p hp := by rw [h.children_insertBefore hparent, if_neg hp]
  parent?_eq := h.parent?_insertBefore hchild parent reference
  data_eq := data_insertBefore dom parent child reference
  size_eq := size_insertBefore dom parent child reference
  record_eq x hx hmoved hchildren := by
    rw [record_eq, record_eq, data_insertBefore, h.parent?_insertBefore hchild, if_neg hmoved,
      h.children_insertBefore hparent, if_neg hx, h.filter_children hchildren]

/-- A child of `parent` moves only if it is the node that is inserted, and no fragment. -/
theorem mem_moved_iff (h : dom.Linked) (hne : child ≠ parent) {r : NodeId}
    (hr : r ∈ dom.children parent) :
    r ∈ dom.moved child ↔ r = child ∧ (dom.data child).isFragment = false := by
  rw [moved]
  split
  · next hfragment =>
    -- A node has one place, so no child of the parent is a child of the fragment.
    have hnot : r ∉ dom.children child := fun hmem => by
      rw [h.mem_children_iff] at hr hmem
      exact hne (Option.some.inj (hmem.symm.trans hr))
    simp [hnot, hfragment]
  · next hfragment => simp [hfragment]

/-- The children of a node are split at one of them in one way. -/
theorem eq_of_children_eq (h : dom.Linked) {p r : NodeId} {pre pre' post post' : List NodeId}
    (hchildren : dom.children p = pre ++ r :: post)
    (hchildren' : dom.children p = pre' ++ r :: post') : pre = pre' ∧ post = post' := by
  obtain ⟨hpre, hpost⟩ := h.not_mem_of_children_eq hchildren
  obtain ⟨hbefore, -, hbehind⟩ := (List.append_cons_inj_of_notMem hpre hpost).1
    (hchildren.symm.trans hchildren')
  exact ⟨hbefore, hbehind⟩

/-- A reference that does not move keeps what stands behind it. -/
theorem keepsBehind (h : dom.Linked) (hplace : dom.Place parent child reference before after)
    (hstays : ∀ r ∈ reference, r ∈ dom.children parent → r ∉ dom.moved child) :
    dom.KeepsBehind parent child reference after := by
  intro r hr pre post hchildren x hx hmoved
  cases hplace with
  | front children not_moved =>
    obtain rfl := Option.some.inj hr
    obtain ⟨-, rfl⟩ := h.eq_of_children_eq hchildren children
    exact List.mem_cons_of_mem _ (List.mem_filter.2 ⟨hx, decide_eq_true hmoved⟩)
  | last moved =>
    have hmem : r ∈ dom.children parent := hchildren ▸ List.mem_append_right _ List.mem_cons_self
    exact absurd (moved r hr hmem) (hstays r hr hmem)

/-- A child that is inserted in front of itself goes to the end, so it has to be there already to
keep what stands behind it. -/
theorem keepsBehind_self_iff (h : dom.Linked)
    (hplace : dom.Place parent child (some child) before after)
    (hmem : child ∈ dom.children parent) (hfragment : (dom.data child).isFragment = false) :
    dom.KeepsBehind parent child (some child) after ↔
      (dom.children parent).getLast? = some child := by
  have hmoved : dom.moved child = [child] := by rw [moved, hfragment]; rfl
  have hafter : after = [] := hplace.eq_nil fun r hr _ => by
    obtain rfl := Option.some.inj hr
    exact hmoved ▸ List.mem_singleton_self child
  obtain ⟨pre, post, hchildren⟩ := List.append_of_mem hmem
  obtain ⟨-, hpost⟩ := h.not_mem_of_children_eq hchildren
  rw [hchildren, getLast?_append_cons_eq_some_iff hpost]
  constructor
  · intro hkeeps
    refine List.eq_nil_iff_forall_not_mem.2 fun x hx => ?_
    have hne : x ≠ child := fun heq => hpost (heq ▸ hx)
    have hx' : x ∈ after := hkeeps child rfl pre post hchildren x hx (by simpa [hmoved] using hne)
    simp [hafter] at hx'
  · rintro rfl r hr pre' post' hchildren' x hx
    obtain rfl := Option.some.inj hr
    obtain ⟨-, rfl⟩ := h.eq_of_children_eq hchildren hchildren'
    simp at hx

/-- What stood behind the reference stands behind the moved nodes, unless a child that is not the
last one is inserted in front of itself. -/
theorem keepsBehind_iff (h : dom.Linked) (hne : child ≠ parent)
    (hplace : dom.Place parent child reference before after) :
    dom.KeepsBehind parent child reference after ↔
      (reference = some child → child ∈ dom.children parent → (dom.data child).isFragment = false →
        (dom.children parent).getLast? = some child) := by
  constructor
  · rintro hkeeps rfl hmem hfragment
    exact (h.keepsBehind_self_iff hplace hmem hfragment).1 hkeeps
  · intro hlast
    by_cases hself : reference = some child ∧ child ∈ dom.children parent ∧
        (dom.data child).isFragment = false
    · obtain ⟨rfl, hmem, hfragment⟩ := hself
      exact (h.keepsBehind_self_iff hplace hmem hfragment).2 (hlast rfl hmem hfragment)
    · refine h.keepsBehind hplace fun r hr hmem hmoved => hself ?_
      obtain ⟨rfl, hfragment⟩ := (h.mem_moved_iff hne hmem).1 hmoved
      exact ⟨hr, hmem, hfragment⟩

/-- An insertion outside of what is inserted makes the moved nodes one run among the children of
the parent and changes nothing else.  The run is directly in front of the reference if this is a
child of the parent that does not move, and otherwise at the end.  What stood behind the reference
stands behind the run, exactly if no child but the last one is inserted in front of itself. -/
theorem exists_inserted_insertBefore (h : dom.Linked) (hparent : parent.index < dom.size)
    (hchild : child.index < dom.size) (houtside : ¬dom.IsBelow parent child)
    (reference : Option NodeId) :
    ∃ before after,
      dom.Inserted (dom.insertBefore parent child reference) parent child before after ∧
      ((∀ r ∈ reference, r ∈ dom.children parent → r ∈ dom.moved child) → after = []) ∧
      (∀ r ∈ reference, r ∈ dom.children parent → r ∉ dom.moved child → after.head? = some r) ∧
      (dom.KeepsBehind parent child reference after ↔
        (reference = some child → child ∈ dom.children parent →
          (dom.data child).isFragment = false → (dom.children parent).getLast? = some child)) := by
  have hne : child ≠ parent := by
    rintro rfl
    exact houtside (.refl child)
  obtain ⟨before, after, hplace⟩ := dom.exists_place parent child reference
  exact ⟨before, after, h.inserted hparent hchild hne hplace, hplace.eq_nil,
    fun r => hplace.head?_eq, h.keepsBehind_iff hne hplace⟩

end Linked

/-! ## a fragment, and a node in front of itself -/

/-- Operations that put two texts into a `div`. -/
def pairing : List Operation :=
  [.create (.element "div" .xhtml {}), .create (.text "a"), .insertBefore ⟨0⟩ ⟨1⟩ none,
    .create (.text "b"), .insertBefore ⟨0⟩ ⟨2⟩ none]

/-- Operations that put two more texts into a fragment. -/
def collecting : List Operation :=
  [.create .fragment, .create (.text "c"), .insertBefore ⟨3⟩ ⟨4⟩ none, .create (.text "d"),
    .insertBefore ⟨3⟩ ⟨5⟩ none]

theorem reached_pairing : (pairing.foldl Operation.apply {}).Reached := by
  refine Reached.empty.operations ⟨?_, ?_, ⟨by decide, by decide⟩, ?_, ⟨by decide, by decide⟩,
    trivial⟩
  · rintro _ _ _ ⟨⟩
    rfl
  · rintro _ _ _ ⟨⟩
  · rintro _ _ _ ⟨⟩

theorem reached_collecting : ((pairing ++ collecting).foldl Operation.apply {}).Reached := by
  rw [List.foldl_append]
  refine reached_pairing.operations ⟨?_, ?_, ⟨by decide, by decide⟩, ?_, ⟨by decide, by decide⟩,
    trivial⟩
  · rintro _ _ _ ⟨⟩
  · rintro _ _ _ ⟨⟩
  · rintro _ _ _ ⟨⟩

/-- The texts of the fragment are inserted between those of the `div`. -/
theorem exists_inserted_insertBefore_fragment :
    let dom := (pairing ++ collecting).foldl Operation.apply {}
    let div : NodeId := ⟨0⟩
    let fragment : NodeId := ⟨3⟩
    let reference : Option NodeId := some ⟨2⟩
    dom.Linked ∧ div.index < dom.size ∧ fragment.index < dom.size ∧ ¬dom.IsBelow div fragment ∧
      ∃ before after,
        dom.Inserted (dom.insertBefore div fragment reference) div fragment before after ∧
        ((∀ r ∈ reference, r ∈ dom.children div → r ∈ dom.moved fragment) → after = []) ∧
        (∀ r ∈ reference, r ∈ dom.children div → r ∉ dom.moved fragment → after.head? = some r) ∧
        (dom.KeepsBehind div fragment reference after ↔
          (reference = some fragment → fragment ∈ dom.children div →
            (dom.data fragment).isFragment = false →
              (dom.children div).getLast? = some fragment)) := by
  intro dom div fragment reference
  have hlinked : dom.Linked := reached_collecting.consistent.linked
  have hparent : div.index < dom.size := by decide +kernel
  have hchild : fragment.index < dom.size := by decide +kernel
  have houtside : ¬dom.IsBelow div fragment := fun hbelow =>
    absurd (hbelow.eq_of_root (by decide +kernel)) (by decide)
  exact ⟨hlinked, hparent, hchild, houtside,
    hlinked.exists_inserted_insertBefore hparent hchild houtside reference⟩

/-- A text that is inserted in front of itself comes behind the text that stood behind it. -/
theorem not_keepsBehind_itself :
    let dom := pairing.foldl Operation.apply {}
    let dom' := dom.insertBefore ⟨0⟩ ⟨1⟩ (some ⟨1⟩)
    dom.Linked ∧ (⟨0⟩ : NodeId).index < dom.size ∧ (⟨1⟩ : NodeId).index < dom.size ∧
      ¬dom.IsBelow ⟨0⟩ ⟨1⟩ ∧ dom.children ⟨0⟩ = [⟨1⟩, ⟨2⟩] ∧ dom'.children ⟨0⟩ = [⟨2⟩, ⟨1⟩] ∧
      ¬∃ before after, dom.Inserted dom' ⟨0⟩ ⟨1⟩ before after ∧
        dom.KeepsBehind ⟨0⟩ ⟨1⟩ (some ⟨1⟩) after := by
  intro dom dom'
  have hchildren : dom.children ⟨0⟩ = [⟨1⟩, ⟨2⟩] := by decide +kernel
  have hchildren' : dom'.children ⟨0⟩ = [⟨2⟩, ⟨1⟩] := by decide +kernel
  have hmoved : dom.moved ⟨1⟩ = [⟨1⟩] := by decide +kernel
  refine ⟨reached_pairing.consistent.linked, by decide +kernel, by decide +kernel, fun hbelow => ?_,
    hchildren, hchildren', ?_⟩
  · cases hbelow.eq_of_root (by decide +kernel)
  · rintro ⟨before, after, hinserted, hkeeps⟩
    have hmem : ⟨2⟩ ∈ after :=
      hkeeps ⟨1⟩ rfl [] [⟨2⟩] hchildren ⟨2⟩ List.mem_cons_self (by simp [hmoved])
    have hrun := hinserted.children_parent
    rw [hchildren', hmoved] at hrun
    -- The run is the last child, so nothing is behind it.
    cases before with
    | nil => simp at hrun
    | cons x before =>
      have hafter : after = [] := by
        have hlength := congrArg List.length hrun
        simp at hlength
        exact List.length_eq_zero_iff.1 (by omega)
      simp [hafter] at hmem

end Dom

end LiveTemplate
