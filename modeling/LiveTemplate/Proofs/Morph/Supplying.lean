import LiveTemplate.Proofs.Dom.Acyclicity
import LiveTemplate.Proofs.Morph.Updating
import Mathlib.Data.List.Induction

/-!
# LiveTemplate.Proofs.Morph.Supplying

Nodes that are supplied to a morph as values.

However a morph is updated, what it shows stands directly before its anchor, and the nodes
above the anchor stay where they are (`Scene.Settled.run`).  An update leaves a node of the
document as it is but for two cases (`Updates.data_eq_iff`, `Updates.children_eq_iff`): the
node is a text that is all the morph shows, which is changed in place whoever supplied it,
or the value is a child of the node, which is taken out of it.  A node that has been spared
this is written as it was when it is supplied, whatever was shown in between
(`supplied_run`).
-/

namespace LiveTemplate

/-- An update with a value changes the content of a node: the text that it reuses. -/
def Morph.Rewrites (m : Morph) (value : Value) (dom : Dom) (x : NodeId) : Prop :=
  m.shows value = false ∧ m.reusable? value dom = some x ∧ dom.data x ≠ .text value.text

instance (m : Morph) (value : Value) (dom : Dom) (x : NodeId) :
    Decidable (m.Rewrites value dom x) := inferInstanceAs (Decidable (_ ∧ _ ∧ _))

/-- The value is a child of a node. -/
def Value.IsChildOf (value : Value) (dom : Dom) (x : NodeId) : Prop :=
  ∃ c, value = .node c ∧ dom.parent? c = some x

/-- A morph that shows a node has it as its value. -/
theorem Morph.value_of_shows_node {m : Morph} {n : NodeId} (h : m.shows (.node n) = true) :
    m.value = some (.node n) := by
  rw [shows, Bool.and_eq_true] at h
  cases hvalue : m.value with
  | none => simp [hvalue] at h
  | some value =>
    rw [hvalue, Option.any_some] at h
    cases value with
    | node k =>
      obtain rfl : k = n := by simpa [Value.same] using h.1
      rfl
    | _ => simp [Value.same] at h

/-- A morph and its document. -/
structure Scene where
  morph : Morph
  dom : Dom

namespace Scene

/-- What is done to a morph. -/
inductive Turn where
  | update (value : Value)
  /-- Lets the morph show values as text, or as HTML. -/
  | setEscaped (escaped : Bool)

/-- The value of the last update. -/
def lastValue? (turns : List Turn) : Option Value :=
  (turns.filterMap fun
    | .update value => some value
    | .setEscaped _ => none).getLast?

variable {s s' s'' : Scene} {p x n : NodeId} {value : Value} {turn : Turn} {turns : List Turn}

def anchor (s : Scene) : NodeId := s.morph.anchor

def update (s : Scene) (value : Value) : Scene where
  morph := (s.morph.update value s.dom).1
  dom := (s.morph.update value s.dom).2

def take (s : Scene) : Turn → Scene
  | .update value => s.update value
  | .setEscaped escaped => { s with morph := { s.morph with escaped } }

/-- Takes turns one after the other. -/
def run (s : Scene) (turns : List Turn) : Scene := turns.foldl take s

theorem run_concat (s : Scene) (turns : List Turn) (turn : Turn) :
    s.run (turns ++ [turn]) = (s.run turns).take turn := List.foldl_append

/-- The values that may be shown: of the nodes those of the document that are neither the anchor nor
above it. -/
def Accepts (s : Scene) (value : Value) : Prop :=
  ∀ id, value = .node id → id.index < s.dom.size ∧ ¬s.dom.IsBelow s.anchor id

theorem accepts_of_not_isNode (s : Scene) (h : value.isNode = false) : s.Accepts value := by
  intro id hid
  rw [hid] at h
  cases h

/-- All values of the turns may be shown. -/
def AcceptsAll (s : Scene) (turns : List Turn) : Prop :=
  ∀ value, .update value ∈ turns → s.Accepts value

/-- A node of the document that may be shown as it is. -/
structure Supplied (s : Scene) (x : NodeId) : Prop where
  index_lt : x.index < s.dom.size
  not_isFragment : (s.dom.data x).isFragment = false
  not_above : ¬s.dom.IsBelow s.anchor x

/-- A turn does nothing to a node. -/
def SparesAt (s : Scene) (x : NodeId) : Turn → Prop
  | .update value => ¬s.morph.Rewrites value s.dom x ∧ ¬value.IsChildOf s.dom x
  | .setEscaped _ => True

/-- None of the turns does anything to a node. -/
def Spares (s : Scene) (x : NodeId) : List Turn → Prop
  | [] => True
  | turn :: turns => s.SparesAt x turn ∧ (s.take turn).Spares x turns

/-- What a morph shows stands directly before its anchor, and a node that is its value is all that
it shows. -/
structure Settled (s : Scene) (p : NodeId) : Prop where
  reached : s.dom.Reached
  parent?_anchor : s.dom.parent? s.anchor = some p
  stands : ∃ before after, s.dom.children p = before ++ s.morph.nodes ++ s.anchor :: after
  not_above : ∀ x ∈ s.morph.nodes, ¬s.dom.IsBelow s.anchor x
  shown : ∀ n, s.morph.value = some (.node n) → (s.dom.data n).isFragment = false →
    s.morph.nodes = [n]

namespace Settled

/-- A morph that shows nothing yet is settled wherever its anchor is. -/
theorem fresh (hreached : s.dom.Reached) (hanchor : s.dom.parent? s.anchor = some p)
    (hnodes : s.morph.nodes = []) (hvalue : s.morph.value = none) : s.Settled p where
  reached := hreached
  parent?_anchor := hanchor
  stands := by
    have hmem := (hreached.consistent.linked.mem_children_iff p _).2 hanchor
    obtain ⟨before, after, heq⟩ := List.append_of_mem hmem
    exact ⟨before, after, by rw [hnodes, List.append_nil, heq]⟩
  not_above := by simp [hnodes]
  shown n hn := by
    rw [hvalue] at hn
    cases hn

theorem linked (h : s.Settled p) : s.dom.Linked := h.reached.consistent.linked

theorem parent?_eq (h : s.Settled p) (hx : x ∈ s.morph.nodes) : s.dom.parent? x = some p := by
  obtain ⟨before, after, heq⟩ := h.stands
  rw [← h.linked.mem_children_iff, heq]
  simp [hx]

/-- A node that may be supplied is not the one in which the anchor stands. -/
theorem ne_of_supplied (h : s.Settled p) (hx : s.Supplied x) : x ≠ p := by
  rintro rfl
  exact hx.not_above (.parent h.parent?_anchor (.refl _))

end Settled

/-! ## one update -/

/-- What an update does to a settled morph: nothing, a text is changed, or what shows the value is
put before the anchor. -/
inductive Updates (s : Scene) (value : Value) (p : NodeId) (s' : Scene) : Prop where
  | idle (shows : s.morph.shows value = true) (eq : s' = s)
  | change (n : NodeId) (shows : s.morph.shows value = false)
    (reusable : s.morph.reusable? value s.dom = some n)
    (eq : s' = ⟨s.morph.showing value s.morph.nodes, s.dom.setText n value.text⟩)
  | put (shows : s.morph.shows value = false) (reusable : s.morph.reusable? value s.dom = none)
    (anchor_eq : s'.anchor = s.anchor) (value_eq : s'.morph.value = some value)
    (put : s.morph.Put value s.dom p s'.morph s'.dom)
    (single : ∀ n, value = .node n → (s.dom.data n).isFragment = false → s'.morph.nodes = [n])

theorem Settled.updates (h : s.Settled p) (hvalue : s.Accepts value) :
    s.Updates value p (s.update value) := by
  have hway := s.morph.way_update value s.dom
  rw [update]
  generalize s.morph.update value s.dom = result at hway ⊢
  cases hway with
  | idle hshows => exact .idle hshows rfl
  | detached _ hanchor => cases hanchor.symm.trans h.parent?_anchor
  | reuse hshows _ hreusable => exact .change _ hshows hreusable rfl
  | @replace q hshows hanchor hreusable =>
    obtain rfl : q = p := Option.some.inj (hanchor.symm.trans h.parent?_anchor)
    have hput := s.morph.put_replace h.linked (h.linked.index_lt hanchor).1
      fun id hid => (hvalue id hid).1
    refine .put hshows hreusable (s.morph.anchor_replace ..) (s.morph.value_replace ..) hput ?_
    rintro n rfl hfragment
    exact s.morph.nodes_replace_node hfragment q

namespace Updates

/-- The content of a node is left alone exactly if it is not rewritten. -/
theorem data_eq_iff (h : s.Updates value p s') (hx : x.index < s.dom.size) :
    s'.dom.data x = s.dom.data x ↔ ¬s.morph.Rewrites value s.dom x := by
  cases h with
  | idle shows eq =>
    rw [eq]
    exact iff_of_true rfl fun hrewrites => by simp [hrewrites.1] at shows
  | change n shows reusable eq =>
    obtain ⟨-, -, -, htext⟩ := Morph.reusable?_eq_some reusable
    rw [eq]
    by_cases hxn : x = n
    · subst hxn
      simp only [Dom.data_setText_self htext, Morph.Rewrites, shows, reusable, true_and, ne_eq,
        Classical.not_not]
      exact eq_comm
    · refine iff_of_true (Dom.data_setText_of_ne hxn _) fun hrewrites => hxn ?_
      exact Option.some.inj (hrewrites.2.1.symm.trans reusable)
  | put _ reusable _ _ put _ =>
    exact iff_of_true (put.data_eq x hx) fun hrewrites => by simp [hrewrites.2.1] at reusable

theorem data_of_rewrites (h : s.Updates value p s') (hrewrites : s.morph.Rewrites value s.dom x) :
    s'.dom.data x = .text value.text := by
  obtain ⟨hshows, hreusable, -⟩ := hrewrites
  obtain ⟨-, -, -, htext⟩ := Morph.reusable?_eq_some hreusable
  cases h with
  | idle shows _ => simp [hshows] at shows
  | change n _ reusable eq =>
    obtain rfl : x = n := Option.some.inj (hreusable.symm.trans reusable)
    rw [eq, Dom.data_setText_self htext]
  | put _ reusable _ _ _ _ => simp [hreusable] at reusable

/-- The children of a node are left alone exactly if the value is none of them. -/
theorem children_eq_iff (h : s.Updates value p s') (hs : s.Settled p) (hx : s.Supplied x) :
    s'.dom.children x = s.dom.children x ↔ ¬value.IsChildOf s.dom x := by
  have hconsistent := hs.reached.consistent
  have hxp := hs.ne_of_supplied hx
  cases h with
  | idle shows eq =>
    rw [eq]
    refine iff_of_true rfl ?_
    rintro ⟨c, rfl, hparent⟩
    -- A node that is shown already stands next to the anchor, and not below `x`.
    have hfragment := hconsistent.not_isFragment c x hparent
    have hnodes := hs.shown c (Morph.value_of_shows_node shows) hfragment
    have hbeside := hs.parent?_eq (hnodes ▸ List.mem_singleton_self c)
    exact hxp (Option.some.inj (hparent.symm.trans hbeside))
  | change n shows reusable eq =>
    rw [eq]
    refine iff_of_true (Dom.children_setText ..) ?_
    rintro ⟨c, rfl, -⟩
    simp [Morph.reusable?_node] at reusable
  | put _ reusable _ _ put single =>
    rw [put.children_eq x hx.index_lt]
    simp only [if_neg hxp]
    rw [List.filter_eq_self]
    constructor
    · rintro hstays ⟨c, rfl, hparent⟩
      have hnodes := single c rfl (hconsistent.not_isFragment c x hparent)
      have hc := hstays c ((hs.linked.mem_children_iff x c).2 hparent)
      simp [Morph.stays, hnodes] at hc
    · intro hnot c hc
      have hparent := (hs.linked.mem_children_iff x c).1 hc
      have hold : c ∉ s'.morph.nodes := fun hmem => by
        rcases put.source c hmem with hnode | ⟨f, -, hfragment, hf⟩ | hfresh
        · exact hnot ⟨c, hnode, hparent⟩
        · obtain rfl : x = f := Option.some.inj (hparent.symm.trans hf)
          simp [hx.not_isFragment] at hfragment
        · exact absurd (hs.linked.index_lt hparent).2 (Nat.not_lt.2 hfresh)
      simp [Morph.stays, hold, hparent, hxp]

end Updates

/-! ## what turns keep -/

/-- What turns keep of a scene: the way up from the anchor, and which nodes are fragments. -/
structure Keeps (s s' : Scene) : Prop where
  anchor_eq : s'.anchor = s.anchor
  size_le : s.dom.size ≤ s'.dom.size
  parent?_above : ∀ y, s.dom.IsBelow s.anchor y → s'.dom.parent? y = s.dom.parent? y
  isFragment_eq : ∀ x : NodeId, x.index < s.dom.size →
    (s'.dom.data x).isFragment = (s.dom.data x).isFragment

namespace Keeps

theorem refl (s : Scene) : s.Keeps s := ⟨rfl, Nat.le_refl _, fun _ _ => rfl, fun _ _ => rfl⟩

/-- The same nodes are above the anchor. -/
theorem isBelow_iff (h : s.Keeps s') : s'.dom.IsBelow s'.anchor x ↔ s.dom.IsBelow s.anchor x := by
  have hback : ∀ y, s'.dom.IsBelow s.anchor y → s.dom.IsBelow s.anchor y := fun y hy =>
    hy.of_links fun z hz => (h.parent?_above z hz).symm
  rw [h.anchor_eq]
  exact ⟨hback x, fun hbelow => hbelow.of_links fun y hy => h.parent?_above y (hback y hy)⟩

theorem trans (h : s.Keeps s') (h' : s'.Keeps s'') : s.Keeps s'' where
  anchor_eq := h'.anchor_eq.trans h.anchor_eq
  size_le := Nat.le_trans h.size_le h'.size_le
  parent?_above y hy := (h'.parent?_above y (h.isBelow_iff.2 hy)).trans (h.parent?_above y hy)
  isFragment_eq x hx :=
    (h'.isFragment_eq x (Nat.lt_of_lt_of_le hx h.size_le)).trans (h.isFragment_eq x hx)

theorem accepts (h : s.Keeps s') (hvalue : s.Accepts value) : s'.Accepts value := fun id hid =>
  ⟨Nat.lt_of_lt_of_le (hvalue id hid).1 h.size_le, fun hbelow => (hvalue id hid).2
    (h.isBelow_iff.1 hbelow)⟩

theorem supplied (h : s.Keeps s') (hx : s.Supplied x) : s'.Supplied x where
  index_lt := Nat.lt_of_lt_of_le hx.index_lt h.size_le
  not_isFragment := (h.isFragment_eq x hx.index_lt).trans hx.not_isFragment
  not_above hbelow := hx.not_above (h.isBelow_iff.1 hbelow)

end Keeps

namespace Updates

/-- Nothing that is shown afterwards was above the anchor. -/
theorem not_above (h : s.Updates value p s') (hs : s.Settled p) (hvalue : s.Accepts value) :
    ∀ x ∈ s'.morph.nodes, ¬s.dom.IsBelow s.anchor x := by
  intro x hx hbelow
  cases h with
  | idle _ eq =>
    subst eq
    exact hs.not_above x hx hbelow
  | change n _ _ eq =>
    subst eq
    exact hs.not_above x hx hbelow
  | put _ _ _ _ put _ =>
    rcases put.source x hx with hnode | ⟨f, hnode, -, hparent⟩ | hfresh
    · exact (hvalue x hnode).2 hbelow
    · exact (hvalue f hnode).2 (hbelow.trans (.parent hparent (.refl f)))
    · have hlt := hbelow.index_lt hs.linked (hs.linked.index_lt hs.parent?_anchor).2
      exact absurd hlt (Nat.not_lt.2 hfresh)

theorem keeps (h : s.Updates value p s') (hs : s.Settled p) (hvalue : s.Accepts value) :
    s.Keeps s' := by
  have hshown := h.not_above hs hvalue
  cases h with
  | idle _ eq => exact eq ▸ .refl s
  | change n _ _ eq =>
    subst eq
    exact ⟨rfl, by simp, by simp, by simp⟩
  | put _ _ anchor_eq _ put _ =>
    refine ⟨anchor_eq, put.size_le, fun y hy => ?_, fun x hx => by rw [put.data_eq x hx]⟩
    have hlt := hy.index_lt hs.linked (hs.linked.index_lt hs.parent?_anchor).2
    rw [put.parent?_of_not_mem y hlt fun hmem => hshown y hmem hy,
      if_neg fun hmem => hs.not_above y hmem.1 hy]

/-- What is shown stands before the anchor again. -/
theorem stands (h : s.Updates value p s') (hs : s.Settled p) (hvalue : s.Accepts value) :
    ∃ before after, s'.dom.children p = before ++ s'.morph.nodes ++ s'.anchor :: after := by
  have hshown := h.not_above hs hvalue
  cases h with
  | idle _ eq =>
    subst eq
    exact hs.stands
  | change n _ _ eq =>
    obtain ⟨before, after, heq⟩ := hs.stands
    subst eq
    exact ⟨before, after, (Dom.children_setText ..).trans heq⟩
  | put _ _ anchor_eq _ put _ =>
    have hanchor : s.anchor ∈ (s.dom.children p).filter (s.morph.stays s.dom p s'.morph.nodes) := by
      refine List.mem_filter.2 ⟨(hs.linked.mem_children_iff p _).2 hs.parent?_anchor, ?_⟩
      have hnew : s.anchor ∉ s'.morph.nodes := fun hmem => hshown _ hmem (.refl _)
      have hold : s.anchor ∉ s.morph.nodes := fun hmem => hs.not_above _ hmem (.refl _)
      simp [Morph.stays, hnew, hold]
    obtain ⟨before, after, heq, hbefore⟩ := List.eq_append_cons_of_mem hanchor
    refine ⟨before, after, ?_⟩
    rw [put.children_eq p (hs.linked.index_lt hs.parent?_anchor).1, anchor_eq]
    simp only [if_true]
    rw [heq, ← anchor, Dom.insertAmong_append_cons hbefore]

/-- An update with a value that may be shown leaves the morph settled. -/
theorem settled (h : s.Updates value p s') (hs : s.Settled p) (hvalue : s.Accepts value)
    (hreached : s'.dom.Reached) : s'.Settled p := by
  have hkeeps := h.keeps hs hvalue
  refine ⟨hreached, ?_, h.stands hs hvalue, fun x hx hbelow =>
    h.not_above hs hvalue x hx (hkeeps.isBelow_iff.1 hbelow), fun n hn hfragment => ?_⟩
  · rw [hkeeps.anchor_eq, hkeeps.parent?_above _ (.refl _), hs.parent?_anchor]
  · cases h with
    | idle _ eq =>
      subst eq
      exact hs.shown n hn hfragment
    | change _ _ reusable eq =>
      subst eq
      obtain rfl : value = .node n := Option.some.inj hn
      simp [Morph.reusable?_node] at reusable
    | put _ _ _ value_eq _ single =>
      obtain rfl : value = .node n := Option.some.inj (value_eq.symm.trans hn)
      refine single n rfl ?_
      rw [← hkeeps.isFragment_eq n (hvalue n rfl).1, hfragment]

end Updates

/-! ## turns one after the other -/

theorem Settled.update (h : s.Settled p) (hvalue : s.Accepts value) :
    (s.update value).Settled p ∧ s.Keeps (s.update value) := by
  have hupdates := h.updates hvalue
  have hreached := h.reached.update s.morph fun id hid => (hvalue id hid).1
  exact ⟨hupdates.settled h hvalue hreached, hupdates.keeps h hvalue⟩

/-- A turn leaves the morph settled. -/
theorem Settled.take (h : s.Settled p) (hturn : ∀ value, turn = .update value → s.Accepts value) :
    (s.take turn).Settled p ∧ s.Keeps (s.take turn) := by
  cases turn with
  | update value => exact h.update (hturn value rfl)
  | setEscaped escaped =>
    exact ⟨⟨h.reached, h.parent?_anchor, h.stands, h.not_above, h.shown⟩,
      ⟨rfl, Nat.le_refl _, fun _ _ => rfl, fun _ _ => rfl⟩⟩

theorem AcceptsAll.cons (h : s.AcceptsAll (turn :: turns)) :
    (∀ value, turn = .update value → s.Accepts value) ∧ s.AcceptsAll turns :=
  ⟨fun value heq => h value (heq ▸ List.mem_cons_self), fun value hmem =>
    h value (List.mem_cons_of_mem _ hmem)⟩

theorem Keeps.acceptsAll (h : s.Keeps s') (hturns : s.AcceptsAll turns) : s'.AcceptsAll turns :=
  fun value hmem => h.accepts (hturns value hmem)

/-- In whatever order turns are taken, the morph stays settled. -/
theorem Settled.run (h : s.Settled p) (hturns : s.AcceptsAll turns) :
    (s.run turns).Settled p ∧ s.Keeps (s.run turns) := by
  induction turns generalizing s with
  | nil => exact ⟨h, .refl s⟩
  | cons turn turns ih =>
    obtain ⟨hturn, hturns⟩ := hturns.cons
    obtain ⟨hsettled, hkeeps⟩ := h.take hturn
    obtain ⟨hrun, hkeeps'⟩ := ih hsettled (hkeeps.acceptsAll hturns)
    exact ⟨hrun, hkeeps.trans hkeeps'⟩

/-- A turn that spares a node leaves it as it is. -/
theorem Settled.same_take (h : s.Settled p)
    (hturn : ∀ value, turn = .update value → s.Accepts value) (hx : s.Supplied x)
    (hspares : s.SparesAt x turn) :
    (s.take turn).dom.data x = s.dom.data x ∧
      (s.take turn).dom.children x = s.dom.children x := by
  cases turn with
  | update value =>
    have hupdates := h.updates (hturn value rfl)
    exact ⟨(hupdates.data_eq_iff hx.index_lt).2 hspares.1,
      (hupdates.children_eq_iff h hx).2 hspares.2⟩
  | setEscaped escaped => exact ⟨rfl, rfl⟩

theorem Settled.same_run (h : s.Settled p) (hturns : s.AcceptsAll turns) (hx : s.Supplied x)
    (hspares : s.Spares x turns) :
    (s.run turns).dom.data x = s.dom.data x ∧
      (s.run turns).dom.children x = s.dom.children x := by
  induction turns generalizing s with
  | nil => exact ⟨rfl, rfl⟩
  | cons turn turns ih =>
    obtain ⟨hturn, hturns⟩ := hturns.cons
    obtain ⟨hsettled, hkeeps⟩ := h.take hturn
    obtain ⟨hdata, hchildren⟩ := h.same_take hturn hx hspares.1
    obtain ⟨hdata', hchildren'⟩ :=
      ih hsettled (hkeeps.acceptsAll hturns) (hkeeps.supplied hx) hspares.2
    exact ⟨hdata'.trans hdata, hchildren'.trans hchildren⟩

/-- What stands below a node that may be supplied may be supplied as well. -/
theorem Supplied.below (hs : s.Settled p) (hn : s.Supplied n) (hx : s.dom.IsBelow x n) :
    s.Supplied x where
  index_lt := hx.index_lt_of_top hs.linked hn.index_lt
  not_isFragment := by
    cases hx with
    | refl => exact hn.not_isFragment
    | parent hparent _ => exact hs.reached.consistent.not_isFragment _ _ hparent
  not_above hbelow := hn.not_above (hbelow.trans hx)

/-- A node that was spared with all that is below it is written as before. -/
theorem Settled.html_run (h : s.Settled p) (hacyclic : s.dom.Acyclic)
    (hturns : s.AcceptsAll turns) (hn : s.Supplied n)
    (hspares : ∀ x, s.dom.IsBelow x n → s.Spares x turns) :
    (s.run turns).dom.html n = s.dom.html n :=
  hacyclic.html_congr h.linked hn.index_lt (h.run hturns).2.size_le fun x hx =>
    h.same_run hturns (hn.below h hx) (hspares x hx)

/-! ## the value of the last update -/

theorem Updates.value_of_node (h : s.Updates (.node n) p s') :
    s'.morph.value = some (.node n) := by
  cases h with
  | idle shows eq =>
    subst eq
    exact Morph.value_of_shows_node shows
  | change _ _ reusable _ => simp [Morph.reusable?_node] at reusable
  | put _ _ _ value_eq _ _ => exact value_eq

/-- A node with which the morph was updated last is its value. -/
theorem Settled.value_run (h : s.Settled p) (hturns : s.AcceptsAll turns)
    (hlast : lastValue? turns = some (.node n)) :
    (s.run turns).morph.value = some (.node n) := by
  induction turns using List.reverseRecOn with
  | nil => cases hlast
  | append_singleton turns turn ih =>
    have hbefore : s.AcceptsAll turns := fun value hmem =>
      hturns value (List.mem_append_left _ hmem)
    obtain ⟨hsettled, hkeeps⟩ := h.run hbefore
    rw [run_concat]
    cases turn with
    | update value =>
      obtain rfl : value = .node n := by simpa [lastValue?] using hlast
      have hvalue := hkeeps.accepts (hturns (.node n) (by simp))
      exact (hsettled.updates hvalue).value_of_node
    | setEscaped escaped => exact ih hbefore (by simpa [lastValue?] using hlast)

/-! ## nodes that are supplied -/

/-- In whatever order a settled morph is updated with values that may be shown, and its mode is
changed: a further update leaves the content of a node that may be supplied alone exactly if it does
not rewrite it, to the text of its value, and its children exactly if its value is none of them.  A
node of the last update is all that is shown, directly before the anchor, and it is written as at
the start if it was spared with all that is below it. -/
theorem supplied_run (h : s.Settled p) (hacyclic : s.dom.Acyclic) (hturns : s.AcceptsAll turns) :
    let after := s.run turns
    (∀ value, s.Accepts value → ∀ x, s.Supplied x →
      ((after.update value).dom.data x = after.dom.data x ↔
        ¬after.morph.Rewrites value after.dom x) ∧
      (after.morph.Rewrites value after.dom x →
        (after.update value).dom.data x = .text value.text) ∧
      ((after.update value).dom.children x = after.dom.children x ↔
        ¬value.IsChildOf after.dom x)) ∧
    ∀ n, s.Supplied n → lastValue? turns = some (.node n) →
      after.morph.nodes = [n] ∧
      (∃ left right, after.dom.children p = left ++ n :: s.anchor :: right) ∧
      ((∀ x, s.dom.IsBelow x n → s.Spares x turns) → after.dom.html n = s.dom.html n) := by
  intro after
  obtain ⟨hsettled, hkeeps⟩ := h.run hturns
  refine ⟨fun value hvalue x hx => ?_, fun n hn hlast => ?_⟩
  · have hupdates := hsettled.updates (hkeeps.accepts hvalue)
    have hx := hkeeps.supplied hx
    exact ⟨hupdates.data_eq_iff hx.index_lt, hupdates.data_of_rewrites,
      hupdates.children_eq_iff hsettled hx⟩
  · have hnodes := hsettled.shown n (h.value_run hturns hlast) (hkeeps.supplied hn).not_isFragment
    obtain ⟨left, right, heq⟩ := hsettled.stands
    rw [hnodes, hkeeps.anchor_eq, List.append_assoc] at heq
    exact ⟨hnodes, ⟨left, right, heq⟩, h.html_run hacyclic hturns hn⟩

/-! ### a text that is supplied twice -/

/-- The operations that make a document with a `div` for a morph, and a text that stands nowhere. -/
def staging : List Dom.Operation :=
  [.create (.element "div" .xhtml {}), .create (.text ""), .insertBefore ⟨0⟩ ⟨1⟩ none,
    .create (.text "a")]

def sample : Scene where
  morph := .create ⟨1⟩ true none
  dom := staging.foldl Dom.Operation.apply {}

theorem allows_staging : ({} : Dom).Allows staging := by
  refine ⟨?_, ?_, ⟨by decide, by decide⟩, ?_, trivial⟩
  · rintro _ _ _ ⟨⟩
    rfl
  · rintro _ _ _ ⟨⟩
  · rintro _ _ _ ⟨⟩

theorem settled_sample : sample.Settled ⟨0⟩ :=
  .fresh (Dom.Reached.empty.operations allows_staging) (by decide +kernel) rfl rfl

theorem acyclic_sample : sample.dom.Acyclic := by
  refine Dom.Acyclic.empty.operations .empty allows_staging
    ⟨trivial, trivial, fun hbelow => ?_, trivial, trivial⟩
  cases hbelow.eq_of_root (by decide)

theorem supplied_sample : sample.Supplied ⟨2⟩ where
  index_lt := by decide +kernel
  not_isFragment := by decide +kernel
  not_above := Dom.not_isBelow_of_leaf settled_sample.linked (by decide +kernel) (by decide)

/-- The text may be shown, and so may any value that is no node. -/
theorem acceptsAll_sample {turns : List Turn}
    (h : ∀ value, .update value ∈ turns → value = .node ⟨2⟩ ∨ value.isNode = false) :
    sample.AcceptsAll turns := by
  intro value hmem
  rcases h value hmem with rfl | hnode
  · intro id hid
    cases hid
    exact ⟨supplied_sample.index_lt, supplied_sample.not_above⟩
  · exact sample.accepts_of_not_isNode hnode

/-- The text is shown, HTML takes its place, and the text is shown again. -/
def passing : List Turn :=
  [.update (.node ⟨2⟩), .setEscaped false, .update (.string "x"), .update (.node ⟨2⟩)]

theorem spares_passing : sample.Spares ⟨2⟩ passing := by
  have hstring : ∀ dom, ¬(Value.string "x").IsChildOf dom ⟨2⟩ := by
    rintro dom ⟨c, hc, -⟩
    cases hc
  have hnode : ∀ dom : Dom, dom.parent? ⟨2⟩ ≠ some ⟨2⟩ → ¬(Value.node ⟨2⟩).IsChildOf dom ⟨2⟩ := by
    rintro dom hparent ⟨c, hc, hc'⟩
    cases hc
    exact hparent hc'
  exact ⟨⟨by decide +kernel, hnode _ (by decide +kernel)⟩, trivial,
    ⟨by decide +kernel, hstring _⟩, ⟨by decide +kernel, hnode _ (by decide +kernel)⟩, trivial⟩

theorem supplied_run_passing :
    let after := sample.run passing
    sample.Settled ⟨0⟩ ∧ sample.dom.Acyclic ∧ sample.AcceptsAll passing ∧
      sample.Accepts (.string "y") ∧ sample.Supplied ⟨2⟩ ∧
      lastValue? passing = some (.node ⟨2⟩) ∧
      ((after.update (.string "y")).dom.data ⟨2⟩ = after.dom.data ⟨2⟩ ↔
        ¬after.morph.Rewrites (.string "y") after.dom ⟨2⟩) ∧
      after.morph.nodes = [⟨2⟩] ∧ after.dom.html ⟨2⟩ = "a" := by
  intro after
  have haccepts : sample.AcceptsAll passing := acceptsAll_sample (by simp [passing, Value.isNode])
  have hvalue : sample.Accepts (.string "y") := sample.accepts_of_not_isNode rfl
  have hlast : lastValue? passing = some (.node ⟨2⟩) := rfl
  obtain ⟨hturn, hnode⟩ := supplied_run settled_sample acyclic_sample haccepts
  obtain ⟨hnodes, -, hhtml⟩ := hnode ⟨2⟩ supplied_sample hlast
  have hspares : ∀ x, sample.dom.IsBelow x ⟨2⟩ → sample.Spares x passing := by
    intro x hx
    obtain rfl : x = ⟨2⟩ := Classical.byContradiction fun hne =>
      Dom.not_isBelow_of_leaf settled_sample.linked (by decide +kernel) hne hx
    exact spares_passing
  refine ⟨settled_sample, acyclic_sample, haccepts, hvalue, supplied_sample, hlast,
    (hturn _ hvalue ⟨2⟩ supplied_sample).1, hnodes, (hhtml hspares).trans (by decide +kernel)⟩

/-- A text that is supplied, and again after an update with another text, is shown with that one's
content. -/
theorem not_shown_as_supplied :
    let turns := [Turn.update (.node ⟨2⟩), .update (.string "x"), .update (.node ⟨2⟩)]
    let after := sample.run turns
    sample.Settled ⟨0⟩ ∧ sample.dom.Acyclic ∧ sample.AcceptsAll turns ∧ sample.Supplied ⟨2⟩ ∧
      lastValue? turns = some (.node ⟨2⟩) ∧ after.dom.children ⟨0⟩ = [⟨2⟩, ⟨1⟩] ∧
      after.dom.data ⟨2⟩ ≠ sample.dom.data ⟨2⟩ ∧
      after.dom.html ⟨2⟩ = "x" ∧ sample.dom.html ⟨2⟩ = "a" := by
  intro turns after
  have haccepts : sample.AcceptsAll turns := acceptsAll_sample (by simp [turns, Value.isNode])
  exact ⟨settled_sample, acyclic_sample, haccepts, supplied_sample, rfl, by decide +kernel,
    by decide +kernel, by decide +kernel, by decide +kernel⟩

end Scene

end LiveTemplate
