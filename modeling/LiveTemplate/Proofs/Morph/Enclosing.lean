import LiveTemplate.Proofs.Morph.Updating

/-!
# LiveTemplate.Proofs.Morph.Enclosing

A morph whose content holds the anchor of another one.

The outer morph remembers the nodes it shows from the moment when it shows them, while the
inner one goes on putting nodes between them.  Through all turns of the two (`Nest.run`)
every node that either of them has put there and that still stands there is remembered by
one of them (`Nest.Accounted`).  The outer morph takes out what it remembers itself, so an
update of it takes out everything exactly where it remembers all that the inner one shows.
-/

namespace LiveTemplate

/-- Two morphs of one document, and all nodes that either of them has ever shown there. -/
structure Nest where
  outer : Morph
  inner : Morph
  dom : Dom
  shown : List NodeId

/-- An update of one of two morphs. -/
inductive Turn where
  | outer (value : Value)
  | inner (value : Value)

/-- The value that a turn is about. -/
def Turn.value : Turn → Value
  | outer value | inner value => value

namespace Nest

/-- Takes a turn. -/
def take (s : Nest) : Turn → Nest
  | .outer value =>
    let (outer, dom) := s.outer.update value s.dom
    { s with outer, dom, shown := s.shown ++ outer.nodes }
  | .inner value =>
    let (inner, dom) := s.inner.update value s.dom
    { s with inner, dom, shown := s.shown ++ inner.nodes }

/-- Takes turns, one after the other. -/
def run (s : Nest) (turns : List Turn) : Nest := turns.foldl take s

/-- The inner morph has its anchor among the nodes of the outer one, which show something in front
of an anchor below `p` that neither of them shows. -/
structure Starts (s : Nest) (p : NodeId) : Prop where
  linked : s.dom.Linked
  outer_parent : s.dom.parent? s.outer.anchor = some p
  inner_parent : s.dom.parent? s.inner.anchor = some p
  anchor_mem : s.inner.anchor ∈ s.outer.nodes
  anchor_not_mem : s.outer.anchor ∉ s.shown
  shown_eq : s.shown = s.outer.nodes ++ s.inner.nodes
  index_lt : ∀ x ∈ s.shown, x.index < s.dom.size

/-- What all turns keep: the outer anchor stays where it is, the inner one goes nowhere else, and
of the nodes that were shown none stands there that neither morph remembers. -/
structure Accounted (s : Nest) (p : NodeId) : Prop where
  linked : s.dom.Linked
  outer_parent : s.dom.parent? s.outer.anchor = some p
  inner_parent : ∀ q, s.dom.parent? s.inner.anchor = some q → q = p
  anchor_mem : s.inner.anchor ∈ s.shown
  anchor_not_mem : s.outer.anchor ∉ s.shown
  shown : ∀ x ∈ s.outer.nodes ++ s.inner.nodes, x ∈ s.shown
  index_lt : ∀ x ∈ s.shown, x.index < s.dom.size
  remembered : ∀ x ∈ s.shown, s.dom.parent? x = some p → x ∈ s.outer.nodes ∨ x ∈ s.inner.nodes

variable {s : Nest} {p : NodeId}

theorem Starts.accounted (h : s.Starts p) : s.Accounted p where
  linked := h.linked
  outer_parent := h.outer_parent
  inner_parent q hq := by
    rw [h.inner_parent] at hq
    exact (Option.some.inj hq).symm
  anchor_mem := by
    rw [h.shown_eq]
    exact List.mem_append_left _ h.anchor_mem
  anchor_not_mem := h.anchor_not_mem
  shown x hx := by rwa [h.shown_eq]
  index_lt := h.index_lt
  remembered x hx _ := by
    rw [h.shown_eq] at hx
    exact List.mem_append.1 hx

namespace Accounted

/-- An update of one of two morphs leaves no node unaccounted for. -/
theorem remembered_update {m m' other : Morph} {dom dom' : Dom} {shown : List NodeId}
    (hrelinked : m.Relinked dom m' dom') (hanchor : ∀ q, dom.parent? m.anchor = some q → q = p)
    (hlt : ∀ x ∈ shown, x.index < dom.size)
    (h : ∀ x ∈ shown, dom.parent? x = some p → x ∈ m.nodes ∨ x ∈ other.nodes) :
    ∀ x ∈ shown ++ m'.nodes, dom'.parent? x = some p → x ∈ m'.nodes ∨ x ∈ other.nodes := by
  intro x hx hparent
  rcases List.mem_append.1 hx with hx | hx
  · rcases h x hx (hrelinked.parent?_eq_some (hlt x hx) hparent) with hmem | hmem
    · exact .inl (hrelinked.mem_of_parent? (hlt x hx) hmem hanchor hparent)
    · exact .inr hmem
  · exact .inl hx

/-- The nodes that were shown exist after an update, and those that it shows as well. -/
theorem index_lt_update {m m' : Morph} {dom dom' : Dom} {shown : List NodeId}
    (hrelinked : m.Relinked dom m' dom') (hnodes : ∀ x ∈ m.nodes, x ∈ shown)
    (hlt : ∀ x ∈ shown, x.index < dom.size) : ∀ x ∈ shown ++ m'.nodes, x.index < dom'.size := by
  have hsize := hrelinked.size_le
  intro x hx
  rcases List.mem_append.1 hx with hx | hx
  · exact Nat.lt_of_lt_of_le (hlt x hx) hsize
  · rcases hrelinked.mem_or_fresh hx with hold | hfresh
    · exact Nat.lt_of_lt_of_le (hlt x (hnodes x hold)) hsize
    · exact hfresh.2

/-- A node that was there and not shown is not shown by an update. -/
theorem not_mem_update {m m' : Morph} {dom dom' : Dom} {shown : List NodeId} {x : NodeId}
    (hrelinked : m.Relinked dom m' dom') (hnodes : ∀ x ∈ m.nodes, x ∈ shown)
    (hx : x.index < dom.size) (hnot : x ∉ shown) : x ∉ shown ++ m'.nodes := by
  rw [List.mem_append, not_or]
  refine ⟨hnot, fun hmem => ?_⟩
  rcases hrelinked.mem_or_fresh hmem with hold | hfresh
  · exact hnot (hnodes x hold)
  · exact absurd hx (Nat.not_lt.2 hfresh.1)

/-- An update of the outer morph leaves no node unaccounted for. -/
theorem outer (h : s.Accounted p) {value : Value} (hnode : value.isNode = false) :
    (s.take (.outer value)).Accounted p := by
  have hrelinked := s.outer.relinked_update h.linked hnode
  have hnodes : ∀ x ∈ s.outer.nodes, x ∈ s.shown :=
    fun x hx => h.shown x (List.mem_append_left _ hx)
  have hanchor := (h.linked.index_lt h.outer_parent).2
  have hself : s.outer.anchor ∉ s.outer.nodes := fun hmem => h.anchor_not_mem (hnodes _ hmem)
  constructor
  case linked => exact h.linked.update s.outer (by rintro id rfl; cases hnode)
  case outer_parent =>
    show (s.outer.update value s.dom).2.parent? (s.outer.update value s.dom).1.anchor = some p
    rw [Morph.anchor_update, hrelinked.parent?_of_not_mem hanchor hself, h.outer_parent]
  case inner_parent =>
    intro q hq
    exact h.inner_parent q (hrelinked.parent?_eq_some (h.index_lt _ h.anchor_mem) hq)
  case anchor_mem => exact List.mem_append_left _ h.anchor_mem
  case anchor_not_mem =>
    show (s.outer.update value s.dom).1.anchor ∉ s.shown ++ _
    rw [Morph.anchor_update]
    exact not_mem_update hrelinked hnodes hanchor h.anchor_not_mem
  case shown =>
    intro x hx
    rcases List.mem_append.1 hx with hx | hx
    · exact List.mem_append_right _ hx
    · exact List.mem_append_left _ (h.shown x (List.mem_append_right _ hx))
  case index_lt => exact index_lt_update hrelinked hnodes h.index_lt
  case remembered =>
    exact remembered_update hrelinked
      (fun q hq => by rw [h.outer_parent] at hq; exact (Option.some.inj hq).symm) h.index_lt
      h.remembered

/-- An update of the inner morph leaves no node unaccounted for. -/
theorem inner (h : s.Accounted p) {value : Value} (hnode : value.isNode = false) :
    (s.take (.inner value)).Accounted p := by
  have hrelinked := s.inner.relinked_update h.linked hnode
  have hnodes : ∀ x ∈ s.inner.nodes, x ∈ s.shown :=
    fun x hx => h.shown x (List.mem_append_right _ hx)
  have hanchor := (h.linked.index_lt h.outer_parent).2
  have hother : s.outer.anchor ∉ s.inner.nodes := fun hmem => h.anchor_not_mem (hnodes _ hmem)
  constructor
  case linked => exact h.linked.update s.inner (by rintro id rfl; cases hnode)
  case outer_parent =>
    show (s.inner.update value s.dom).2.parent? s.outer.anchor = some p
    rw [hrelinked.parent?_of_not_mem hanchor hother, h.outer_parent]
  case inner_parent =>
    intro q hq
    have hq' : (s.inner.update value s.dom).2.parent? (s.inner.update value s.dom).1.anchor =
        some q := hq
    rw [Morph.anchor_update] at hq'
    exact h.inner_parent q (hrelinked.parent?_eq_some (h.index_lt _ h.anchor_mem) hq')
  case anchor_mem =>
    show (s.inner.update value s.dom).1.anchor ∈ s.shown ++ _
    rw [Morph.anchor_update]
    exact List.mem_append_left _ h.anchor_mem
  case anchor_not_mem => exact not_mem_update hrelinked hnodes hanchor h.anchor_not_mem
  case shown =>
    intro x hx
    rcases List.mem_append.1 hx with hx | hx
    · exact List.mem_append_left _ (h.shown x (List.mem_append_left _ hx))
    · exact List.mem_append_right _ hx
  case index_lt => exact index_lt_update hrelinked hnodes h.index_lt
  case remembered =>
    intro x hx hparent
    exact (remembered_update hrelinked h.inner_parent h.index_lt
      (fun y hy hyp => (h.remembered y hy hyp).symm) x hx hparent).symm

/-- No turns leave a node unaccounted for. -/
theorem run (h : s.Accounted p) {turns : List Turn}
    (hturns : ∀ turn ∈ turns, turn.value.isNode = false) : (s.run turns).Accounted p := by
  induction turns generalizing s with
  | nil => exact h
  | cons turn turns ih =>
    obtain ⟨hturn, hturns⟩ := List.forall_mem_cons.1 hturns
    refine ih ?_ hturns
    cases turn with
    | outer value => exact h.outer hturn
    | inner value => exact h.inner hturn

/-- An update of the outer morph takes out all that was shown, but for what it shows itself then,
exactly where it remembers all nodes of the inner morph that stand there. -/
theorem forall_mem_outer_iff (h : s.Accounted p) {value : Value} (hnode : value.isNode = false) :
    (∀ x ∈ s.shown, x ∈ (s.take (.outer value)).dom.children p →
        x ∈ (s.take (.outer value)).outer.nodes) ↔
      ∀ x ∈ s.inner.nodes, s.dom.parent? x = some p → x ∈ s.outer.nodes := by
  have hrelinked := s.outer.relinked_update h.linked hnode
  have hchildren := (h.outer hnode).linked.mem_children_iff p
  have hanchor : ∀ q, s.dom.parent? s.outer.anchor = some q → q = p := by
    intro q hq
    rw [h.outer_parent] at hq
    exact (Option.some.inj hq).symm
  constructor
  · intro hall x hx hparent
    have hshown := h.shown x (List.mem_append_right _ hx)
    have hlt := h.index_lt x hshown
    by_cases hmem : x ∈ s.outer.nodes
    · exact hmem
    · -- It stays where it is, so that the outer morph shows it, which shows no new one.
      have hstays : (s.take (.outer value)).dom.parent? x = some p :=
        (hrelinked.parent?_of_not_mem hlt hmem).trans hparent
      rcases hrelinked.mem_or_fresh (hall x hshown ((hchildren x).2 hstays)) with hold | hfresh
      · exact hold
      · exact absurd hlt (Nat.not_lt.2 hfresh.1)
  · intro hinner x hx hchild
    have hlt := h.index_lt x hx
    have hstays := (hchildren x).1 hchild
    have hparent := hrelinked.parent?_eq_some hlt hstays
    have hmem : x ∈ s.outer.nodes := by
      rcases h.remembered x hx hparent with hmem | hmem
      · exact hmem
      · exact hinner x hmem hparent
    exact hrelinked.mem_of_parent? hlt hmem hanchor hstays

end Accounted

/-- In whatever order two nested morphs are updated with values that are no nodes, the outer anchor
stays where it is, and an update of the outer morph takes out all that either of them has shown
there, but for what it shows itself then, exactly if it remembers all nodes of the inner one that
stand there. -/
theorem forall_mem_outer_run_iff (h : s.Starts p) {turns : List Turn}
    (hturns : ∀ turn ∈ turns, turn.value.isNode = false) {value : Value}
    (hnode : value.isNode = false) :
    let before := s.run turns
    let after := before.take (.outer value)
    after.dom.parent? after.outer.anchor = some p ∧
      ((∀ x ∈ before.shown, x ∈ after.dom.children p → x ∈ after.outer.nodes) ↔
        ∀ x ∈ before.inner.nodes, before.dom.parent? x = some p → x ∈ before.outer.nodes) := by
  have haccounted := h.accounted.run hturns
  exact ⟨(haccounted.outer hnode).outer_parent, haccounted.forall_mem_outer_iff hnode⟩

/-! ### a text that is left behind -/

/-- A document with an empty text in a `div`, and another one in a fragment. -/
def sampleDom : Dom :=
  [Dom.Operation.create (.element "div" .xhtml {}), .create (.text ""),
    .insertBefore ⟨0⟩ ⟨1⟩ none, .create .fragment, .create (.text ""),
    .insertBefore ⟨2⟩ ⟨3⟩ none].foldl Dom.Operation.apply {}

/-- A morph in the `div` that shows the fragment, and one in front of the text that was in it. -/
def sample : Nest :=
  let (outer, dom) := (Morph.create ⟨1⟩ true none).update (.node ⟨2⟩) sampleDom
  { outer, inner := .create ⟨3⟩ true none, dom, shown := outer.nodes }

theorem reached_sampleDom : sampleDom.Reached := by
  refine Dom.Reached.empty.operations ⟨?_, ?_, ⟨by decide, by decide⟩, ?_, ?_,
    ⟨by decide, by decide⟩, trivial⟩
  · rintro _ _ _ ⟨⟩
    rfl
  · rintro _ _ _ ⟨⟩
  · rintro _ _ _ ⟨⟩
  · rintro _ _ _ ⟨⟩

theorem starts_sample : sample.Starts ⟨0⟩ where
  linked := by
    have hreached : ((Morph.create ⟨1⟩ true none).update (.node ⟨2⟩) sampleDom).2.Reached := by
      refine reached_sampleDom.update _ fun id hid => ?_
      cases hid
      decide +kernel
    exact hreached.consistent.linked
  outer_parent := by decide +kernel
  inner_parent := by decide +kernel
  anchor_mem := by decide +kernel
  anchor_not_mem := by decide +kernel
  shown_eq := by decide +kernel
  index_lt := by decide +kernel

theorem forall_mem_outer_sample :
    let turns : List Turn := [.inner (.string "x"), .outer .null, .inner (.string "y")]
    let before := sample.run turns
    let after := before.take (.outer (.string "z"))
    sample.Starts ⟨0⟩ ∧ (∀ turn ∈ turns, turn.value.isNode = false) ∧
      (Value.string "z").isNode = false ∧ after.dom.parent? after.outer.anchor = some ⟨0⟩ ∧
      ((∀ x ∈ before.shown, x ∈ after.dom.children ⟨0⟩ → x ∈ after.outer.nodes) ↔
        ∀ x ∈ before.inner.nodes, before.dom.parent? x = some ⟨0⟩ → x ∈ before.outer.nodes) := by
  intro turns before after
  have hturns : ∀ turn ∈ turns, turn.value.isNode = false := by decide
  have hnode : (Value.string "z").isNode = false := rfl
  exact ⟨starts_sample, hturns, hnode, forall_mem_outer_run_iff starts_sample hturns hnode⟩

/-- When the inner morph has shown a text, clearing the outer one leaves the text behind. -/
theorem not_forall_mem_outer_sample :
    let before := sample.run [.inner (.string "x")]
    let after := before.take (.outer .null)
    sample.Starts ⟨0⟩ ∧ before.outer.shows .null = false ∧
      after.dom.parent? after.outer.anchor = some ⟨0⟩ ∧
      ¬∀ x ∈ before.shown, x ∈ after.dom.children ⟨0⟩ → x ∈ after.outer.nodes := by
  exact ⟨starts_sample, by decide +kernel, by decide +kernel, by decide +kernel⟩

end Nest

end LiveTemplate
