import LiveTemplate.Proofs.Morph.Updating
import LiveTemplate.Proofs.Render.Sites

/-!
# LiveTemplate.Proofs.Morph.Following

Whether what a morph shows follows its anchor.

An update looks for the nodes that the morph remembers below the anchor's parent of today,
and for a text to reuse wherever that is.  So after the document has changed in whatever
way (`World.Reached`), an update puts the value in front of the anchor and leaves nothing of
the old content behind exactly where what is remembered is still in step with the anchor
(`Morph.InStep`).
-/

namespace LiveTemplate

variable {σ : Type}

/-! ## what may happen -/

/-- What may happen to a document and its morphs. -/
inductive Event where
  | operate (op : Dom.Operation)
  | addMorph (anchor : NodeId) (escaped : Bool) (context : Option NodeId)
  | update (id : MorphId) (value : Value)
  | setEscaped (id : MorphId) (escaped : Bool)
  | setContext (id : MorphId) (context : Option NodeId)

/-- The world after an event. -/
def World.after (w : World σ) : Event → World σ
  | .operate op => { w with dom := op.apply w.dom }
  | .addMorph anchor escaped context => (w.addMorph (.create anchor escaped context)).2
  | .update id value => w.updateMorph id value
  | .setEscaped id escaped => w.modifyMorph id fun m => { m with escaped }
  | .setContext id context => w.modifyMorph id fun m => { m with context }

/-- The events that may happen in a world: those about nodes that it has. -/
def Event.Allowed (w : World σ) : Event → Prop
  | .operate op => op.Allowed w.dom
  | .update _ value => ∀ id, value = .node id → id.index < w.dom.size
  | .addMorph .. | .setEscaped .. | .setContext .. => True

/-- The worlds that events make of one without nodes and morphs. -/
inductive World.Reached : World σ → Prop where
  | start {w : World σ} (dom : w.dom = {}) (morphs : w.morphs = #[]) : Reached w
  | event {w : World σ} (h : Reached w) (e : Event) (allowed : e.Allowed w) : Reached (w.after e)

/-- The nodes that a morph remembers exist after an update, if those before did. -/
theorem Morph.index_lt_update {dom : Dom} (h : dom.Linked) (m : Morph) {value : Value}
    (hvalue : ∀ id, value = .node id → id.index < dom.size)
    (hnodes : ∀ x ∈ m.nodes, x.index < dom.size) :
    dom.size ≤ (m.update value dom).2.size ∧
      ∀ x ∈ (m.update value dom).1.nodes, x.index < (m.update value dom).2.size := by
  have hway := m.way_update value dom
  generalize m.update value dom = result at hway ⊢
  cases hway with
  | idle _ => exact ⟨Nat.le_refl _, hnodes⟩
  | detached _ _ => exact ⟨Nat.le_refl _, hnodes⟩
  | reuse _ _ _ =>
    simp only [Dom.size_setText]
    exact ⟨Nat.le_refl _, hnodes⟩
  | replace _ hanchor _ =>
    have hput := m.put_replace h (h.index_lt hanchor).1 hvalue
    exact ⟨hput.size_le, hput.index_lt⟩

/-! ### worlds that are reached -/

/-- The document has come about by operations, and the nodes that its morphs remember exist. -/
structure World.Tracked (w : World σ) : Prop where
  dom : w.dom.Reached
  index_lt : ∀ id m, w.morph? id = some m → ∀ x ∈ m.nodes, x.index < w.dom.size

namespace World.Tracked

variable {w : World σ}

/-- Changing no nodes of morphs and taking no node out of existence keeps track. -/
theorem change (h : w.Tracked) {w' : World σ} (hdom : w'.dom.Reached)
    (hsize : w.dom.size ≤ w'.dom.size)
    (hmorph : ∀ id m, w'.morph? id = some m →
      m.nodes = [] ∨ ∃ n, w.morph? id = some n ∧ m.nodes = n.nodes) :
    w'.Tracked where
  dom := hdom
  index_lt id m hm x hx := by
    rcases hmorph id m hm with hnil | ⟨n, hn, hnodes⟩
    · rw [hnil] at hx
      cases hx
    · rw [hnodes] at hx
      exact Nat.lt_of_lt_of_le (h.index_lt id n hn x hx) hsize

theorem modifyMorph (h : w.Tracked) (id : MorphId) {f : Morph → Morph}
    (hf : ∀ m, (f m).nodes = m.nodes) : (w.modifyMorph id f).Tracked := by
  refine h.change h.dom (Nat.le_refl _) fun id' m hm => .inr ?_
  rw [morph?_modifyMorph] at hm
  split at hm
  · obtain ⟨n, hn, rfl⟩ := Option.map_eq_some_iff.1 hm
    exact ⟨n, hn, hf n⟩
  · exact ⟨m, hm, rfl⟩

theorem updateMorph (h : w.Tracked) (id : MorphId) {value : Value}
    (hvalue : ∀ id, value = .node id → id.index < w.dom.size) :
    (w.updateMorph id value).Tracked := by
  cases hm : w.morph? id with
  | none =>
    rw [World.updateMorph, hm]
    exact h
  | some m =>
    obtain ⟨hsize, hnodes⟩ := m.index_lt_update h.dom.consistent.linked hvalue (h.index_lt id m hm)
    refine ⟨?_, fun id' m' hm' x hx => ?_⟩
    · rw [dom_updateMorph hm]
      exact h.dom.update m hvalue
    · rw [morph?_updateMorph hm] at hm'
      rw [dom_updateMorph hm]
      split at hm'
      · cases hm'
        exact hnodes x hx
      · exact Nat.lt_of_lt_of_le (h.index_lt id' m' hm' x hx) hsize

/-- An event keeps track of nodes. -/
theorem after (h : w.Tracked) {e : Event} (allowed : e.Allowed w) : (w.after e).Tracked := by
  cases e with
  | operate op =>
    exact h.change (h.dom.step op allowed) (op.size_le h.dom.consistent.linked)
      fun id m hm => .inr ⟨m, hm, rfl⟩
  | addMorph anchor escaped context =>
    refine h.change h.dom (Nat.le_refl _) fun id m hm => ?_
    rw [World.after, morph?_addMorph] at hm
    split at hm
    · cases hm
      exact .inl rfl
    · exact .inr ⟨m, hm, rfl⟩
  | update id value => exact h.updateMorph id allowed
  | setEscaped id escaped => exact h.modifyMorph id fun _ => rfl
  | setContext id context => exact h.modifyMorph id fun _ => rfl

end World.Tracked

/-- In whatever order events have happened, all nodes have been kept track of. -/
theorem World.Reached.tracked {w : World σ} (h : w.Reached) : w.Tracked := by
  induction h with
  | @start w dom morphs =>
    refine ⟨by rw [dom]; exact .empty, fun id m hm => ?_⟩
    rw [morph?, morphs] at hm
    cases hm
  | event _ e allowed ih => exact ih.after allowed

/-- Events that may happen one after the other. -/
def World.Allows (w : World σ) : List Event → Prop
  | [] => True
  | e :: events => e.Allowed w ∧ (w.after e).Allows events

theorem World.Reached.events {w : World σ} (h : w.Reached) {events : List Event}
    (allowed : w.Allows events) : (events.foldl World.after w).Reached := by
  induction events generalizing w with
  | nil => exact h
  | cons e events ih => exact ih (h.event e allowed.1) allowed.2

/-! ## following the anchor -/

/-- Nodes show a value that is no node: none a nullish one, a text with it one that is shown as
text, and the trees that it describes as HTML, read in the namespace `ns`, any other one. -/
def Dom.Renders (dom : Dom) (nodes : List NodeId) (escaped : Bool) (ns : Namespace)
    (value : Value) : Prop :=
  if value.isNullish then nodes = []
  else if escaped then ∃ n, nodes = [n] ∧ dom.data n = .text value.text
  else ∃ q trees, nodes = rootLabels trees ∧ dom.HoldsAll q trees ∧
    shapes trees = forestOfHtml ns value.text

/-- An update of `m` in `dom`, which made it `m'` in `dom'`, has put the value in front of the
anchor, below the anchor's parent `p`, and has left nothing behind. -/
structure Morph.Follows (m : Morph) (dom : Dom) (m' : Morph) (dom' : Dom) (value : Value)
    (p : NodeId) : Prop where
  /-- The nodes of the morph stand directly before the anchor. -/
  stands : ∃ before after, dom'.children p = before ++ m'.nodes ++ m.anchor :: after
  renders : dom'.Renders m'.nodes m.escaped (dom.nsBelow m.context) value
  /-- What was shown before is shown again, or stands nowhere. -/
  gone : ∀ x ∈ m.nodes, x ∉ m'.nodes → dom'.parent? x = none

/-- What a morph remembers is where an update looks for it: a text to reuse directly before the
anchor, and other nodes below the anchor's parent or nowhere. -/
def Morph.InStep (m : Morph) (value : Value) (dom : Dom) (p : NodeId) : Prop :=
  match m.reusable? value dom with
  | some n => ∃ before after, dom.children p = before ++ n :: m.anchor :: after
  | none => m.anchor ∉ m.nodes ∧ ∀ x ∈ m.nodes, dom.parent? x = none ∨ dom.parent? x = some p

namespace Morph

variable {m : Morph} {value : Value} {dom : Dom} {p : NodeId}

/-- The trees of a value show it wherever they are held. -/
theorem renders_newTrees {dom' : Dom} {q : Option NodeId}
    (hholds : dom'.HoldsAll q (m.newTrees value dom)) :
    dom'.Renders (rootLabels (m.newTrees value dom)) m.escaped (dom.nsBelow m.context) value := by
  rw [newTrees] at hholds ⊢
  rw [Dom.Renders]
  by_cases hnull : value.isNullish = true
  · rw [if_pos hnull, if_pos hnull]
    rfl
  · rw [if_neg hnull] at hholds ⊢
    rw [if_neg hnull]
    by_cases hescaped : m.escaped = true
    · rw [if_pos hescaped] at hholds ⊢
      rw [if_pos hescaped]
      exact ⟨_, rfl, Dom.data_of_record hholds.1.2.1⟩
    · rw [if_neg hescaped] at hholds ⊢
      rw [if_neg hescaped]
      exact ⟨q, _, rfl, hholds, shapes_numberForest ..⟩

/-- A text that is reused shows the value. -/
theorem renders_reusable {n : NodeId} (hreusable : m.reusable? value dom = some n)
    (ns : Namespace) : (dom.setText n value.text).Renders m.nodes m.escaped ns value := by
  obtain ⟨hescaped, hnull, hnodes, htext⟩ := reusable?_eq_some hreusable
  rw [Dom.Renders, if_neg (by simp [hnull]), if_pos hescaped]
  exact ⟨n, hnodes, Dom.data_setText_self htext value.text⟩

/-- An update that reuses a text follows the anchor where the text stands directly before it. -/
theorem follows_of_reusable_iff {n : NodeId} (hshows : m.shows value = false)
    (hanchor : dom.parent? m.anchor = some p) (hreusable : m.reusable? value dom = some n) :
    m.Follows dom (m.update value dom).1 (m.update value dom).2 value p ↔
      ∃ before after, dom.children p = before ++ n :: m.anchor :: after := by
  obtain ⟨-, -, hnodes, -⟩ := reusable?_eq_some hreusable
  have hchildren : (dom.setText n value.text).children p = dom.children p := Dom.children_setText ..
  rw [update_of_reusable hshows hanchor hreusable]
  constructor
  · rintro ⟨⟨before, after, hstands⟩, -, -⟩
    refine ⟨before, after, ?_⟩
    rw [← hchildren, hstands, showing, hnodes, List.append_assoc]
    rfl
  · rintro ⟨before, after, hstands⟩
    refine ⟨⟨before, after, ?_⟩, renders_reusable hreusable _, fun x hx hx' => absurd hx hx'⟩
    rw [hchildren, hstands, showing, hnodes, List.append_assoc]
    rfl

/-- An update that replaces nodes puts the new ones directly before the anchor, unless the morph
remembers the anchor itself. -/
theorem exists_children_update (hlinked : dom.Linked) (hnode : value.isNode = false)
    (hshows : m.shows value = false) (hanchor : dom.parent? m.anchor = some p)
    (hreusable : m.reusable? value dom = none) (hself : m.anchor ∉ m.nodes) :
    ∃ before after, (m.update value dom).2.children p =
      before ++ (m.update value dom).1.nodes ++ m.anchor :: after := by
  obtain ⟨hmorph, hreplaced⟩ := update_of_not_reusable hlinked hnode hshows hanchor hreusable
  have hmem : m.anchor ∈ (removeNodes dom p m.nodes).children p := by
    rw [Dom.children_removeNodes, if_pos rfl, List.mem_filter, hlinked.mem_children_iff]
    exact ⟨hanchor, by simpa using hself⟩
  obtain ⟨before, after, hsplit⟩ := List.append_of_mem hmem
  have hbefore : m.anchor ∉ before :=
    ((hlinked.removeNodes p m.nodes).not_mem_of_children_eq hsplit).1
  have hrecord := hreplaced.record_parent before after (by simpa using hsplit)
    (by simpa using hbefore) (by simp)
  exact ⟨before, after, by rw [Dom.children_of_record hrecord, hmorph]; rfl⟩

/-- An update that replaces nodes remembers none of those that were there. -/
theorem not_mem_nodes_update (hlinked : dom.Linked) (hnode : value.isNode = false)
    (hshows : m.shows value = false) (hanchor : dom.parent? m.anchor = some p)
    (hreusable : m.reusable? value dom = none) {x : NodeId} (hx : x.index < dom.size) :
    x ∉ (m.update value dom).1.nodes := by
  intro hmem
  rw [(update_of_not_reusable hlinked hnode hshows hanchor hreusable).1] at hmem
  have hfresh := (m.labels_newTrees hnode dom).2 x (mem_forestLabels_of_mem_rootLabels hmem)
  exact absurd hx (Nat.not_lt.2 hfresh)

/-- An update that replaces nodes follows the anchor where these stand below its parent or
nowhere. -/
theorem follows_of_not_reusable_iff (hlinked : dom.Linked)
    (hnodes : ∀ x ∈ m.nodes, x.index < dom.size) (hnode : value.isNode = false)
    (hshows : m.shows value = false) (hanchor : dom.parent? m.anchor = some p)
    (hreusable : m.reusable? value dom = none) :
    m.Follows dom (m.update value dom).1 (m.update value dom).2 value p ↔
      m.anchor ∉ m.nodes ∧ ∀ x ∈ m.nodes, dom.parent? x = none ∨ dom.parent? x = some p := by
  have hparent := fun (x : NodeId) (hx : x ∈ m.nodes) =>
    parent?_update_of_not_reusable hlinked hnode hshows hanchor hreusable (hnodes x hx)
  constructor
  · rintro ⟨⟨before, after, hstands⟩, -, hgone⟩
    refine ⟨fun hmem => ?_, fun x hx => ?_⟩
    · -- An anchor that is taken out itself does not stand behind anything.
      have hlinked' : (m.update value dom).2.Linked :=
        hlinked.update m (by rintro id rfl; cases hnode)
      have hstill : (m.update value dom).2.parent? m.anchor = some p := by
        rw [← hlinked'.mem_children_iff, hstands]
        simp
      rw [hparent m.anchor hmem, if_pos ⟨hmem, hanchor⟩] at hstill
      cases hstill
    · have hnone := hgone x hx
        (not_mem_nodes_update hlinked hnode hshows hanchor hreusable (hnodes x hx))
      rw [hparent x hx] at hnone
      split at hnone
      · next hp => exact .inr hp.2
      · exact .inl hnone
  · rintro ⟨hself, hold⟩
    refine ⟨exists_children_update hlinked hnode hshows hanchor hreusable hself, ?_,
      fun x hx _ => ?_⟩
    · obtain ⟨hmorph, hreplaced⟩ := update_of_not_reusable hlinked hnode hshows hanchor hreusable
      rw [hmorph]
      exact renders_newTrees hreplaced.holds
    · rw [hparent x hx]
      rcases hold x hx with hnone | hsome
      · rw [hnone, ite_self]
      · rw [if_pos ⟨hx, hsome⟩]

/-- An update follows the anchor exactly where what the morph remembers is in step with it. -/
theorem follows_update_iff (hlinked : dom.Linked) (hnodes : ∀ x ∈ m.nodes, x.index < dom.size)
    (hnode : value.isNode = false) (hshows : m.shows value = false)
    (hanchor : dom.parent? m.anchor = some p) :
    m.Follows dom (m.update value dom).1 (m.update value dom).2 value p ↔
      m.InStep value dom p := by
  rw [InStep]
  cases hreusable : m.reusable? value dom with
  | some n => exact follows_of_reusable_iff hshows hanchor hreusable
  | none => exact follows_of_not_reusable_iff hlinked hnodes hnode hshows hanchor hreusable

end Morph

/-- Whatever has happened before, an update with a value that is not shown and no node puts it in
front of the anchor and leaves nothing behind exactly where what the morph remembers is in step
with its anchor. -/
theorem World.follows_updateMorph_iff {w : World σ} (h : w.Reached) {id : MorphId} {m : Morph}
    (hm : w.morph? id = some m) {value : Value} (hnode : value.isNode = false)
    (hshows : m.shows value = false) {p : NodeId} (hanchor : w.dom.parent? m.anchor = some p) :
    (∃ m', (w.updateMorph id value).morph? id = some m' ∧
        m.Follows w.dom m' (w.updateMorph id value).dom value p) ↔
      m.InStep value w.dom p := by
  rw [morph?_updateMorph hm, if_pos rfl, dom_updateMorph hm]
  simp only [Option.some.injEq, exists_eq_left']
  exact m.follows_update_iff h.tracked.dom.consistent.linked (h.tracked.index_lt id m hm) hnode
    hshows hanchor

/-! ### a text that stays behind -/

/-- A morph in front of an empty text in a `div`, with a `span` that stands nowhere. -/
def World.sample : World Unit :=
  [Event.operate (.create (.element "div" .xhtml {})), .operate (.create (.text "")),
    .operate (.insertBefore ⟨0⟩ ⟨1⟩ none), .operate (.create (.element "span" .xhtml {})),
    .addMorph ⟨1⟩ true none, .update ⟨0⟩ (.string "a")].foldl World.after { notes := () }

/-- The morph of the sample, which shows a text. -/
def Morph.sample : Morph where
  anchor := ⟨1⟩
  nodes := [⟨3⟩]
  escaped := true
  context := none
  value := some (.string "a")
  shownEscaped := true

theorem World.reached_sample : World.sample.Reached := by
  have helement : ∀ (w : World Unit) (tag : String) (ns : Namespace),
      (Event.operate (.create (.element tag ns {}))).Allowed w := by
    rintro w tag ns _ _ _ ⟨⟩
    rfl
  have htext : ∀ (w : World Unit) (s : String), (Event.operate (.create (.text s))).Allowed w := by
    rintro w s _ _ _ ⟨⟩
  have hstring : ∀ (w : World Unit) (id : MorphId) (s : String),
      (Event.update id (.string s)).Allowed w := by
    rintro w id s _ ⟨⟩
  exact World.Reached.events (.start rfl rfl) ⟨helement _ _ _, htext _ _,
    ⟨by decide, by decide⟩, helement _ _ _, trivial, hstring _ _ _, trivial⟩

theorem World.follows_updateMorph_sample :
    World.sample.Reached ∧ World.sample.morph? ⟨0⟩ = some Morph.sample ∧
      (Value.string "b").isNode = false ∧ Morph.sample.shows (.string "b") = false ∧
      World.sample.dom.parent? ⟨1⟩ = some ⟨0⟩ ∧
      ((∃ m', (World.sample.updateMorph ⟨0⟩ (.string "b")).morph? ⟨0⟩ = some m' ∧
          Morph.sample.Follows World.sample.dom m'
            (World.sample.updateMorph ⟨0⟩ (.string "b")).dom (.string "b") ⟨0⟩) ↔
        Morph.sample.InStep (.string "b") World.sample.dom ⟨0⟩) := by
  have hm : World.sample.morph? ⟨0⟩ = some Morph.sample := rfl
  have hshows : Morph.sample.shows (.string "b") = false := by decide
  have hanchor : World.sample.dom.parent? ⟨1⟩ = some ⟨0⟩ := by decide +kernel
  exact ⟨reached_sample, hm, rfl, hshows, hanchor,
    follows_updateMorph_iff reached_sample hm rfl hshows hanchor⟩

/-- When the anchor has been moved without the text in front of it, the text is changed where it
was left, and nothing is put in front of the anchor. -/
theorem World.not_follows_sample :
    let w := World.sample.after (.operate (.insertBefore ⟨2⟩ ⟨1⟩ none))
    w.Reached ∧ w.morph? ⟨0⟩ = some Morph.sample ∧ Morph.sample.shows (.string "b") = false ∧
      w.dom.parent? ⟨1⟩ = some ⟨2⟩ ∧
      ¬∃ m', (w.updateMorph ⟨0⟩ (.string "b")).morph? ⟨0⟩ = some m' ∧
        Morph.sample.Follows w.dom m' (w.updateMorph ⟨0⟩ (.string "b")).dom (.string "b") ⟨2⟩ := by
  intro w
  have hm : w.morph? ⟨0⟩ = some Morph.sample := rfl
  refine ⟨.event reached_sample _ ⟨by decide, by decide⟩, hm, by decide, by decide +kernel, ?_⟩
  rintro ⟨m', hm', ⟨before, after, hstands⟩, -, -⟩
  have hchildren : (w.updateMorph ⟨0⟩ (.string "b")).dom.children ⟨2⟩ = [⟨1⟩] := by decide +kernel
  have hnodes : ((w.updateMorph ⟨0⟩ (.string "b")).morph? ⟨0⟩).map (·.nodes) = some [⟨3⟩] := by
    decide +kernel
  rw [hm', Option.map_some, Option.some.injEq] at hnodes
  rw [hchildren, hnodes] at hstands
  have hlength := congrArg List.length hstands
  simp only [List.length_append, List.length_cons, List.length_nil] at hlength
  omega

end LiveTemplate
