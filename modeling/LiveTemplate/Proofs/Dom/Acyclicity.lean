import LiveTemplate.Proofs.Dom.Moving
import LiveTemplate.Proofs.Dom.Operations

/-!
# LiveTemplate.Proofs.Dom.Acyclicity

Documents without circles, and all that holds of the documents that come about.

An insertion gives nodes a new parent.  A circle would lead from that parent back to one
of these nodes along the old links, so there is none as long as nothing is inserted below
itself (`Dom.Downward`, `Acyclic.operations`).  Together with what every operation keeps
anyway (`Dom.Consistent`) this is the representation invariant of documents.

In a document without circles a tree is no deeper than the document has nodes, so what is
written of a node depends on what stands below it and on nothing else (`Acyclic.html_congr`).
-/

namespace LiveTemplate

namespace Dom

/-- No node stands below one of its children. -/
def Acyclic (dom : Dom) : Prop := ∀ x p, dom.parent? x = some p → ¬dom.IsBelow p x

variable {dom dom' : Dom} {x y top : NodeId}

/-! ## below -/

theorem IsBelow.eq_or_exists_child (h : dom.IsBelow x top) :
    x = top ∨ ∃ c, dom.parent? c = some top := by
  induction h with
  | refl x => exact .inl rfl
  | @parent x p top hparent _ ih =>
    rcases ih with rfl | hchild
    · exact .inr ⟨x, hparent⟩
    · exact .inr hchild

/-- No other node stands below a node without children. -/
theorem not_isBelow_of_leaf (hlinked : dom.Linked) (hleaf : dom.children top = []) (hne : x ≠ top) :
    ¬dom.IsBelow x top := fun h => by
  rcases h.eq_or_exists_child with heq | ⟨c, hc⟩
  · exact hne heq
  · have hmem := (hlinked.mem_children_iff top c).2 hc
    simp [hleaf] at hmem

/-- A node without a parent stands below nothing but itself. -/
theorem IsBelow.eq_of_root (h : dom.IsBelow x top) (hroot : dom.parent? x = none) : x = top := by
  cases h with
  | refl => rfl
  | parent hparent => simp [hroot] at hparent

theorem IsBelow.index_lt (h : dom.IsBelow x top) (hlinked : dom.Linked) (hx : x.index < dom.size) :
    top.index < dom.size := by
  induction h with
  | refl x => exact hx
  | parent hparent _ ih => exact ih (hlinked.index_lt hparent).1

theorem IsBelow.index_lt_of_top (h : dom.IsBelow x top) (hlinked : dom.Linked)
    (htop : top.index < dom.size) : x.index < dom.size := by
  cases h with
  | refl => exact htop
  | parent hparent => exact (hlinked.index_lt hparent).2

/-- A way up leads up where none of the links that lead up from its start differs. -/
theorem IsBelow.of_links (h : dom'.IsBelow x top)
    (hlinks : ∀ y, dom.IsBelow x y → dom.parent? y = dom'.parent? y) : dom.IsBelow x top := by
  induction h with
  | refl x => exact .refl x
  | @parent x p top hparent _ ih =>
    have hold : dom.parent? x = some p := (hlinks x (.refl x)).trans hparent
    exact .parent hold (ih fun y hy => hlinks y (.parent hold hy))

/-- Nodes in `moved` get the parent `q`, and no other node gets a parent that it did not have.  A
way up that uses new links uses an old one up to a moved node, and an old one from `q` on. -/
theorem IsBelow.of_relinked {moved : List NodeId} {q : NodeId}
    (hlink : ∀ x p, dom'.parent? x = some p → dom.parent? x = some p ∨ x ∈ moved ∧ p = q)
    (hnot : ∀ x ∈ moved, ¬dom.IsBelow q x) (h : dom'.IsBelow x top) :
    dom.IsBelow x top ∨ (∃ y ∈ moved, dom.IsBelow x y) ∧ dom.IsBelow q top := by
  induction h with
  | refl x => exact .inl (.refl x)
  | @parent x p top hparent _ ih =>
    rcases hlink x p hparent with hold | ⟨hx, rfl⟩
    · rcases ih with hbelow | ⟨⟨y, hy, hbelow⟩, hq⟩
      · exact .inl (.parent hold hbelow)
      · exact .inr ⟨⟨y, hy, .parent hold hbelow⟩, hq⟩
    · rcases ih with hbelow | ⟨⟨y, hy, hbelow⟩, -⟩
      · exact .inr ⟨⟨x, hx, .refl x⟩, hbelow⟩
      · exact absurd hbelow (hnot y hy)

/-! ## operations -/

namespace Acyclic

theorem empty : ({} : Dom).Acyclic := by
  intro x p hparent
  have hnone : ({} : Dom).parent? x = none := parent?_of_size_le (Nat.zero_le x.index)
  rw [hnone] at hparent
  cases hparent

/-- Nodes may get a parent that stands below none of them. -/
theorem relink (h : dom.Acyclic) (moved : List NodeId) (q : NodeId)
    (hlink : ∀ x p, dom'.parent? x = some p → dom.parent? x = some p ∨ x ∈ moved ∧ p = q)
    (hnot : ∀ x ∈ moved, ¬dom.IsBelow q x) : dom'.Acyclic := by
  intro x p hparent hbelow
  have hways := hbelow.of_relinked hlink hnot
  rcases hlink x p hparent with hold | ⟨hx, rfl⟩
  · rcases hways with hbelow | ⟨⟨y, hy, hbelow⟩, hq⟩
    · exact h x p hold hbelow
    · exact hnot y hy (hq.trans (.parent hold hbelow))
  · rcases hways with hbelow | ⟨⟨y, hy, hbelow⟩, -⟩
    · exact hnot x hx hbelow
    · exact hnot y hy hbelow

/-- Parents may be lost. -/
theorem unlink (h : dom.Acyclic)
    (hlink : ∀ x p, dom'.parent? x = some p → dom.parent? x = some p) : dom'.Acyclic :=
  h.relink [] ⟨0⟩ (fun x p hp => .inl (hlink x p hp)) (by simp)

theorem changeData (h : dom.Acyclic) (id : NodeId) (f : NodeData → NodeData) :
    (dom.modify id fun r => { r with data := f r.data }).Acyclic := by
  refine h.unlink fun x p hp => ?_
  rw [parent?, record_modify] at hp
  split at hp <;> exact hp

theorem create (h : dom.Acyclic) (data : NodeData) : (dom.create data).2.Acyclic := by
  refine h.unlink fun x p hp => ?_
  rw [parent?, record_create] at hp
  split at hp
  · cases hp
  · exact hp

theorem removeChild (h : dom.Acyclic) (parent child : NodeId) :
    (dom.removeChild parent child).Acyclic := by
  refine h.unlink fun x p hp => ?_
  rw [parent?_removeChild] at hp
  split at hp
  · cases hp
  · exact hp

theorem detach (h : dom.Acyclic) (node : NodeId) : (dom.detach node).Acyclic := by
  rw [Dom.detach]
  split
  · exact h.removeChild _ node
  · exact h

/-- A node or the children of a fragment may be inserted into a node that stands below neither. -/
theorem insertBefore (h : dom.Acyclic) (hlinked : dom.Linked) {parent child : NodeId}
    (hchild : child.index < dom.size) (hnot : ¬dom.IsBelow parent child)
    (reference : Option NodeId) : (dom.insertBefore parent child reference).Acyclic := by
  refine h.relink (dom.moved child) parent (fun x p hp => ?_) fun x hx hbelow => ?_
  · rw [hlinked.parent?_insertBefore hchild] at hp
    split at hp
    · next hx => exact .inr ⟨hx, (Option.some.inj hp).symm⟩
    · exact .inl hp
  · rw [moved] at hx
    split at hx
    · exact hnot (hbelow.trans (.parent ((hlinked.mem_children_iff child x).1 hx) (.refl child)))
    · exact hnot (List.mem_singleton.1 hx ▸ hbelow)

/-- A new node may be put into any other one. -/
theorem appendNew (h : dom.Acyclic) (hlinked : dom.Linked) {parent : NodeId}
    (hparent : parent.index < dom.size) (data : NodeData) :
    ((dom.create data).2.appendChild parent ⟨dom.size⟩).Acyclic := by
  have hcreated := hlinked.create data
  have hleaf : (dom.create data).2.children ⟨dom.size⟩ = [] := by
    rw [children, record_create_new]
  have hne : parent ≠ ⟨dom.size⟩ := by
    rintro rfl
    simp at hparent
  have hnot := not_isBelow_of_leaf hcreated hleaf hne
  exact (h.create data).insertBefore hcreated (by simp) hnot none

mutual

theorem plantTree {dom : Dom} (h : dom.Acyclic) (hlinked : dom.Linked) : (parent : NodeId) →
    (t : Markup) → parent.index < dom.size → (dom.plantTree parent t).Acyclic
  | parent, .node _ data ts, hparent => by
    have hsize := size_append_create dom parent data
    have happended : ((dom.create data).2.appendChild parent ⟨dom.size⟩).Linked :=
      (hlinked.create data).insertBefore (by rw [size_create]; omega) (by simp) none
    rw [Dom.plantTree]
    exact plant (h.appendNew hlinked hparent data) happended ⟨dom.size⟩ ts
      (by rw [hsize]; exact Nat.lt_succ_self _)

theorem plant {dom : Dom} (h : dom.Acyclic) (hlinked : dom.Linked) : (parent : NodeId) →
    (ts : List Markup) → parent.index < dom.size → (dom.plant parent ts).Acyclic
  | parent, [], hparent => h
  | parent, t :: ts, hparent => by
    obtain ⟨hfirst, hle⟩ := hlinked.plantTree parent t hparent
    rw [Dom.plant]
    exact plant (plantTree h hlinked parent t hparent) hfirst parent ts (by omega)

end

theorem plantFragment (h : dom.Acyclic) (hlinked : dom.Linked) (forest : List Markup) :
    (dom.plantFragment forest).2.Acyclic :=
  (h.create .fragment).plant (hlinked.create .fragment) ⟨dom.size⟩ forest (by simp)

end Acyclic

/-- An operation that puts nothing below itself: what is inserted goes into a node that does not
stand below it. -/
def Operation.IsDownward (dom : Dom) : Operation → Prop
  | insertBefore parent child _ => ¬dom.IsBelow parent child
  | create _ | setAttribute .. | removeAttribute .. | setText .. | removeChild .. | detach _
  | parseHtml .. => True

/-- Operations none of which puts anything below itself. -/
def Downward (dom : Dom) : List Operation → Prop
  | [] => True
  | op :: ops => op.IsDownward dom ∧ (op.apply dom).Downward ops

theorem Acyclic.apply (h : dom.Acyclic) (hlinked : dom.Linked) {op : Operation}
    (allowed : op.Allowed dom) (hdownward : op.IsDownward dom) : (op.apply dom).Acyclic := by
  cases op with
  | create data => exact h.create data
  | setAttribute element name value => exact h.changeData element _
  | removeAttribute element name => exact h.changeData element _
  | setText node text => exact h.changeData node _
  | insertBefore parent child reference =>
    exact h.insertBefore hlinked allowed.2 hdownward reference
  | removeChild parent child => exact h.removeChild parent child
  | detach node => exact h.detach node
  | parseHtml html context => exact h.plantFragment hlinked _

/-! ## trees of documents without circles -/

/-- The tree at a node is made of what stands below the node. -/
theorem treeTo_congr (hlinked : dom.Linked)
    (hsame : ∀ x, dom.IsBelow x top → dom'.data x = dom.data x ∧ dom'.children x = dom.children x)
    (depth : Nat) : dom'.treeTo depth top = dom.treeTo depth top := by
  obtain ⟨hdata, hchildren⟩ := hsame top (.refl top)
  induction depth generalizing top with
  | zero => rw [treeTo, treeTo, hdata]
  | succ depth ih =>
    have hkids : (dom.children top).map (dom'.treeTo depth) =
        (dom.children top).map (dom.treeTo depth) := by
      refine List.map_congr_left fun c hc => ?_
      have hparent := (hlinked.mem_children_iff top c).1 hc
      have hbelow : ∀ x, dom.IsBelow x c →
          dom'.data x = dom.data x ∧ dom'.children x = dom.children x :=
        fun x hx => hsame x (hx.trans (.parent hparent (.refl top)))
      exact ih hbelow (hbelow c (.refl c)).1 (hbelow c (.refl c)).2
    rw [treeTo, treeTo, hdata, hchildren, hkids]

/-- Nodes that `top` stands below, but for itself. -/
def Above (dom : Dom) (top : NodeId) (path : List NodeId) : Prop :=
  ∀ y ∈ path, ∃ c, dom.parent? c = some y ∧ dom.IsBelow top c

theorem Above.cons {path : List NodeId} (h : dom.Above top path) {c : NodeId}
    (hparent : dom.parent? c = some top) : dom.Above c (top :: path) := by
  refine List.forall_mem_cons.2 ⟨⟨c, hparent, .refl c⟩, fun y hy => ?_⟩
  obtain ⟨d, hd, hbelow⟩ := h y hy
  exact ⟨d, hd, .parent hparent hbelow⟩

namespace Acyclic

/-- Without circles a node is not among those above it. -/
theorem nodup_cons (h : dom.Acyclic) {path : List NodeId} (hpath : dom.Above top path)
    (hnodup : path.Nodup) : (top :: path).Nodup := by
  refine List.nodup_cons.2 ⟨fun hmem => ?_, hnodup⟩
  obtain ⟨c, hparent, hbelow⟩ := hpath top hmem
  exact h c top hparent hbelow

theorem length_lt_size (h : dom.Acyclic) (hlinked : dom.Linked) {path : List NodeId}
    (hpath : dom.Above top path) (hnodup : path.Nodup) (htop : top.index < dom.size) :
    path.length < dom.size := by
  refine length_le_size (h.nodup_cons hpath hnodup) (List.forall_mem_cons.2 ⟨htop, fun y hy => ?_⟩)
  obtain ⟨c, hparent, -⟩ := hpath y hy
  exact (hlinked.index_lt hparent).1

/-- Without circles the trees at a node down to two depths are the same if neither leaves room for
a node besides those above it. -/
theorem treeTo_eq (h : dom.Acyclic) (hlinked : dom.Linked) {top : NodeId} {path : List NodeId}
    (hpath : dom.Above top path) (hnodup : path.Nodup) (htop : top.index < dom.size)
    {depth depth' : Nat} (hdepth : dom.size ≤ path.length + depth)
    (hdepth' : dom.size ≤ path.length + depth') :
    dom.treeTo depth top = dom.treeTo depth' top := by
  have hlength := h.length_lt_size hlinked hpath hnodup htop
  match depth, depth' with
  | 0, _ => omega
  | _, 0 => omega
  | depth + 1, depth' + 1 =>
    have hkids : (dom.children top).map (dom.treeTo depth) =
        (dom.children top).map (dom.treeTo depth') := by
      refine List.map_congr_left fun c hc => ?_
      have hparent := (hlinked.mem_children_iff top c).1 hc
      exact h.treeTo_eq hlinked (hpath.cons hparent) (h.nodup_cons hpath hnodup)
        (hlinked.index_lt hparent).2 (by rw [List.length_cons]; omega)
        (by rw [List.length_cons]; omega)
    rw [treeTo, treeTo, hkids]

/-- A document without circles is deep enough for its trees. -/
theorem treeTo_eq_tree (h : dom.Acyclic) (hlinked : dom.Linked) (htop : top.index < dom.size)
    {depth : Nat} (hdepth : dom.size ≤ depth) : dom.treeTo depth top = dom.tree top := by
  have habove : dom.Above top [] := nofun
  exact h.treeTo_eq hlinked habove .nil htop (by simpa using hdepth) (by simp)

/-- What is written of a node depends on nothing but what stands below it. -/
theorem html_congr (h : dom.Acyclic) (hlinked : dom.Linked) (htop : top.index < dom.size)
    (hsize : dom.size ≤ dom'.size)
    (hsame : ∀ x, dom.IsBelow x top → dom'.data x = dom.data x ∧ dom'.children x = dom.children x) :
    dom'.html top = dom.html top := by
  rw [html, tree, treeTo_congr hlinked hsame, h.treeTo_eq_tree hlinked htop hsize, html]

end Acyclic

/-! ## documents that come about -/

theorem Acyclic.operations {ops : List Operation} (h : dom.Acyclic) (hreached : dom.Reached)
    (allowed : dom.Allows ops) (hdownward : dom.Downward ops) :
    (ops.foldl Operation.apply dom).Acyclic := by
  induction ops generalizing dom with
  | nil => exact h
  | cons op ops ih =>
    exact ih (h.apply hreached.consistent.linked allowed.1 hdownward.1)
      (hreached.step op allowed.1) allowed.2 hdownward.2

theorem allows_append {ops ops' : List Operation} :
    dom.Allows (ops ++ ops') ↔ dom.Allows ops ∧ (ops.foldl Operation.apply dom).Allows ops' := by
  induction ops generalizing dom with
  | nil => simp [Allows]
  | cons op ops ih => simp [Allows, ih, and_assoc]

/-- No operations take nodes out of existence. -/
theorem Reached.size_le {ops : List Operation} (h : dom.Reached) (allowed : dom.Allows ops) :
    dom.size ≤ (ops.foldl Operation.apply dom).size := by
  induction ops generalizing dom with
  | nil => exact Nat.le_refl _
  | cons op ops ih =>
    exact Nat.le_trans (op.size_le h.consistent.linked) (ih (h.step op allowed.1) allowed.2)

/-- After any operations on the empty document, and before any others: children and parents agree,
no node is a child twice, no attribute of an element occurs twice, and no fragment has a parent or
is a child; all nodes that are linked exist, and no node goes out of existence.  If none of the
operations has put anything below itself, no node stands below one of its children. -/
theorem consistent_operations {ops ops' : List Operation}
    (allowed : ({} : Dom).Allows (ops ++ ops')) :
    let dom := ops.foldl Operation.apply {}
    dom.Consistent ∧
      (∀ p, ∀ x ∈ dom.children p,
        (dom.data x).isFragment = false ∧ x.index < dom.size ∧ p.index < dom.size) ∧
      dom.size ≤ (ops'.foldl Operation.apply dom).size ∧
      (({} : Dom).Downward ops → dom.Acyclic) := by
  intro dom
  obtain ⟨hallowed, hallowed'⟩ := allows_append.1 allowed
  have hreached : dom.Reached := Reached.empty.operations hallowed
  have hconsistent := hreached.consistent
  refine ⟨hconsistent, fun p x hx => ?_, hreached.size_le hallowed',
    Acyclic.empty.operations .empty hallowed⟩
  have hparent := (hconsistent.linked.mem_children_iff p x).1 hx
  obtain ⟨hp, hx⟩ := hconsistent.linked.index_lt hparent
  exact ⟨hconsistent.not_isFragment x p hparent, hx, hp⟩

/-- Operations that fill a `div` from a fragment, and none of which puts anything below itself. -/
def filling : List Operation :=
  [.create (.element "div" .xhtml {}), .create .fragment, .create (.text ""),
    .insertBefore ⟨1⟩ ⟨2⟩ none, .insertBefore ⟨0⟩ ⟨1⟩ none]

/-- Operations that read HTML for the `div`, put it there, and insert a fragment into itself. -/
def refilling : List Operation :=
  [.parseHtml "<p a=1 a=2>x</p>" (some ⟨0⟩), .insertBefore ⟨0⟩ ⟨3⟩ (some ⟨2⟩),
    .insertBefore ⟨1⟩ ⟨1⟩ none]

theorem consistent_operations_filling :
    ({} : Dom).Allows (filling ++ refilling) ∧ ({} : Dom).Downward filling ∧
      let dom := filling.foldl Operation.apply {}
      dom.Consistent ∧
        (∀ p, ∀ x ∈ dom.children p,
          (dom.data x).isFragment = false ∧ x.index < dom.size ∧ p.index < dom.size) ∧
        dom.size ≤ (refilling.foldl Operation.apply dom).size ∧ dom.Acyclic := by
  have allowed : ({} : Dom).Allows (filling ++ refilling) := by
    refine ⟨?_, ?_, ?_, ⟨by decide, by decide⟩, ⟨by decide, by decide⟩, trivial,
      ⟨by decide +kernel, by decide +kernel⟩, ⟨by decide +kernel, by decide +kernel⟩, trivial⟩
    · rintro _ _ _ ⟨⟩
      rfl
    · rintro _ _ _ ⟨⟩
    · rintro _ _ _ ⟨⟩
  have hdownward : ({} : Dom).Downward filling := by
    refine ⟨trivial, trivial, trivial, fun hbelow => ?_, fun hbelow => ?_, trivial⟩
    · cases hbelow.eq_of_root (by decide)
    · cases hbelow.eq_of_root (by decide)
  obtain ⟨hconsistent, hchildren, hsize, hacyclic⟩ := consistent_operations allowed
  exact ⟨allowed, hdownward, hconsistent, hchildren, hsize, hacyclic hdownward⟩

end Dom

end LiveTemplate
