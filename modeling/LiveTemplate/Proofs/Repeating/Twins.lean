import LiveTemplate.Proofs.Dom.Moving
import LiveTemplate.Proofs.Dom.Replacing
import LiveTemplate.Render.Program
import Mathlib.Data.List.Forall2

/-!
# LiveTemplate.Proofs.Repeating.Twins

Documents to which the same is added.

1. Two renders start with a document each.  The `k`-th node that one of them creates and the
   `k`-th node that the other creates are twins.
2. The documents have grown alike (`GrownAlike`) if the nodes they started with are as they
   were, and each other node is what its twin is, with twins for its parent and its children.
3. Doing the same to twins keeps documents grown alike, and whatever is read off them is alike.
   There is one lemma for every operation.  All of them come down to `create` and `modify`.
-/

namespace LiveTemplate

/-! ## twins -/

/-- Where a render starts: the document, how many morphs there are, and the element as whose
content it renders. -/
structure Start where
  dom : Dom
  morphs : Nat
  context : Option NodeId

section Alike

variable (s s' : Start)

/-- One is the `k`-th node that is created after one start, the other the `k`-th after the other. -/
def NodeId.Twin (a b : NodeId) : Prop := ∃ k, a = ⟨s.dom.size + k⟩ ∧ b = ⟨s'.dom.size + k⟩

/-- Nodes that are the same, in the places of twins. -/
structure NodeRecord.Alike (r r' : NodeRecord) : Prop where
  data : r.data = r'.data
  parent : Option.Rel (NodeId.Twin s s') r.parent r'.parent
  children : List.Forall₂ (NodeId.Twin s s') r.children r'.children

/-- Documents to which the same was added, and which have not changed otherwise. -/
structure Dom.GrownAlike (dom dom' : Dom) : Prop where
  left : s.dom.Extends dom
  right : s'.dom.Extends dom'
  exists_size : ∃ created, dom.size = s.dom.size + created ∧ dom'.size = s'.dom.size + created
  record : ∀ a b, NodeId.Twin s s' a b → (dom.record a).Alike s s' (dom'.record b)

/-- The starts have elements of the same tag and namespace, or none. -/
def Start.Similar : Prop :=
  Option.Rel (fun a b => ∃ tag ns attributes attributes',
    s.dom.data a = .element tag ns attributes ∧ s'.dom.data b = .element tag ns attributes')
    s.context s'.context

/-- Elements as whose content is rendered: none, those of the starts, or twins. -/
inductive Start.Place : Option NodeId → Option NodeId → Prop where
  | none : Place none none
  | given : Place s.context s'.context
  | twins {a b : NodeId} (h : a.Twin s s' b) : Place (some a) (some b)

/-- Trees of the same nodes, apart from twins. -/
inductive Tree.Alike : Tree NodeId → Tree NodeId → Prop where
  | node {a b : NodeId} (data : NodeData) {ts ts' : List (Tree NodeId)} (h : a.Twin s s' b)
    (children : List.Forall₂ Tree.Alike ts ts') : Tree.Alike (.node a data ts) (.node b data ts')

/-- Roots of the same kind, at twins. -/
inductive Root.Alike : Root → Root → Prop where
  | single {a b : NodeId} (h : a.Twin s s' b) : Alike (.single a) (.single b)
  | sequence {a b : NodeId} (h : a.Twin s s' b) : Alike (.sequence a) (.sequence b)

end Alike

section Twins

variable {s s' : Start} {a b c d : NodeId}

/-- A node has one twin. -/
theorem NodeId.Twin.eq_iff (h : a.Twin s s' b) (h' : c.Twin s s' d) : a = c ↔ b = d := by
  obtain ⟨k, rfl, rfl⟩ := h
  obtain ⟨l, rfl, rfl⟩ := h'
  simp only [NodeId.mk.injEq, Nat.add_left_cancel_iff]

theorem NodeId.Twin.left_le (h : a.Twin s s' b) : s.dom.size ≤ a.index := by
  obtain ⟨k, rfl, -⟩ := h
  exact Nat.le_add_right ..

theorem NodeId.Twin.right_le (h : a.Twin s s' b) : s'.dom.size ≤ b.index := by
  obtain ⟨k, -, rfl⟩ := h
  exact Nat.le_add_right ..

theorem NodeId.Twin.eq_some_iff {p q : Option NodeId} (h : Option.Rel (NodeId.Twin s s') p q)
    (hab : a.Twin s s' b) : p = some a ↔ q = some b := by
  cases h with
  | none => simp
  | some h => rw [Option.some.injEq, Option.some.injEq, h.eq_iff hab]

/-- What is rendered within something is rendered as its content. -/
theorem Start.Place.or {p q p' q' : Option NodeId} (h : s.Place s' p q) (h' : s.Place s' p' q')
    (hsimilar : s.Similar s') : s.Place s' (p.or p') (q.or q') := by
  cases h with
  | none => exact h'
  | twins h => exact .twins h
  | given =>
    have hgiven : s.Place s' s.context s'.context := .given
    unfold Start.Similar at hsimilar
    cases hcontext : s.context <;> cases hcontext' : s'.context <;>
      rw [hcontext, hcontext'] at hsimilar hgiven
    · exact h'
    · cases hsimilar
    · cases hsimilar
    · exact hgiven

/-! ## siblings -/

variable {siblings siblings' moved moved' : List NodeId}

theorem Dom.forall₂_insertAmong {p q : Option NodeId}
    (hsiblings : List.Forall₂ (NodeId.Twin s s') siblings siblings')
    (hmoved : List.Forall₂ (NodeId.Twin s s') moved moved')
    (h : Option.Rel (NodeId.Twin s s') p q) :
    List.Forall₂ (NodeId.Twin s s') (insertAmong siblings moved p)
      (insertAmong siblings' moved' q) := by
  cases h with
  | none => exact List.rel_append hsiblings hmoved
  | @some c d hcd =>
    have hsplit : List.Forall₂ (NodeId.Twin s s') (siblings.takeWhile (· ≠ c))
          (siblings'.takeWhile (· ≠ d)) ∧
        List.Forall₂ (NodeId.Twin s s') (siblings.dropWhile (· ≠ c))
          (siblings'.dropWhile (· ≠ d)) := by
      induction hsiblings with
      | nil => exact ⟨.nil, .nil⟩
      | @cons x y xs ys hxy hrest ih =>
        rw [List.takeWhile_cons, List.takeWhile_cons, List.dropWhile_cons, List.dropWhile_cons]
        by_cases hx : x = c
        · simp only [hx, (hxy.eq_iff hcd).1 hx, ne_eq, not_true, decide_false]
          exact ⟨.nil, .cons hcd hrest⟩
        · simp only [hx, mt (hxy.eq_iff hcd).2 hx, ne_eq, not_false_iff, decide_true]
          exact ⟨.cons hxy ih.1, ih.2⟩
    exact List.rel_append (List.rel_append hsplit.1 hmoved) hsplit.2

end Twins

/-- Lists that agree item by item do so at every index. -/
theorem forall₂_getElem? {α β : Type} {R : α → β → Prop} {xs : List α} {ys : List β}
    (h : List.Forall₂ R xs ys) (index : Nat) : Option.Rel R xs[index]? ys[index]? := by
  induction h generalizing index with
  | nil => exact .none
  | cons hxy _ ih =>
    cases index with
    | zero => exact .some hxy
    | succ index => exact ih index

/-! ## documents that grow -/

/-- An element stays what it is. -/
theorem Dom.Extends.data_of_element {base dom : Dom} (h : base.Extends dom) {id : NodeId}
    {tag : String} {ns : Namespace} {attributes : Dict String}
    (hdata : base.data id = .element tag ns attributes) :
    dom.data id = .element tag ns attributes := by
  have hlt : id.index < base.size := index_lt_of_isElement (by rw [hdata]; rfl)
  rw [data, h.record_eq id hlt]
  exact hdata

namespace Start.Similar

variable {s s' : Start} (h : s.Similar s')

include h

theorem symm : s'.Similar s := by
  unfold Similar at h ⊢
  generalize s.context = p at h ⊢
  generalize s'.context = q at h ⊢
  cases h with
  | none => exact .none
  | some h =>
    obtain ⟨tag, ns, attributes, attributes', hdata, hdata'⟩ := h
    exact .some ⟨tag, ns, attributes', attributes, hdata', hdata⟩

/-- The elements as whose content is rendered exist. -/
theorem context_lt {id : NodeId} (hid : s.context = some id) : id.index < s.dom.size := by
  unfold Similar at h
  rw [hid] at h
  generalize s'.context = q at h
  cases h with
  | some h =>
    obtain ⟨tag, ns, attributes, -, hdata, -⟩ := h
    exact Dom.index_lt_of_isElement (by rw [hdata]; rfl)

end Start.Similar

/-- Changing a new node leaves the others as they are. -/
theorem Dom.Extends.modify {base dom : Dom} (h : base.Extends dom) {id : NodeId}
    (hid : base.size ≤ id.index) (f : NodeRecord → NodeRecord) :
    base.Extends (dom.modify id f) where
  size_le := by
    rw [size_modify]
    exact h.size_le
  record_eq n hn := by
    rw [record_modify, if_neg, h.record_eq n hn]
    rintro ⟨rfl, -⟩
    exact absurd hn (Nat.not_lt.2 hid)

namespace Dom.GrownAlike

variable {s s' : Start} {dom dom' : Dom} {a b c d : NodeId}

/-- At the start nothing has been added. -/
theorem refl (s s' : Start) : s.dom.GrownAlike s s' s'.dom where
  left := .refl _
  right := .refl _
  exists_size := ⟨0, rfl, rfl⟩
  record a b hab := by
    rw [record_of_size_le hab.left_le, record_of_size_le hab.right_le]
    exact ⟨rfl, .none, .nil⟩

section Reading

variable (h : dom.GrownAlike s s' dom')

include h

theorem data (hab : a.Twin s s' b) : dom.data a = dom'.data b := (h.record a b hab).data

theorem parent? (hab : a.Twin s s' b) :
    Option.Rel (NodeId.Twin s s') (dom.parent? a) (dom'.parent? b) := (h.record a b hab).parent

theorem children (hab : a.Twin s s' b) :
    List.Forall₂ (NodeId.Twin s s') (dom.children a) (dom'.children b) :=
  (h.record a b hab).children

theorem index_lt_iff (hab : a.Twin s s' b) : a.index < dom.size ↔ b.index < dom'.size := by
  obtain ⟨k, rfl, rfl⟩ := hab
  obtain ⟨created, hsize, hsize'⟩ := h.exists_size
  rw [hsize, hsize', Nat.add_lt_add_iff_left, Nat.add_lt_add_iff_left]

/-- The nodes that are created next are twins. -/
theorem twin_size : NodeId.Twin s s' ⟨dom.size⟩ ⟨dom'.size⟩ := by
  obtain ⟨created, hsize, hsize'⟩ := h.exists_size
  exact ⟨created, by rw [hsize], by rw [hsize']⟩

/-- Elements as whose content is rendered hand down the same namespace. -/
theorem nsBelow (hsimilar : s.Similar s') {p q : Option NodeId} (hplace : s.Place s' p q) :
    dom.nsBelow p = dom'.nsBelow q := by
  cases hplace with
  | none => rfl
  | twins hab => exact congrArg NodeData.nsBelow (h.data hab)
  | given =>
    unfold Start.Similar at hsimilar
    cases hcontext : s.context <;> cases hcontext' : s'.context <;>
      rw [hcontext, hcontext'] at hsimilar
    · rfl
    · cases hsimilar
    · cases hsimilar
    · next a b =>
      obtain ⟨tag, ns, attributes, attributes', hdata, hdata'⟩ : ∃ tag ns attributes attributes',
          s.dom.data a = .element tag ns attributes ∧
            s'.dom.data b = .element tag ns attributes' := by
        cases hsimilar with
        | some h => exact h
      rw [Dom.nsBelow, Dom.nsBelow, h.left.data_of_element hdata, h.right.data_of_element hdata']
      rfl

end Reading

/-! ## single changes -/

/-- A node is created for each document. -/
theorem create (h : dom.GrownAlike s s' dom') (data : NodeData) :
    (dom.create data).2.GrownAlike s s' (dom'.create data).2 where
  left := h.left.trans (loose_create dom data).1
  right := h.right.trans (loose_create dom' data).1
  exists_size := by
    obtain ⟨created, hsize, hsize'⟩ := h.exists_size
    exact ⟨created + 1, by rw [size_create, hsize]; rfl, by rw [size_create, hsize']; rfl⟩
  record c d hcd := by
    have hiff : c.index = dom.size ↔ d.index = dom'.size := by
      obtain ⟨k, rfl, rfl⟩ := hcd
      obtain ⟨created, hsize, hsize'⟩ := h.exists_size
      rw [hsize, hsize', Nat.add_left_cancel_iff, Nat.add_left_cancel_iff]
    rw [record_create, record_create]
    by_cases hc : c.index = dom.size
    · rw [if_pos hc, if_pos (hiff.1 hc)]
      exact ⟨rfl, .none, .nil⟩
    · rw [if_neg hc, if_neg (mt hiff.2 hc)]
      exact h.record c d hcd

/-- Twins are changed in the same way. -/
theorem modify (h : dom.GrownAlike s s' dom') (hab : a.Twin s s' b)
    {f f' : NodeRecord → NodeRecord}
    (hf : ∀ r r', r.Alike s s' r' → (f r).Alike s s' (f' r')) :
    (dom.modify a f).GrownAlike s s' (dom'.modify b f') where
  left := h.left.modify hab.left_le f
  right := h.right.modify hab.right_le f'
  exists_size := by
    rw [size_modify, size_modify]
    exact h.exists_size
  record c d hcd := by
    have hiff : c = a ∧ c.index < dom.size ↔ d = b ∧ d.index < dom'.size :=
      and_congr (hcd.eq_iff hab) (h.index_lt_iff hcd)
    rw [record_modify, record_modify]
    by_cases hc : c = a ∧ c.index < dom.size
    · rw [if_pos hc, if_pos (hiff.1 hc)]
      exact hf _ _ (h.record c d hcd)
    · rw [if_neg hc, if_neg (mt hiff.2 hc)]
      exact h.record c d hcd

/-- What twins are is changed in the same way. -/
theorem changeData (h : dom.GrownAlike s s' dom') (hab : a.Twin s s' b)
    (f : NodeData → NodeData) :
    (dom.modify a fun r => { r with data := f r.data }).GrownAlike s s'
      (dom'.modify b fun r => { r with data := f r.data }) :=
  h.modify hab fun _ _ hr => ⟨congrArg f hr.data, hr.parent, hr.children⟩

theorem setAttribute (h : dom.GrownAlike s s' dom') (hab : a.Twin s s' b) (name value : String) :
    (dom.setAttribute a name value).GrownAlike s s' (dom'.setAttribute b name value) :=
  h.changeData hab _

theorem removeAttribute (h : dom.GrownAlike s s' dom') (hab : a.Twin s s' b) (name : String) :
    (dom.removeAttribute a name).GrownAlike s s' (dom'.removeAttribute b name) :=
  h.changeData hab _

theorem setText (h : dom.GrownAlike s s' dom') (hab : a.Twin s s' b) (text : String) :
    (dom.setText a text).GrownAlike s s' (dom'.setText b text) :=
  h.changeData hab _

theorem setParent (h : dom.GrownAlike s s' dom') (hab : a.Twin s s' b) {p q : Option NodeId}
    (hparent : Option.Rel (NodeId.Twin s s') p q) :
    (dom.setParent a p).GrownAlike s s' (dom'.setParent b q) :=
  h.modify hab fun _ _ hr => ⟨hr.data, hparent, hr.children⟩

theorem setChildren (h : dom.GrownAlike s s' dom') (hab : a.Twin s s' b) {xs ys : List NodeId}
    (hchildren : List.Forall₂ (NodeId.Twin s s') xs ys) :
    (dom.setChildren a xs).GrownAlike s s' (dom'.setChildren b ys) :=
  h.modify hab fun _ _ hr => ⟨hr.data, hr.parent, hchildren⟩

/-! ## places -/

theorem removeChild (h : dom.GrownAlike s s' dom') (hab : a.Twin s s' b) (hcd : c.Twin s s' d) :
    (dom.removeChild a c).GrownAlike s s' (dom'.removeChild b d) := by
  have hchildren : List.Forall₂ (NodeId.Twin s s') ((dom.children a).filter (· ≠ c))
      ((dom'.children b).filter (· ≠ d)) := by
    refine List.rel_filter (fun x y hxy => ?_) (h.children hab)
    simp only [ne_eq, decide_not, Bool.not_eq_true', decide_eq_false_iff_not, hxy.eq_iff hcd]
  have hset := h.setChildren hab hchildren
  rw [Dom.removeChild, Dom.removeChild]
  have hiff := NodeId.Twin.eq_some_iff (hset.parent? hcd) hab
  split
  · next hplaced =>
    rw [if_pos (hiff.1 hplaced)]
    exact hset.setParent hcd .none
  · next hplaced =>
    rw [if_neg (mt hiff.2 hplaced)]
    exact hset

theorem detach (h : dom.GrownAlike s s' dom') (hab : a.Twin s s' b) :
    (dom.detach a).GrownAlike s s' (dom'.detach b) := by
  have hparent := h.parent? hab
  rw [Dom.detach, Dom.detach]
  generalize dom.parent? a = p at hparent ⊢
  generalize dom'.parent? b = q at hparent ⊢
  cases hparent with
  | none => exact h
  | some hparent => exact h.removeChild hparent hab

/-- The nodes that are moved are twins. -/
theorem moved (h : dom.GrownAlike s s' dom') (hab : a.Twin s s' b) :
    List.Forall₂ (NodeId.Twin s s') (dom.moved a) (dom'.moved b) := by
  rw [Dom.moved, Dom.moved, h.data hab]
  split
  · exact h.children hab
  · exact .cons hab .nil

theorem lift (h : dom.GrownAlike s s' dom') (hab : a.Twin s s' b) :
    (dom.lift a).2.GrownAlike s s' (dom'.lift b).2 := by
  rw [Dom.lift, Dom.lift, h.data hab]
  split
  · exact h.setChildren hab .nil
  · exact h.detach hab

theorem adopt (h : dom.GrownAlike s s' dom') (hab : a.Twin s s' b) {xs ys : List NodeId}
    (hnodes : List.Forall₂ (NodeId.Twin s s') xs ys) :
    (dom.adopt a xs).GrownAlike s s' (dom'.adopt b ys) := by
  induction hnodes generalizing dom dom' with
  | nil => exact h
  | cons hxy _ ih => exact ih (h.setParent hxy (.some hab))

theorem insertBefore (h : dom.GrownAlike s s' dom') (hab : a.Twin s s' b) (hcd : c.Twin s s' d)
    {p q : Option NodeId} (hreference : Option.Rel (NodeId.Twin s s') p q) :
    (dom.insertBefore a c p).GrownAlike s s' (dom'.insertBefore b d q) := by
  have hlift := h.lift hcd
  rw [insertBefore_eq, insertBefore_eq]
  exact (hlift.adopt hab (h.moved hcd)).setChildren hab
    (forall₂_insertAmong (hlift.children hab) (h.moved hcd) hreference)

theorem appendChild (h : dom.GrownAlike s s' dom') (hab : a.Twin s s' b) (hcd : c.Twin s s' d) :
    (dom.appendChild a c).GrownAlike s s' (dom'.appendChild b d) :=
  h.insertBefore hab hcd .none

/-! ## trees -/

theorem plant (forest : List Markup) (h : dom.GrownAlike s s' dom') (hab : a.Twin s s' b) :
    (dom.plant a forest).GrownAlike s s' (dom'.plant b forest) := by
  induction forest using forest_induction generalizing dom dom' a b with
  | nil => exact h
  | cons _ data kids ts ihkids ihts =>
    rw [Dom.plant, Dom.plant, Dom.plantTree, Dom.plantTree]
    exact ihts (ihkids ((h.create data).appendChild hab h.twin_size) h.twin_size) hab

/-- The fragment is created first. -/
theorem plantFragment (forest : List Markup) (h : dom.GrownAlike s s' dom') :
    (dom.plantFragment forest).1.Twin s s' (dom'.plantFragment forest).1 ∧
      (dom.plantFragment forest).2.GrownAlike s s' (dom'.plantFragment forest).2 :=
  ⟨h.twin_size, (h.create .fragment).plant forest h.twin_size⟩

/-- The trees at twins are alike, to any depth. -/
theorem treeTo (h : dom.GrownAlike s s' dom') (depth : Nat) (hab : a.Twin s s' b) :
    (dom.treeTo depth a).Alike s s' (dom'.treeTo depth b) := by
  induction depth generalizing a b with
  | zero =>
    rw [Dom.treeTo, Dom.treeTo, h.data hab]
    exact .node _ hab .nil
  | succ depth ih =>
    rw [Dom.treeTo, Dom.treeTo, h.data hab]
    split
    · exact .node _ hab .nil
    · exact .node _ hab .nil
    · exact .node _ hab (List.rel_map (fun _ _ hchild => ih hchild) (h.children hab))

/-- The same ways lead to twins. -/
theorem resolve (h : dom.GrownAlike s s' dom') (path : List Nat) (hab : a.Twin s s' b)
    (hcd : c.Twin s s' d) :
    (dom.resolve a c path).1.Twin s s' (dom'.resolve b d path).1 ∧
      (dom.resolve a c path).2.Twin s s' (dom'.resolve b d path).2 := by
  induction path generalizing a b c d with
  | nil => exact ⟨hab, hcd⟩
  | cons index path ih =>
    have hchild : Option.Rel (NodeId.Twin s s') (dom.children a)[index]?
        (dom'.children b)[index]? := forall₂_getElem? (h.children hab) index
    rw [Dom.resolve, Dom.resolve]
    generalize (dom.children a)[index]? = p at hchild ⊢
    generalize (dom'.children b)[index]? = q at hchild ⊢
    cases hchild with
    | none => exact ⟨hab, hcd⟩
    | some hchild => exact ih hchild hab

/-- A fragment gives way to an only element for both, or for neither. -/
theorem unwrap (h : dom.GrownAlike s s' dom') (hab : a.Twin s s' b) :
    (dom.unwrap a).1.Alike s s' (dom'.unwrap b).1 ∧
      (dom.unwrap a).2.GrownAlike s s' (dom'.unwrap b).2 := by
  have hchildren := h.children hab
  rw [Dom.unwrap, Dom.unwrap]
  generalize dom.children a = xs at hchildren ⊢
  generalize dom'.children b = ys at hchildren ⊢
  cases hchildren with
  | nil => exact ⟨.sequence hab, h⟩
  | cons hxy hrest =>
    cases hrest with
    | cons => exact ⟨.sequence hab, h⟩
    | nil =>
      simp only [h.data hxy]
      split
      · exact ⟨.single hxy, h.removeChild hab hxy⟩
      · exact ⟨.sequence hab, h⟩

end Dom.GrownAlike

end LiveTemplate
