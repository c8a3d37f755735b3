import LiveTemplate.Proofs.Dom.Building

/-!
# LiveTemplate.Proofs.Dom.Outline

Trees as lists of lines.

The outline of trees lists their nodes in document order, each with its depth.  It
determines the trees (`forestOutline_injective`).  A builder adds a line to the outline with
each node, at the depth of what is open, and closing something adds none; so it is by the
depths at which nodes are added that two ways of building trees differ.
-/

namespace LiveTemplate

variable {α : Type}

mutual

/-- The nodes of a tree in document order, each with its depth. -/
def Tree.outline (depth : Nat) : Tree α → List (Nat × NodeData)
  | .node _ data kids => (depth, data) :: forestOutline (depth + 1) kids

/-- The nodes of trees in document order, each with its depth. -/
def forestOutline (depth : Nat) : List (Tree α) → List (Nat × NodeData)
  | [] => []
  | t :: ts => t.outline depth ++ forestOutline depth ts

end

theorem forestOutline_append (depth : Nat) (ts us : List (Tree α)) :
    forestOutline depth (ts ++ us) = forestOutline depth ts ++ forestOutline depth us := by
  induction ts with
  | nil => rfl
  | cons t ts ih => rw [List.cons_append, forestOutline, forestOutline, ih, List.append_assoc]

theorem le_of_mem_forestOutline {depth : Nat} {ts : List (Tree α)} {line : Nat × NodeData}
    (h : line ∈ forestOutline depth ts) : depth ≤ line.1 := by
  induction ts using forest_induction generalizing depth with
  | nil => cases h
  | cons _ data kids ts ihkids ihts =>
    simp only [forestOutline, Tree.outline, List.cons_append, List.mem_cons, List.mem_append] at h
    rcases h with rfl | h | h
    · exact Nat.le_refl _
    · exact Nat.le_of_succ_le (ihkids h)
    · exact ihts h

/-- The lines of the nodes below a node are followed by one that is no deeper than the node. -/
theorem takeWhile_forestOutline (depth : Nat) (kids ts : List (Tree α)) :
    (forestOutline (depth + 1) kids ++ forestOutline depth ts).takeWhile
        (fun line => depth < line.1) = forestOutline (depth + 1) kids := by
  have hkids : ∀ line ∈ forestOutline (depth + 1) kids, decide (depth < line.1) = true :=
    fun line hline => decide_eq_true (le_of_mem_forestOutline hline)
  rw [List.takeWhile_append_of_pos hkids]
  cases ts with
  | nil => simp [forestOutline]
  | cons t ts =>
    obtain ⟨_, data, own⟩ := t
    simp [forestOutline, Tree.outline]

/-- Trees without labels have the same outline only if they are the same. -/
theorem forestOutline_injective {depth : Nat} {ts us : List Markup}
    (h : forestOutline depth ts = forestOutline depth us) : ts = us := by
  induction ts using forest_induction generalizing depth us with
  | nil =>
    cases us with
    | nil => rfl
    | cons u us =>
      obtain ⟨_, data, kids⟩ := u
      simp [forestOutline, Tree.outline] at h
  | cons _ data kids ts ihkids ihts =>
    cases us with
    | nil => simp [forestOutline, Tree.outline] at h
    | cons u us =>
      obtain ⟨_, data', kids'⟩ := u
      simp only [forestOutline, Tree.outline, List.cons_append, List.cons.injEq, Prod.mk.injEq,
        true_and] at h
      obtain ⟨rfl, h⟩ := h
      have hkids := congrArg (List.takeWhile fun line => decide (depth < line.1)) h
      rw [takeWhile_forestOutline, takeWhile_forestOutline] at hkids
      rw [hkids] at h
      rw [ihkids hkids, ihts (List.append_cancel_left h)]

/-! ## builders -/

/-- The outline of what is open and of what stands before it. -/
def openOutline : List OpenNode → List (Nat × NodeData)
  | [] => []
  | o :: opened =>
    openOutline opened ++ forestOutline opened.length o.before.reverse ++ [(opened.length, o.data)]

namespace Builder

/-- The outline of the trees under construction. -/
def outline (b : Builder) : List (Nat × NodeData) :=
  openOutline b.opened ++ forestOutline b.opened.length b.nodes.reverse

/-- The depth at which nodes are added. -/
def depth (b : Builder) : Nat := b.opened.length

variable {b b' : Builder} {data : NodeData}

theorem outline_leaf (b : Builder) (data : NodeData) :
    (b.leaf data).outline = b.outline ++ [(b.depth, data)] := by
  simp [outline, leaf, depth, forestOutline_append, forestOutline, Tree.outline]

theorem outline_enter (b : Builder) (data : NodeData) :
    (b.enter data).outline = b.outline ++ [(b.depth, data)] := by
  simp [outline, enter, depth, openOutline, forestOutline]

/-- Closing the innermost node changes no depth. -/
@[simp] theorem outline_leave (b : Builder) : b.leave.outline = b.outline := by
  rw [leave]
  split
  · rfl
  · next own before opened hopened =>
    simp [outline, hopened, openOutline, forestOutline_append, forestOutline, Tree.outline]

@[simp] theorem outline_leaveMany (n : Nat) (b : Builder) :
    (leaveMany n b).outline = b.outline := by
  induction n generalizing b with
  | zero => rfl
  | succ n ih => exact (ih b.leave).trans b.outline_leave

@[simp] theorem outline_leaveThrough (p : NodeData → Bool) (b : Builder) :
    (b.leaveThrough p).outline = b.outline := by
  rw [leaveThrough]
  split
  · exact outline_leaveMany _ b
  · rfl

theorem opened_leaveMany (n : Nat) (b : Builder) : (leaveMany n b).opened = b.opened.drop n := by
  induction n generalizing b with
  | zero => rfl
  | succ n ih =>
    rw [leaveMany, ih, leave]
    split
    · next hopened => simp [hopened]
    · next hopened => simp [hopened]

theorem forestOutline_finish (b : Builder) : forestOutline 0 b.finish = b.outline := by
  have h := outline_leaveMany b.opened.length b
  rw [outline, opened_leaveMany, List.drop_length] at h
  exact h

/-- The innermost open node has the last line that is not as deep as the nodes that are added. -/
theorem inherited_eq (root : Namespace) (b : Builder) :
    b.inherited root =
      match b.outline.reverse.find? fun line => line.1 < b.depth with
      | some line => line.2.nsBelow
      | none => root := by
  rw [inherited, outline, depth]
  cases b.opened with
  | nil =>
    rw [List.find?_eq_none.2 fun line _ => by simp]
  | cons o opened =>
    have hbelow : (forestOutline (opened.length + 1) b.nodes.reverse).reverse.find?
        (fun line => decide (line.1 < opened.length + 1)) = none := by
      refine List.find?_eq_none.2 fun line hline => ?_
      have hle := le_of_mem_forestOutline (List.mem_reverse.1 hline)
      simpa using hle
    rw [List.length_cons, List.reverse_append, List.find?_append, hbelow, Option.none_or,
      openOutline, List.reverse_append, List.reverse_singleton, List.singleton_append,
      List.find?_cons_of_pos (by simp)]

/-- Builders with the same outline that add nodes at the same depth hand down the same namespace. -/
theorem inherited_congr (root : Namespace) (houtline : b.outline = b'.outline)
    (hdepth : b.depth = b'.depth) : b.inherited root = b'.inherited root := by
  rw [inherited_eq, inherited_eq, houtline, hdepth]

/-- Two builders come to the same trees if they have the same outline, and only then. -/
theorem finish_eq_iff : b.finish = b'.finish ↔ b.outline = b'.outline := by
  rw [← forestOutline_finish, ← forestOutline_finish]
  exact ⟨fun h => by rw [h], forestOutline_injective⟩

end Builder

end LiveTemplate
