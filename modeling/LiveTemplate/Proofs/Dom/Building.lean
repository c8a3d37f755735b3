import LiveTemplate.Proofs.Dom.Planting
import LiveTemplate.Render.Program

/-!
# LiveTemplate.Proofs.Dom.Building

The trees a builder makes hold no fragments: neither those of HTML nor those of a
program.  All that a builder is told to add are elements, texts and comments, and
closing what is open adds nothing.
-/

namespace LiveTemplate

namespace Builder

/-- No node under construction is a fragment. -/
structure Plantable (b : Builder) : Prop where
  nodes : PlantableAll b.nodes
  opened : ∀ o ∈ b.opened, o.data.isFragment = false ∧ PlantableAll o.before

theorem plantable_empty : Plantable {} :=
  ⟨trivial, by simp⟩

namespace Plantable

variable {b : Builder}

theorem leaf (h : b.Plantable) {data : NodeData} (hdata : data.isFragment = false) :
    (b.leaf data).Plantable :=
  ⟨⟨⟨hdata, trivial⟩, h.nodes⟩, h.opened⟩

theorem enter (h : b.Plantable) {data : NodeData} (hdata : data.isFragment = false) :
    (b.enter data).Plantable := by
  refine ⟨trivial, fun o ho => ?_⟩
  rcases List.mem_cons.1 ho with rfl | ho
  · exact ⟨hdata, h.nodes⟩
  · exact h.opened o ho

theorem leave (h : b.Plantable) : b.leave.Plantable := by
  rw [Builder.leave]
  split
  · exact h
  · next data before opened hopened =>
    have hinner := h.opened ⟨data, before⟩ (by simp [hopened])
    refine ⟨⟨⟨hinner.1, plantableAll_reverse.2 h.nodes⟩, hinner.2⟩, fun o ho => ?_⟩
    exact h.opened o (by rw [hopened]; exact List.mem_cons_of_mem _ ho)

theorem leaveMany (n : Nat) (h : b.Plantable) : (leaveMany n b).Plantable := by
  induction n generalizing b with
  | zero => exact h
  | succ n ih => exact ih h.leave

theorem leaveThrough (h : b.Plantable) (p : NodeData → Bool) : (b.leaveThrough p).Plantable := by
  rw [Builder.leaveThrough]
  split
  · exact h.leaveMany _
  · exact h

theorem modifyInnermost (h : b.Plantable) {f : NodeData → NodeData}
    (hf : ∀ data, (f data).isFragment = data.isFragment) : (b.modifyInnermost f).Plantable := by
  rw [Builder.modifyInnermost]
  split
  · exact h
  · next data before opened hopened =>
    refine ⟨h.nodes, fun o ho => ?_⟩
    rcases List.mem_cons.1 ho with rfl | ho
    · have hinner := h.opened ⟨data, before⟩ (by simp [hopened])
      exact ⟨by rw [hf, hinner.1], hinner.2⟩
    · exact h.opened o (by rw [hopened]; exact List.mem_cons_of_mem _ ho)

theorem finish (h : b.Plantable) : PlantableAll b.finish :=
  plantableAll_reverse.2 (h.leaveMany _).nodes

/-- A token of HTML adds no fragment. -/
theorem html (h : b.Plantable) (root : Namespace) (token : Token) :
    (b.html root token).Plantable := by
  cases token with
  | startTag tag =>
    rw [Builder.html]
    split
    · exact h.enter rfl
    · exact h.leaf rfl
  | endTag name span => exact h.leaveThrough fun data => data.tag? == some name
  | text s span => exact h.leaf rfl
  | comment s span => exact h.leaf rfl
  | mustache m => exact h

/-- An instruction adds no fragment. -/
theorem instruction (h : b.Plantable) (root : Namespace) (i : Instruction) :
    (b.instruction root i).Plantable := by
  cases i with
  | openElement tag ns => exact h.enter rfl
  | setAttribute name value => exact h.modifyInnermost fun data => by cases data <;> rfl
  | closeElement => exact h.leave
  | text s => exact h.leaf rfl
  | comment s => exact h.leaf rfl
  | placeholder => exact h.leaf rfl

end Plantable

end Builder

/-- A builder that every step keeps free of fragments ends without them. -/
theorem plantableAll_finish_foldl {α : Type} {step : Builder → α → Builder}
    (hstep : ∀ b a, b.Plantable → (step b a).Plantable) (as : List α) :
    PlantableAll (as.foldl step {}).finish := by
  have hfold : ∀ b : Builder, b.Plantable → (as.foldl step b).Plantable := by
    induction as with
    | nil => exact fun b h => h
    | cons a as ih => exact fun b h => ih _ (hstep b a h)
  exact (hfold {} Builder.plantable_empty).finish

/-- HTML describes no fragments. -/
theorem plantableAll_forestOfHtml (root : Namespace) (html : String) :
    PlantableAll (forestOfHtml root html) := by
  rw [forestOfHtml]
  split
  · exact plantableAll_finish_foldl (fun _ token h => h.html root token) _
  · exact ⟨⟨rfl, trivial⟩, trivial⟩

/-- A program builds no fragments. -/
theorem Program.plantableAll_forest (root : Namespace) (p : Program) :
    PlantableAll (p.forest root) :=
  plantableAll_finish_foldl (fun _ i h => h.instruction root i) _

end LiveTemplate
