import LiveTemplate.Proofs.Program.Occurrence
import LiveTemplate.Proofs.Template.Keeping

/-!
# LiveTemplate.Proofs.Template.Binding

Where names are bound in a template that is read from a source.

The block params of a block are those of its body.  Parts behind `else` bind no names, and
neither do the bodies of components.
-/

namespace LiveTemplate

mutual

/-- Names are bound by the bodies of blocks only, at any depth. -/
def Node.BindsInBlocks : Node → Prop
  | .element _ children _ => AllBindInBlocks children
  | .block _ ⟨children, _, _⟩ none _ => AllBindInBlocks children
  | .block _ ⟨children, _, _⟩ (some ⟨otherwise, names, _⟩) _ =>
    AllBindInBlocks children ∧ names = [] ∧ AllBindInBlocks otherwise
  | .component _ ⟨children, names, _⟩ _ => names = [] ∧ AllBindInBlocks children
  | .text .. | .comment .. | .insertion _ => True

/-- In all of some nodes names are bound by the bodies of blocks only. -/
def AllBindInBlocks : List Node → Prop
  | [] => True
  | node :: nodes => node.BindsInBlocks ∧ AllBindInBlocks nodes

end

theorem allBindInBlocks_iff {nodes : List Node} :
    AllBindInBlocks nodes ↔ ∀ node ∈ nodes, node.BindsInBlocks := by
  induction nodes with
  | nil => simp [AllBindInBlocks]
  | cons node nodes ih => simp [AllBindInBlocks, ih]

/-- The body of a block that is open behind `else` binds names in blocks only. -/
def Opening.BindsInBlocks : Opening → Prop
  | .block _ _ (some body) _ => AllBindInBlocks body.children
  | .block _ _ none _ | .element .. | .component .. => True

/-- All tokens keep names bound in blocks. -/
theorem kept_bindsInBlocks (options : TemplateOptions) (tokens : List Token) :
    Kept options tokens Node.BindsInBlocks Opening.BindsInBlocks where
  text _ _ := trivial
  comment _ _ _ := trivial
  insertion _ _ _ _ _ := trivial
  element _ _ _ _ _ _ _ := trivial
  component _ _ _ _ _ := trivial
  block _ _ _ := trivial
  inverse _ _ _ _ _ hchildren := allBindInBlocks_iff.2 hchildren
  close _ _ _ hopening hchildren hcloses := by
    cases hcloses with
    | element => exact allBindInBlocks_iff.2 hchildren
    | component => exact ⟨rfl, allBindInBlocks_iff.2 hchildren⟩
    | block => exact allBindInBlocks_iff.2 hchildren
    | inverse => exact ⟨hopening, rfl, allBindInBlocks_iff.2 hchildren⟩

/-- In a template that is read from a source names are bound by the bodies of blocks only. -/
theorem Template.allBindInBlocks {options : TemplateOptions} {source : String} {t : Template}
    (h : Template.ofSource options source = .ok t) : AllBindInBlocks t.children :=
  allBindInBlocks_iff.2 (Template.forall_mem_ofSource h (kept_bindsInBlocks options _))

namespace Node.BindsInBlocks

variable {node : Node}

theorem children (h : node.BindsInBlocks) : ∀ child ∈ node.children, child.BindsInBlocks := by
  cases node with
  | element tag children span => exact allBindInBlocks_iff.1 h
  | _ => simp [Node.children]

theorem enclosed (h : node.BindsInBlocks) :
    ∀ inside ∈ node.enclosed, AllBindInBlocks inside.children := by
  intro inside hinside
  cases node with
  | block call body inverse span =>
    cases inverse with
    | none =>
      rw [List.mem_singleton.1 hinside]
      exact h
    | some inverse =>
      have hcase : inside = body ∨ inside = inverse := by simpa [Node.enclosed] using hinside
      rcases hcase with rfl | rfl
      · exact h.1
      · exact h.2.2
  | component tag body span =>
    rw [List.mem_singleton.1 hinside]
    exact h.2
  | _ => simp [Node.enclosed] at hinside

end Node.BindsInBlocks

end LiveTemplate
