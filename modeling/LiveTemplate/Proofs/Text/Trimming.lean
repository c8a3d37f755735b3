import LiveTemplate.Text.Space
import Mathlib.Data.List.TakeWhile

/-!
# LiveTemplate.Proofs.Text.Trimming

What trimming leaves of a text.

It is what stands between the white space at the ends (`Trims`); this is determined by the
text, and trimming finds it (`trim_eq_iff`).
-/

namespace LiveTemplate

/-- What a text holds between the white space at its ends. -/
structure Trims (s t : List Char) : Prop where
  ends : ∃ before after, s = before ++ t ++ after ∧ ∀ c ∈ before ++ after, isWhiteSpace c = true
  first : ∀ c, t.head? = some c → isWhiteSpace c = false
  last : ∀ c, t.getLast? = some c → isWhiteSpace c = false

theorem isWhiteSpace_of_head?_dropWhile (s : List Char) (c : Char)
    (h : (s.dropWhile isWhiteSpace).head? = some c) : isWhiteSpace c = false := by
  have hnot := List.head?_dropWhile_not isWhiteSpace s
  rwa [h] at hnot

theorem trims_trim (s : List Char) : Trims s (trim s) := by
  have hrest : s.dropWhile isWhiteSpace =
      trim s ++ ((s.dropWhile isWhiteSpace).reverse.takeWhile isWhiteSpace).reverse := by
    rw [trim, ← List.reverse_append, List.takeWhile_append_dropWhile, List.reverse_reverse]
  constructor
  case ends =>
    refine ⟨s.takeWhile isWhiteSpace,
      ((s.dropWhile isWhiteSpace).reverse.takeWhile isWhiteSpace).reverse, ?_, ?_⟩
    · rw [List.append_assoc, ← hrest, List.takeWhile_append_dropWhile]
    · intro c hc
      rcases List.mem_append.1 hc with hc | hc
      · exact List.mem_takeWhile_imp hc
      · exact List.mem_takeWhile_imp (List.mem_reverse.1 hc)
  case first =>
    intro c hc
    refine isWhiteSpace_of_head?_dropWhile s c ?_
    rw [hrest, List.head?_append, hc]
    rfl
  case last =>
    intro c hc
    rw [trim, List.getLast?_reverse] at hc
    exact isWhiteSpace_of_head?_dropWhile _ c hc

theorem dropWhile_isWhiteSpace {s t : List Char} (hs : ∀ c ∈ s, isWhiteSpace c = true)
    (ht : ∀ c, t.head? = some c → isWhiteSpace c = false) :
    (s ++ t).dropWhile isWhiteSpace = t := by
  rw [List.dropWhile_append_of_pos hs]
  cases t with
  | nil => rfl
  | cons c t => exact List.dropWhile_cons_of_neg (by simp [ht c rfl])

/-- Trimming finds what stands between the white space. -/
theorem trim_eq_iff {s t : List Char} : trim s = t ↔ Trims s t := by
  constructor
  · rintro rfl
    exact trims_trim s
  · rintro ⟨⟨before, after, rfl, hends⟩, hfirst, hlast⟩
    obtain ⟨hbefore, hafter⟩ := List.forall_mem_append.1 hends
    cases t with
    | nil =>
      have hnone := dropWhile_isWhiteSpace hends hfirst
      rw [List.append_nil] at hnone ⊢
      rw [trim, hnone]
      rfl
    | cons c t =>
      have hrest := dropWhile_isWhiteSpace (t := c :: t ++ after) hbefore hfirst
      have hlast : ∀ d, (c :: t).reverse.head? = some d → isWhiteSpace d = false := by
        rwa [List.head?_reverse]
      have hafter : ∀ d ∈ after.reverse, isWhiteSpace d = true := by simpa using hafter
      rw [trim, List.append_assoc, hrest, List.reverse_append, dropWhile_isWhiteSpace hafter hlast,
        List.reverse_reverse]

theorem trimString_eq_iff {s t : String} : trimString s = t ↔ Trims s.toList t.toList := by
  rw [trimString, ← trim_eq_iff, ← String.toList_inj, String.toList_ofList]

theorem isEmpty_trimString_iff {s : String} :
    (trimString s).isEmpty = true ↔ ∀ c ∈ s.toList, isWhiteSpace c = true := by
  rw [String.isEmpty_iff, trimString_eq_iff]
  constructor
  · rintro ⟨⟨before, after, hs, hends⟩, -, -⟩
    rwa [hs, String.toList_empty, List.append_nil]
  · intro h
    exact ⟨⟨s.toList, [], by simp, by simpa using h⟩, by simp, by simp⟩

end LiveTemplate
