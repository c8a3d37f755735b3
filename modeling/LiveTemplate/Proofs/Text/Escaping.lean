import LiveTemplate.Text.Cursor
import LiveTemplate.Text.Reference

/-!
# LiveTemplate.Proofs.Text.Escaping

Reading back what was written.

Decoding undoes escaping, at either place (`decodeReferences_escape`), and an escaped
text holds no character that would end it there.  A break or a cut finds the end of a
text that was written in front of a boundary, when no boundary comes before it.
-/

namespace LiveTemplate

/-! ## references -/

/-- The references that escaping writes are read as the characters they stand for. -/
theorem readReference?_named (rest : List Char) :
    readReference? ('a' :: 'm' :: 'p' :: ';' :: rest) = some ('&', rest) ∧
      readReference? ('n' :: 'b' :: 's' :: 'p' :: ';' :: rest) = some ('\u00A0', rest) ∧
      readReference? ('l' :: 't' :: ';' :: rest) = some ('<', rest) ∧
      readReference? ('g' :: 't' :: ';' :: rest) = some ('>', rest) ∧
      readReference? ('q' :: 'u' :: 'o' :: 't' :: ';' :: rest) = some ('"', rest) :=
  ⟨rfl, rfl, rfl, rfl, rfl⟩

/-- A reference is decoded to its character. -/
theorem decodeReferences_reference {s after : List Char} {c : Char}
    (h : readReference? s = some (c, after)) :
    decodeReferences ('&' :: s) = c :: decodeReferences after := by
  rw [decodeReferences, if_pos rfl]
  split
  · next d rest hread =>
    rw [h] at hread
    cases hread
    rfl
  · next hread =>
    rw [h] at hread
    cases hread

/-- A character that is no ampersand stands for itself. -/
theorem decodeReferences_cons {c : Char} (h : c ≠ '&') (s : List Char) :
    decodeReferences (c :: s) = c :: decodeReferences s := by
  rw [decodeReferences, if_neg h]

/-- An escaped character is decoded to itself, whatever follows it. -/
theorem decodeReferences_escapeCharacter (place : Place) (c : Char) (rest : List Char) :
    decodeReferences (escapeCharacter place c ++ rest) = c :: decodeReferences rest := by
  obtain ⟨hamp, hnbsp, hlt, hgt, hquot⟩ := readReference?_named rest
  rw [escapeCharacter.eq_def]
  split
  · exact decodeReferences_reference hamp
  · exact decodeReferences_reference hnbsp
  · exact decodeReferences_reference hlt
  · exact decodeReferences_reference hgt
  · exact decodeReferences_reference hquot
  · next hne _ _ _ _ => exact decodeReferences_cons hne rest

/-- Decoding undoes escaping. -/
theorem decodeReferences_escape (place : Place) (s : List Char) :
    decodeReferences (escape place s) = s := by
  induction s with
  | nil => rw [escape, List.flatMap_nil, decodeReferences]
  | cons c cs ih =>
    rw [escape, List.flatMap_cons, decodeReferences_escapeCharacter, ← escape, ih]

/-- The character that ends a text at its place: the `<` of a tag, or the closing quote. -/
def Place.stop : Place → Char
  | .content => '<'
  | .value => '"'

/-- An escaped text does not hold the character that would end it. -/
theorem stop_not_mem_escape (place : Place) (s : List Char) : place.stop ∉ escape place s := by
  rw [escape, List.mem_flatMap]
  rintro ⟨c, -, hmem⟩
  rw [escapeCharacter.eq_def] at hmem
  split at hmem
  · cases place <;> simp [Place.stop] at hmem
  · cases place <;> simp [Place.stop] at hmem
  · simp [Place.stop] at hmem
  · simp [Place.stop] at hmem
  · simp [Place.stop] at hmem
  · next _ _ hlt hgt hquot =>
    obtain rfl := List.mem_singleton.1 hmem
    cases place
    · exact hlt rfl rfl
    · exact hquot rfl rfl

theorem escapeCharacter_ne_nil (place : Place) (c : Char) : escapeCharacter place c ≠ [] := by
  rw [escapeCharacter.eq_def]
  split <;> exact List.cons_ne_nil _ _

/-- Escaping leaves nothing out. -/
theorem escape_ne_nil {place : Place} {s : List Char} (h : s ≠ []) : escape place s ≠ [] := by
  obtain ⟨c, cs, rfl⟩ := List.exists_cons_of_ne_nil h
  rw [escape, List.flatMap_cons]
  exact List.append_ne_nil_of_left_ne_nil (escapeCharacter_ne_nil place c) _

/-! ## ends -/

/-- A text in which no character is a boundary is read up to what follows it. -/
theorem breakAt_append_eq {boundary : List Char → Bool} {s rest : List Char}
    (hs : ∀ x ∈ s, ∀ t, boundary (x :: t) = false) (hrest : rest = [] ∨ boundary rest = true) :
    breakAt boundary (s ++ rest) = (s, rest) := by
  induction s with
  | nil =>
    cases rest with
    | nil => rfl
    | cons c cs =>
      rcases hrest with h | h
      · cases h
      · rw [List.nil_append, breakAt, if_pos h]
  | cons c cs ih =>
    have hc : ¬boundary (c :: (cs ++ rest)) = true := by simp [hs c List.mem_cons_self]
    rw [List.cons_append, breakAt, if_neg hc, ih fun x hx => hs x (List.mem_cons_of_mem _ hx)]

/-- The end of a comment. -/
def commentEnd : List Char := ['-', '-', '>']

/-- A text without the end of a comment is cut at the one that follows it, although it may itself
end with dashes. -/
theorem cut?_commentEnd {s : List Char} (hs : ¬commentEnd <:+: s) (rest : List Char) :
    cut? commentEnd (s ++ commentEnd ++ rest) = some (s, rest) := by
  induction s with
  | nil => rfl
  | cons c cs ih =>
    have hcs : ¬commentEnd <:+: cs := fun h => hs (h.trans (List.suffix_cons c cs).isInfix)
    have hmark : dropMark? commentEnd (c :: (cs ++ commentEnd ++ rest)) = none := by
      rw [Option.eq_none_iff_forall_ne_some]
      intro after hafter
      rw [dropMark?_eq_some_iff] at hafter
      -- The end would begin inside the text: with all of it there, or with dashes of its own.
      match cs, hafter with
      | [], hafter => simp [commentEnd] at hafter
      | [x], hafter => simp [commentEnd] at hafter
      | x :: y :: zs, hafter =>
        simp only [commentEnd, List.cons_append, List.nil_append, List.cons.injEq] at hafter
        obtain ⟨rfl, rfl, rfl, -⟩ := hafter
        exact hs (List.prefix_append commentEnd zs).isInfix
    rw [List.cons_append, List.cons_append, cut?, hmark]
    simp only
    rw [ih hcs]
    rfl

end LiveTemplate
