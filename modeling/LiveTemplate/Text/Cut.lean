/-!
# LiveTemplate.Text.Cut

Cutting a text at a mark, and ranges of positions in a text.

Positions count the bytes of the UTF-8 form.
-/

namespace LiveTemplate

/-! ## lengths and ranges -/

/-- The number of bytes of a text in UTF-8. -/
def byteLength : List Char → Nat
  | [] => 0
  | c :: cs => c.utf8Size + byteLength cs

@[simp] theorem byteLength_append (s t : List Char) :
    byteLength (s ++ t) = byteLength s + byteLength t := by
  induction s with
  | nil => simp [byteLength]
  | cons c cs ih => simp [byteLength, ih, Nat.add_assoc]

/-- A range of byte positions, from `lo` up to but not including `hi`.  The range
`0..0` stands where there is nothing to point at. -/
structure Span where
  lo : Nat := 0
  hi : Nat := 0
deriving DecidableEq, Repr, Inhabited

/-! ## marks -/

/-- What follows `mark`, if a text begins with it. -/
def dropMark? : List Char → List Char → Option (List Char)
  | [], s => some s
  | _ :: _, [] => none
  | m :: ms, c :: cs => if m = c then dropMark? ms cs else none

/-- Splits a text at the first occurrence of `mark` into what stands before it and
what stands after it. -/
def cut? (mark : List Char) : List Char → Option (List Char × List Char)
  | [] => none
  | c :: cs =>
    match dropMark? mark (c :: cs) with
    | some after => some ([], after)
    | none => (cut? mark cs).map fun (before, after) => (c :: before, after)

/-- A mark is dropped from in front of every text, and from nothing else. -/
theorem dropMark?_eq_some_iff {mark s t : List Char} :
    dropMark? mark s = some t ↔ s = mark ++ t := by
  induction mark generalizing s with
  | nil => simp [dropMark?]
  | cons m ms ih =>
    cases s with
    | nil => simp [dropMark?]
    | cons c cs =>
      by_cases h : m = c
      · simp [dropMark?, h, ih]
      · simp [dropMark?, h, Ne.symm h]

/-- Cutting loses nothing. -/
theorem eq_append_of_cut? {mark s before after : List Char}
    (h : cut? mark s = some (before, after)) : s = before ++ mark ++ after := by
  induction s generalizing before with
  | nil => simp [cut?] at h
  | cons c cs ih =>
    simp only [cut?] at h
    split at h
    · next hm => simp_all [dropMark?_eq_some_iff.1 hm]
    · obtain ⟨⟨b, a⟩, hcut, heq⟩ := Option.map_eq_some_iff.1 h
      simp only [Prod.mk.injEq] at heq
      obtain ⟨rfl, rfl⟩ := heq
      rw [ih hcut]; simp

/-- A text is cut at the first occurrence of a character. -/
theorem cut?_append {c : Char} {s : List Char} (hs : c ∉ s) (r : List Char) :
    cut? [c] (s ++ c :: r) = some (s, r) := by
  induction s with
  | nil => simp [cut?, dropMark?]
  | cons d s ih =>
    rw [List.mem_cons, not_or] at hs
    simp [cut?, dropMark?, hs.1, ih hs.2]

/-- A text is cut at no other place. -/
theorem cut?_eq_some_iff {c : Char} {s before after : List Char} :
    cut? [c] s = some (before, after) ↔ s = before ++ c :: after ∧ c ∉ before := by
  refine ⟨fun h => ⟨by simpa using eq_append_of_cut? h, ?_⟩, fun ⟨hs, hbefore⟩ => ?_⟩
  · induction s generalizing before with
    | nil => simp [cut?] at h
    | cons d s ih =>
      by_cases hd : c = d
      · simp_all [cut?, dropMark?]
      · rw [cut?] at h
        simp only [dropMark?, if_neg hd, Option.map_eq_some_iff, Prod.mk.injEq, Prod.exists] at h
        obtain ⟨b, a, hcut, rfl, rfl⟩ := h
        simpa [hd] using ih hcut
  · rw [hs, cut?_append hbefore]

/-- Splits a text where `boundary` first holds of what is left. -/
def breakAt (boundary : List Char → Bool) : List Char → List Char × List Char
  | [] => ([], [])
  | c :: cs =>
    if boundary (c :: cs) then ([], c :: cs)
    else
      let (before, after) := breakAt boundary cs
      (c :: before, after)

/-- Breaking loses nothing. -/
theorem breakAt_append (boundary : List Char → Bool) (s : List Char) :
    (breakAt boundary s).1 ++ (breakAt boundary s).2 = s := by
  induction s with
  | nil => rfl
  | cons c cs ih => by_cases h : boundary (c :: cs) <;> simp [breakAt, h, ih]

/-- What a break leaves is empty or begins with a boundary. -/
theorem breakAt_snd (boundary : List Char → Bool) (s : List Char) :
    (breakAt boundary s).2 = [] ∨ boundary (breakAt boundary s).2 := by
  induction s with
  | nil => exact .inl rfl
  | cons c cs ih => by_cases h : boundary (c :: cs) <;> simp [breakAt, h, ih]

end LiveTemplate
