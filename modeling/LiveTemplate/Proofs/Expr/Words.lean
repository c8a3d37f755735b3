import LiveTemplate.Proofs.Expr.Written
import Mathlib.Data.List.TakeWhile

/-!
# LiveTemplate.Proofs.Expr.Words

Reading the words of an expression.

A word that is no string is made of characters of paths, and what follows it begins with none
(`endsLiteral`), so it is read up to its end.  A path is not read as a number or a boolean,
for these would be words of the same length.
-/

namespace LiveTemplate

/-! ## characters -/

/-- The characters of paths are those of keys, points and slashes. -/
theorem isPathCharacter_iff {c : Char} :
    isPathCharacter c = true ↔ isKeyCharacter c = true ∨ c = '.' ∨ c = '/' := by
  simp only [isKeyCharacter, isPathCharacter, Bool.or_eq_true, List.contains_iff_mem,
    List.mem_cons, List.not_mem_nil, or_false]
  grind

theorem isPathCharacter_of_isKeyCharacter {c : Char} (h : isKeyCharacter c = true) :
    isPathCharacter c = true :=
  isPathCharacter_iff.2 (.inl h)

theorem isPathCharacter_of_isDigit {c : Char} (h : c.isDigit = true) :
    isPathCharacter c = true := by
  have halphanumeric := isAlphanumeric_of_isAlphanum (c := c) (by simp [Char.isAlphanum, h])
  simp [isPathCharacter, halphanumeric]

/-- The code points of white space. -/
def whiteSpaceCodes : List Nat :=
  List.range' 9 5 ++ List.range' 0x2000 11 ++
    [0x20, 0x85, 0xA0, 0x1680, 0x2028, 0x2029, 0x202F, 0x205F, 0x3000]

theorem isWhiteSpace_iff {c : Char} : isWhiteSpace c = true ↔ c.toNat ∈ whiteSpaceCodes := by
  simp [isWhiteSpace, whiteSpaceCodes]
  omega

theorem isPathCharacter_of_isWhiteSpace {c : Char} (h : isWhiteSpace c = true) :
    isPathCharacter c = false := by
  have hall : ∀ n ∈ whiteSpaceCodes, isPathCharacter (Char.ofNat n) = false := by decide +kernel
  simpa using hall _ (isWhiteSpace_iff.1 h)

theorem isPathCharacter_of_isBlank {c : Char} (h : isBlank c = true) :
    isPathCharacter c = false :=
  isPathCharacter_of_isWhiteSpace (isWhiteSpace_of_isSpace (isSpace_of_isBlank h))

/-- A character of a path is none of the marks of an expression. -/
theorem ne_of_isPathCharacter {c d : Char} (h : isPathCharacter c = true)
    (hd : isPathCharacter d = false) : c ≠ d := by
  rintro rfl
  rw [h] at hd
  cases hd

theorem endsLiteral_iff {r : List Char} :
    endsLiteral r = true ↔ ∀ x ∈ r.head?, isPathCharacter x = false := by
  cases r <;> simp [endsLiteral]

/-- A text is taken up to what follows it. -/
theorem takeWhile_append_eq {p : Char → Bool} {s r : List Char} (hs : ∀ x ∈ s, p x = true)
    (hr : ∀ x ∈ r.head?, p x = false) :
    (s ++ r).takeWhile p = s ∧ (s ++ r).dropWhile p = r := by
  rw [List.takeWhile_append_of_pos hs, List.dropWhile_append_of_pos hs]
  cases r with
  | nil => simp
  | cons x r =>
    have hx : ¬p x = true := by simpa using hr x rfl
    simp [List.takeWhile_cons_of_neg hx, List.dropWhile_cons_of_neg hx]

/-- A word is read up to what follows it. -/
theorem word?_append {p : Char → Bool} {s r : List Char} (hne : s ≠ [])
    (hs : ∀ x ∈ s, p x = true) (hr : ∀ x ∈ r.head?, p x = false) :
    word? p (s ++ r) = some (String.ofList s, r) := by
  obtain ⟨htake, hdrop⟩ := takeWhile_append_eq hs hr
  rw [word?, htake, hdrop]
  cases s with
  | nil => exact absurd rfl hne
  | cons => rfl

/-- Words of path characters that begin the same text are equal. -/
theorem eq_of_append_eq {s t r rest : List Char} (hs : ∀ c ∈ s, isPathCharacter c = true)
    (hr : endsLiteral r = true) (ht : ∀ c ∈ t, isPathCharacter c = true)
    (hrest : endsLiteral rest = true) (h : s ++ r = t ++ rest) : s = t := by
  rw [← (takeWhile_append_eq hs (endsLiteral_iff.1 hr)).1, h,
    (takeWhile_append_eq ht (endsLiteral_iff.1 hrest)).1]

/-! ## numbers -/

namespace Numeral

theorem isPathCharacter_text (n : Numeral) : ∀ c ∈ n.text, isPathCharacter c = true := by
  have hsign : ∀ c ∈ n.sign, isPathCharacter c = true := by
    rw [sign]
    split <;> exact List.all_eq_true.1 (by decide)
  have hfraction : ∀ c ∈ n.fractionText, isPathCharacter c = true := by
    rw [fractionText]
    split
    · simp
    · rw [List.forall_mem_cons]
      exact ⟨by decide, fun c hc => isPathCharacter_of_isDigit (n.isDigit_places c hc)⟩
  simp only [text, List.forall_mem_append]
  exact ⟨⟨hsign, fun c hc => isPathCharacter_of_isDigit (n.isDigit_whole c hc)⟩, hfraction⟩

theorem exists_text_cons (n : Numeral) : ∃ c s, n.text = c :: s ∧ isPathCharacter c = true := by
  have hne : n.text ≠ [] := by simp [text, n.whole_ne_nil]
  obtain ⟨c, s, hs⟩ := List.exists_cons_of_ne_nil hne
  exact ⟨c, s, hs, n.isPathCharacter_text c (by simp [hs])⟩

end Numeral

theorem isDigit_of_endsLiteral {r : List Char} (hr : endsLiteral r = true) :
    ∀ x ∈ r.head?, x.isDigit = false := by
  intro x hx
  rw [← Bool.not_eq_true]
  exact fun hdigit => ne_of_isPathCharacter (isPathCharacter_of_isDigit hdigit)
    (endsLiteral_iff.1 hr x hx) rfl

theorem fraction_append (n : Numeral) {r : List Char} (hr : endsLiteral r = true) :
    fraction (n.fractionText ++ r) = (n.places, r) := by
  rw [Numeral.fractionText]
  split
  · next hplaces =>
    rw [hplaces, List.nil_append]
    unfold fraction
    split
    · simp [endsLiteral, isPathCharacter] at hr
    · rfl
  · next hplaces =>
    obtain ⟨htake, hdrop⟩ := takeWhile_append_eq n.isDigit_places (isDigit_of_endsLiteral hr)
    obtain ⟨c, s, hs⟩ := List.exists_cons_of_ne_nil hplaces
    rw [hs] at htake hdrop ⊢
    simp only [List.cons_append] at htake hdrop ⊢
    simp only [fraction, htake, hdrop]

theorem isDigit_fractionText (n : Numeral) {r : List Char} (hr : endsLiteral r = true) :
    ∀ x ∈ (n.fractionText ++ r).head?, x.isDigit = false := by
  rw [Numeral.fractionText]
  split
  · exact isDigit_of_endsLiteral hr
  · simp

theorem unsignedLiteral?_append (n : Numeral) {r : List Char} (hr : endsLiteral r = true) :
    unsignedLiteral? (n.whole ++ n.fractionText ++ r) =
      some (decimalValue n.whole n.places, r) := by
  obtain ⟨htake, hdrop⟩ := takeWhile_append_eq n.isDigit_whole (isDigit_fractionText n hr)
  obtain ⟨c, s, hs⟩ := List.exists_cons_of_ne_nil n.whole_ne_nil
  rw [List.append_assoc]
  rw [hs] at htake hdrop ⊢
  simp only [unsignedLiteral?, htake, hdrop, fraction_append n hr, hr, if_true]

theorem numberLiteral?_append (n : Numeral) {r : List Char} (hr : endsLiteral r = true) :
    numberLiteral? (n.text ++ r) = some (n.value, r) := by
  have hread := unsignedLiteral?_append n hr
  rw [Numeral.text, Numeral.sign, Numeral.value]
  split
  · simp only [List.cons_append, List.nil_append, numberLiteral?, hread, Option.map_some]
  · rw [List.nil_append]
    unfold numberLiteral?
    split
    · next s hs =>
      obtain ⟨c, t, hc⟩ := List.exists_cons_of_ne_nil n.whole_ne_nil
      have hdigit := n.isDigit_whole c (by simp [hc])
      rw [hc] at hs
      simp only [List.cons_append, List.cons.injEq] at hs
      rw [hs.1] at hdigit
      cases hdigit
    · exact hread

/-- A text that is not read as a number is not the text of one. -/
theorem ne_numeral_of_numberLiteral? {s : List Char} (h : numberLiteral? s = none) (n : Numeral) :
    s ≠ n.text := by
  rintro rfl
  have hread := numberLiteral?_append n (r := []) rfl
  rw [List.append_nil, h] at hread
  cases hread

theorem exists_fraction (s : List Char) :
    ∃ places, (∀ c ∈ places, c.isDigit = true) ∧ (fraction s).1 = places ∧
      s = (if places = [] then [] else '.' :: places) ++ (fraction s).2 := by
  unfold fraction
  split
  · next t =>
    cases htake : t.takeWhile Char.isDigit with
    | nil => exact ⟨[], by simp, rfl, rfl⟩
    | cons d ds =>
      refine ⟨d :: ds, fun c hc => ?_, rfl, ?_⟩
      · rw [← htake] at hc
        exact List.mem_takeWhile_imp hc
      · have hsplit := List.takeWhile_append_dropWhile (p := Char.isDigit) (l := t)
        rw [htake] at hsplit
        simpa using hsplit.symm
  · exact ⟨[], by simp, rfl, rfl⟩

theorem exists_of_unsignedLiteral? {s rest : List Char} {x : Float} (negative : Bool)
    (h : unsignedLiteral? s = some (x, rest)) :
    ∃ n : Numeral, n.negative = negative ∧ s = n.whole ++ n.fractionText ++ rest ∧
      endsLiteral rest = true := by
  unfold unsignedLiteral? at h
  split at h
  · cases h
  · next hne =>
    obtain ⟨places, hplaces, hfst, hrest⟩ := exists_fraction (s.dropWhile Char.isDigit)
    simp only at h
    split at h
    · next hends =>
      simp only [Option.some.injEq, Prod.mk.injEq] at h
      have hdigit : ∀ c ∈ s.takeWhile Char.isDigit, c.isDigit = true :=
        fun c hc => List.mem_takeWhile_imp hc
      refine ⟨⟨negative, s.takeWhile Char.isDigit, places, hne, hdigit, hplaces⟩, rfl, ?_,
        h.2 ▸ hends⟩
      rw [Numeral.fractionText, List.append_assoc, ← h.2, ← hrest,
        List.takeWhile_append_dropWhile]
    · cases h

/-- What is read as a number is the text of one. -/
theorem exists_of_numberLiteral? {s rest : List Char} {x : Float}
    (h : numberLiteral? s = some (x, rest)) :
    ∃ n : Numeral, s = n.text ++ rest ∧ endsLiteral rest = true := by
  unfold numberLiteral? at h
  split at h
  · obtain ⟨⟨y, rest'⟩, hread, heq⟩ := Option.map_eq_some_iff.1 h
    cases heq
    obtain ⟨n, hsign, rfl, hends⟩ := exists_of_unsignedLiteral? true hread
    exact ⟨n, by simp [Numeral.text, Numeral.sign, hsign], hends⟩
  · obtain ⟨n, hsign, rfl, hends⟩ := exists_of_unsignedLiteral? false h
    exact ⟨n, by simp [Numeral.text, Numeral.sign, hsign], hends⟩

/-! ## booleans and strings -/

theorem isPathCharacter_booleanText (b : Bool) :
    ∀ c ∈ booleanText b, isPathCharacter c = true := by
  cases b <;> exact List.all_eq_true.1 (by decide)

theorem booleanLiteral?_append (b : Bool) {r : List Char} (hr : endsLiteral r = true) :
    booleanLiteral? (booleanText b ++ r) = some (b, r) := by
  cases b <;> simp [booleanText, booleanLiteral?, hr]

/-- What is read as a boolean is the text of one. -/
theorem eq_of_booleanLiteral? {s rest : List Char} {b : Bool}
    (h : booleanLiteral? s = some (b, rest)) :
    s = booleanText b ++ rest ∧ endsLiteral rest = true := by
  unfold booleanLiteral? at h
  split at h
  · split at h
    · next hends =>
      cases h
      exact ⟨rfl, hends⟩
    · cases h
  · split at h
    · next hends =>
      cases h
      exact ⟨rfl, hends⟩
    · cases h
  · cases h

theorem stringLiteral?_append (q : QuotedWord) (r : List Char) :
    stringLiteral? (q.text ++ r) = some (String.ofList q.content, r) := by
  have hcut := cut?_append q.not_mem r
  have htext : q.text ++ r = q.quote :: (q.content ++ q.quote :: r) := by simp [QuotedWord.text]
  rw [htext]
  rcases q.isQuote with hquote | hquote <;> rw [hquote] at hcut ⊢ <;> simp [stringLiteral?, hcut]

/-- No string begins with a character of a path. -/
theorem stringLiteral?_of_isPathCharacter {c : Char} (h : isPathCharacter c = true)
    (s : List Char) : stringLiteral? (c :: s) = none := by
  unfold stringLiteral?
  split
  · next heq => exact absurd (List.cons.inj heq).1 (ne_of_isPathCharacter h (by decide))
  · next heq => exact absurd (List.cons.inj heq).1 (ne_of_isPathCharacter h (by decide))
  · rfl

/-! ## params that are no calls -/

theorem numberLiteral?_path (p : PathWord) {r : List Char} (hr : endsLiteral r = true) :
    numberLiteral? (p.text ++ r) = none := by
  rw [Option.eq_none_iff_forall_ne_some]
  rintro ⟨x, rest⟩ h
  obtain ⟨n, hn, hends⟩ := exists_of_numberLiteral? h
  exact p.ne_numeral n (eq_of_append_eq p.isPathCharacter hr n.isPathCharacter_text hends hn)

theorem booleanLiteral?_path (p : PathWord) {r : List Char} (hr : endsLiteral r = true) :
    booleanLiteral? (p.text ++ r) = none := by
  rw [Option.eq_none_iff_forall_ne_some]
  rintro ⟨b, rest⟩ h
  obtain ⟨hb, hends⟩ := eq_of_booleanLiteral? h
  exact p.ne_boolean b
    (eq_of_append_eq p.isPathCharacter hr (isPathCharacter_booleanText b) hends hb)

/-- A boolean is not read as a number. -/
theorem numberLiteral?_booleanText (b : Bool) (r : List Char) :
    numberLiteral? (booleanText b ++ r) = none := by
  cases b <;> rfl

namespace WrittenAtom

/-- A param that is no call is a string, or a word of path characters. -/
theorem exists_text_eq (a : WrittenAtom) :
    (∃ q : QuotedWord, a = .string q) ∨
      a.text ≠ [] ∧ ∀ c ∈ a.text, isPathCharacter c = true := by
  cases a with
  | path p => exact .inr ⟨p.ne_nil, p.isPathCharacter⟩
  | string q => exact .inl ⟨q, rfl⟩
  | number n =>
    obtain ⟨c, s, hs, -⟩ := n.exists_text_cons
    exact .inr ⟨by simp [text, hs], n.isPathCharacter_text⟩
  | boolean b => exact .inr ⟨by cases b <;> simp [text, booleanText], isPathCharacter_booleanText b⟩

/-- A param is read as what it is written for, whatever class of words is tried first. -/
theorem simpleParam?_append (a : WrittenAtom) {r : List Char} (hr : endsLiteral r = true) :
    simpleParam? (a.text ++ r) = some (a.param, r) := by
  have hstring : (∀ q, a ≠ .string q) → stringLiteral? (a.text ++ r) = none := by
    intro hne
    rcases a.exists_text_eq with ⟨q, hq⟩ | ⟨hnil, hpath⟩
    · exact absurd hq (hne q)
    · obtain ⟨c, s, hs⟩ := List.exists_cons_of_ne_nil hnil
      rw [hs, List.cons_append]
      exact stringLiteral?_of_isPathCharacter (hpath c (by simp [hs])) _
  cases a with
  | path p =>
    have hword := word?_append p.ne_nil p.isPathCharacter (endsLiteral_iff.1 hr)
    simp only [simpleParam?, hstring nofun]
    simp [text, param, numberLiteral?_path p hr, booleanLiteral?_path p hr, hword]
  | string q => simp [simpleParam?, text, param, stringLiteral?_append]
  | number n =>
    simp only [simpleParam?, hstring nofun]
    simp [text, param, numberLiteral?_append n hr]
  | boolean b =>
    simp only [simpleParam?, hstring nofun]
    simp [text, param, numberLiteral?_booleanText, booleanLiteral?_append b hr]

end WrittenAtom

end LiveTemplate
