import LiveTemplate.Markup.Mustache
import Mathlib.Data.List.Forall2
import Mathlib.Data.List.Induction

/-!
# LiveTemplate.Proofs.Spacing.Texts

Texts with even blanks.

`evenText` writes every blank outside of strings as a space and leaves all else as it is.  It
changes one character at a time, so that what cutting, trimming and classifying look for is
found at the same positions.
-/

namespace LiveTemplate

/-! ## evening -/

/-- The quote of the string that is open behind a character; `quote` is that of the string in front
of it. -/
def quoteBehind (quote : Option Char) (c : Char) : Option Char :=
  match quote with
  | some q => if c = q then none else some q
  | none => if c = '"' ∨ c = '\'' then some c else none

/-- A blank outside of strings becomes a space. -/
def evenCharacter (quote : Option Char) (c : Char) : Char :=
  if quote.isNone && isBlank c then ' ' else c

/-- Writes every blank outside of strings as a space; `quote` is the quote of the string that is
open at the start. -/
def evenText (quote : Option Char) : List Char → List Char
  | [] => []
  | c :: s => evenCharacter quote c :: evenText (quoteBehind quote c) s

example : evenText none "a\t\"b\tc\"\n\r".toList = "a \"b\tc\"  ".toList := by decide

/-! ## characters -/

/-- Two characters that differ at most as blanks do. -/
def IsLike (c d : Char) : Prop := c = d ∨ isBlank c = true ∧ isBlank d = true

theorem isLike_evenCharacter (quote : Option Char) (c : Char) :
    IsLike (evenCharacter quote c) c := by
  rw [evenCharacter]
  split
  · next h => exact .inr ⟨rfl, (Bool.and_eq_true_iff.1 h).2⟩
  · exact .inl rfl

/-- A test that holds of all blanks or of none does not tell characters apart that are alike. -/
theorem IsLike.eq_of_blanks {α : Type} {p : Char → α}
    (hp : ∀ c, isBlank c = true → p c = p ' ') {c d : Char} (h : IsLike c d) : p c = p d := by
  rcases h with rfl | ⟨hc, hd⟩
  · rfl
  · rw [hp c hc, hp d hd]

theorem eq_of_isBlank {c : Char} (h : isBlank c = true) :
    c = ' ' ∨ c = '\t' ∨ c = '\n' ∨ c = '\r' := by
  simpa [isBlank, or_assoc] using h

theorem IsLike.symm {c d : Char} (h : IsLike c d) : IsLike d c := by
  rcases h with rfl | ⟨hc, hd⟩
  · exact .inl rfl
  · exact .inr ⟨hd, hc⟩

theorem IsLike.trans {c d e : Char} (h : IsLike c d) (k : IsLike d e) : IsLike c e := by
  rcases h with rfl | ⟨hc, hd⟩
  · exact k
  · rcases k with rfl | ⟨-, he⟩
    · exact .inr ⟨hc, hd⟩
    · exact .inr ⟨hc, he⟩

/-- A character that is no blank is like itself only. -/
theorem IsLike.eq {c d : Char} (h : IsLike c d) (hc : isBlank c = false) : c = d := by
  rcases h with rfl | ⟨hblank, -⟩
  · rfl
  · rw [hc] at hblank
    cases hblank

/-- What is no mark does not become one. -/
theorem evenCharacter_ne (quote : Option Char) {mark c : Char} (hmark : isBlank mark = false)
    (h : c ≠ mark) : evenCharacter quote c ≠ mark := by
  intro heq
  have hlike := isLike_evenCharacter quote c
  rw [heq] at hlike
  exact h (hlike.eq hmark).symm

theorem IsLike.isBlank_eq {c d : Char} (h : IsLike c d) : isBlank c = isBlank d :=
  h.eq_of_blanks fun _ hc => hc

theorem isBlank_evenCharacter (quote : Option Char) (c : Char) :
    isBlank (evenCharacter quote c) = isBlank c := (isLike_evenCharacter quote c).isBlank_eq

/-- A character of a class is none that is not of it. -/
theorem ne_of_class {p : Char → Bool} {c d : Char} (hc : p c = true) (hd : p d = false) :
    c ≠ d := by
  rintro rfl
  rw [hc] at hd
  cases hd

/-- A mark that is no blank is the same as both of two characters that are alike, or as none. -/
theorem IsLike.beq_eq {c d mark : Char} (hmark : isBlank mark = false) (h : IsLike c d) :
    (c == mark) = (d == mark) := by
  rcases h with rfl | ⟨hc, hd⟩
  · rfl
  · rw [beq_false_of_ne (ne_of_class hc hmark), beq_false_of_ne (ne_of_class hd hmark)]

theorem IsLike.utf8Size_eq {c d : Char} (h : IsLike c d) : c.utf8Size = d.utf8Size :=
  h.eq_of_blanks fun c hc => by rcases eq_of_isBlank hc with rfl | rfl | rfl | rfl <;> rfl

theorem IsLike.isWhiteSpace_eq {c d : Char} (h : IsLike c d) :
    isWhiteSpace c = isWhiteSpace d :=
  h.eq_of_blanks fun c hc => by rcases eq_of_isBlank hc with rfl | rfl | rfl | rfl <;> rfl

/-! ## texts -/

/-- Two texts that differ at most in their blanks. -/
abbrev Alike (s t : List Char) : Prop := List.Forall₂ IsLike s t

theorem alike_refl (s : List Char) : Alike s s := List.forall₂_same.2 fun _ _ => .inl rfl

theorem alike_evenText (quote : Option Char) (s : List Char) : Alike (evenText quote s) s := by
  induction s generalizing quote with
  | nil => exact .nil
  | cons c s ih => exact .cons (isLike_evenCharacter quote c) (ih _)

namespace Alike

variable {s t : List Char}

theorem symm (h : Alike s t) : Alike t s := h.flip.imp fun _ _ hc => IsLike.symm hc

theorem trans {u : List Char} (h : Alike s t) (k : Alike t u) : Alike s u := by
  induction h generalizing u with
  | nil => exact k
  | cons hc _ ih =>
    cases k with
    | cons hd k => exact .cons (hc.trans hd) (ih k)

theorem byteLength_eq (h : Alike s t) : byteLength s = byteLength t := by
  induction h with
  | nil => rfl
  | cons hc _ ih => rw [byteLength, byteLength, hc.utf8Size_eq, ih]

/-- A mark without blanks is found at the start of both. -/
theorem isPrefix {mark : List Char} (hmark : mark.any isBlank = false) (h : Alike s t)
    (hs : mark <+: s) : mark <+: t := by
  induction mark generalizing s t with
  | nil => exact List.nil_prefix
  | cons m mark ih =>
    rw [List.any_cons, Bool.or_eq_false_iff] at hmark
    cases h with
    | nil => exact absurd hs (by simp)
    | cons hc h =>
      obtain ⟨rfl, hrest⟩ := List.cons_prefix_cons.1 hs
      exact List.cons_prefix_cons.2 ⟨hc.eq hmark.1, ih hmark.2 h hrest⟩

theorem isPrefix_iff {mark : List Char} (hmark : mark.any isBlank = false) (h : Alike s t) :
    mark <+: s ↔ mark <+: t :=
  ⟨h.isPrefix hmark, h.symm.isPrefix hmark⟩

theorem isPrefixOf_eq {mark : List Char} (hmark : mark.any isBlank = false) (h : Alike s t) :
    mark.isPrefixOf s = mark.isPrefixOf t := by
  rw [Bool.eq_iff_iff, List.isPrefixOf_iff_prefix, List.isPrefixOf_iff_prefix]
  exact h.isPrefix_iff hmark

end Alike

theorem dropMark?_eq_none_iff {mark s : List Char} : dropMark? mark s = none ↔ ¬mark <+: s := by
  rw [Option.eq_none_iff_forall_not_mem]
  constructor
  · rintro h ⟨t, rfl⟩
    exact h t (dropMark?_eq_some_iff.2 rfl)
  · intro h t ht
    exact h ⟨t, (dropMark?_eq_some_iff.1 ht).symm⟩

/-- A mark that is not there is there in no text that is alike either. -/
theorem Alike.dropMark?_eq_none {mark s t : List Char} (hmark : mark.any isBlank = false)
    (h : Alike s t) (hs : dropMark? mark s = none) : dropMark? mark t = none := by
  rw [dropMark?_eq_none_iff, ← h.isPrefix_iff hmark]
  exact dropMark?_eq_none_iff.1 hs

theorem evenText_append (quote : Option Char) (s t : List Char) :
    evenText quote (s ++ t) = evenText quote s ++ evenText (s.foldl quoteBehind quote) t := by
  induction s generalizing quote with
  | nil => rfl
  | cons c s ih => rw [List.cons_append, evenText, evenText, ih, List.foldl_cons, List.cons_append]

theorem length_evenText (quote : Option Char) (s : List Char) :
    (evenText quote s).length = s.length := (alike_evenText quote s).length_eq

theorem evenText_eq_nil {quote : Option Char} {s : List Char} : evenText quote s = [] ↔ s = [] := by
  rw [← List.length_eq_zero_iff, length_evenText, List.length_eq_zero_iff]

theorem quoteBehind_evenCharacter (quote : Option Char) (c : Char) :
    quoteBehind quote (evenCharacter quote c) = quoteBehind quote c := by
  rw [evenCharacter]
  split
  · next h =>
    obtain ⟨hnone, hblank⟩ := Bool.and_eq_true_iff.1 h
    obtain rfl := Option.isNone_iff_eq_none.1 hnone
    rcases eq_of_isBlank hblank with rfl | rfl | rfl | rfl <;> rfl
  · rfl

theorem evenCharacter_evenCharacter (quote : Option Char) (c : Char) :
    evenCharacter quote (evenCharacter quote c) = evenCharacter quote c := by
  rw [evenCharacter, evenCharacter]
  split <;> simp_all

/-- What is even stays as it is. -/
theorem evenText_evenText (quote : Option Char) (s : List Char) :
    evenText quote (evenText quote s) = evenText quote s := by
  induction s generalizing quote with
  | nil => rfl
  | cons c s ih =>
    rw [evenText, evenText, evenCharacter_evenCharacter, quoteBehind_evenCharacter, ih]

theorem alike_of_evenText_eq {quote : Option Char} {s t : List Char}
    (h : evenText quote s = evenText quote t) : Alike s t :=
  (alike_evenText quote s).symm.trans (h ▸ alike_evenText quote t)

/-- The same strings are open behind characters that are even alike. -/
theorem quoteBehind_eq {quote : Option Char} {c d : Char}
    (h : evenCharacter quote c = evenCharacter quote d) :
    quoteBehind quote c = quoteBehind quote d := by
  rw [← quoteBehind_evenCharacter, h, quoteBehind_evenCharacter]

/-- A text that is even begins with a character that is no blank if it did before. -/
theorem exists_of_evenText_eq_cons {quote : Option Char} {s t : List Char} {c : Char}
    (hc : isBlank c = false) (h : evenText quote s = c :: t) :
    ∃ u, s = c :: u ∧ t = evenText (quoteBehind quote c) u := by
  cases s with
  | nil => cases h
  | cons d u =>
    obtain ⟨hd, rfl⟩ := List.cons.inj h
    have hlike := isLike_evenCharacter quote d
    rw [hd] at hlike
    rw [hlike.eq hc]
    exact ⟨u, rfl, rfl⟩

/-- Whether a word has neither blanks nor quotes. -/
def isPlainWord (word : List Char) : Bool :=
  word.all fun c => !isBlank c && (quoteBehind none c).isNone

/-- A plain word that an even text begins with stands there in the text as well. -/
theorem exists_of_evenText_eq_append {word : List Char} (hword : isPlainWord word = true)
    {s t : List Char} (h : evenText none s = word ++ t) :
    ∃ u, s = word ++ u ∧ t = evenText none u := by
  induction word generalizing s with
  | nil => exact ⟨s, rfl, h.symm⟩
  | cons c word ih =>
    obtain ⟨hc, hword⟩ := Bool.and_eq_true_iff.1 hword
    obtain ⟨hblank, hquote⟩ := Bool.and_eq_true_iff.1 hc
    obtain ⟨u, rfl, hu⟩ := exists_of_evenText_eq_cons (by simpa using hblank) h
    rw [Option.isNone_iff_eq_none.1 hquote] at hu
    obtain ⟨v, rfl, hv⟩ := ih hword hu.symm
    exact ⟨v, rfl, hv⟩

/-! ## trimming -/

theorem quoteBehind_of_isWhiteSpace {c : Char} (h : isWhiteSpace c = true) :
    quoteBehind none c = none := by
  rw [quoteBehind, if_neg]
  rintro (rfl | rfl) <;> exact absurd h (by decide)

theorem evenText_dropWhile (s : List Char) :
    (evenText none s).dropWhile isWhiteSpace = evenText none (s.dropWhile isWhiteSpace) := by
  induction s with
  | nil => rfl
  | cons c s ih =>
    rw [evenText, List.dropWhile_cons, List.dropWhile_cons,
      (isLike_evenCharacter none c).isWhiteSpace_eq]
    split
    · next h => rw [quoteBehind_of_isWhiteSpace h, ih]
    · rw [evenText]

/-- White space at the end is found where it was. -/
theorem evenText_dropWhile_reverse (quote : Option Char) (s : List Char) :
    ((evenText quote s).reverse.dropWhile isWhiteSpace).reverse =
      evenText quote (s.reverse.dropWhile isWhiteSpace).reverse := by
  induction s using List.reverseRecOn with
  | nil => rfl
  | append_singleton s c ih =>
    have hlast : evenText quote (s ++ [c]) =
        evenText quote s ++ [evenCharacter (s.foldl quoteBehind quote) c] := evenText_append ..
    rw [hlast, List.reverse_append, List.reverse_append, List.reverse_singleton,
      List.reverse_singleton, List.singleton_append, List.singleton_append, List.dropWhile_cons,
      List.dropWhile_cons, (isLike_evenCharacter _ c).isWhiteSpace_eq]
    split
    · exact ih
    · rw [List.reverse_cons, List.reverse_reverse, List.reverse_cons, List.reverse_reverse, hlast]

/-- Trimming finds the same ends. -/
theorem trim_evenText (s : List Char) : trim (evenText none s) = evenText none (trim s) := by
  rw [trim, evenText_dropWhile, evenText_dropWhile_reverse]
  rfl

/-! ## cutting -/

/-- A mark is looked for in front of each character that stands outside of strings and is no
quote. -/
theorem cutOutsideQuotes?_cons (mark : List Char) (quote : Option Char) (c : Char)
    (s : List Char) :
    cutOutsideQuotes? mark quote (c :: s) =
      (if quote = none ∧ quoteBehind quote c = none then dropMark? mark (c :: s) else none).elim
        ((cutOutsideQuotes? mark (quoteBehind quote c) s).map fun pair => (c :: pair.1, pair.2))
        fun after => some ([], after) := by
  cases quote with
  | some q =>
    rw [if_neg (fun h => Option.some_ne_none q h.1)]
    rfl
  | none =>
    by_cases hquote : c = '"' ∨ c = '\''
    · rw [cutOutsideQuotes?, if_pos hquote, if_neg (by simp [quoteBehind, hquote]), quoteBehind,
        if_pos hquote]
      rfl
    · rw [cutOutsideQuotes?, if_neg hquote, quoteBehind, if_neg hquote, if_pos ⟨rfl, rfl⟩]
      cases dropMark? mark (c :: s) <;> rfl

section Cutting

variable {mark s before after : List Char} (hmark : mark.any isBlank = false)

include hmark

/-- Whether a mark stands in front of a text that ends with the mark does not depend on what
follows. -/
theorem dropMark?_replace {t : List Char} (halike : Alike s t)
    (h : dropMark? mark (s ++ mark ++ after) = none) (rest : List Char) :
    dropMark? mark (t ++ mark ++ rest) = none := by
  rw [dropMark?_eq_none_iff] at h ⊢
  intro hprefix
  have hshort : mark <+: t ++ mark :=
    List.prefix_of_prefix_length_le hprefix (List.prefix_append ..) (by simp)
  have hboth : Alike (t ++ mark) (s ++ mark) := List.rel_append halike.symm (alike_refl mark)
  exact h ((hboth.isPrefix hmark hshort).trans (List.prefix_append ..))

/-- Where a text is cut does not depend on what follows the mark. -/
theorem cut?_replace (hne : mark ≠ []) (h : cut? mark s = some (before, after))
    (rest : List Char) : cut? mark (before ++ mark ++ rest) = some (before, rest) := by
  induction s generalizing before with
  | nil => cases h
  | cons c s ih =>
    have happend := eq_append_of_cut? h
    rw [cut?] at h
    split at h
    · cases h
      obtain ⟨m, ms, rfl⟩ := List.exists_cons_of_ne_nil hne
      have hdrop : dropMark? (m :: ms) (m :: (ms ++ rest)) = some rest :=
        dropMark?_eq_some_iff.2 rfl
      rw [List.nil_append, List.cons_append, cut?, hdrop]
    · next hdrop =>
      obtain ⟨⟨b, a⟩, hcut, heq⟩ := Option.map_eq_some_iff.1 h
      cases heq
      rw [happend] at hdrop
      have hnone := dropMark?_replace hmark (alike_refl (c :: b)) hdrop rest
      rw [List.cons_append, List.cons_append] at hnone ⊢
      rw [cut?, hnone, ih hcut]
      rfl

/-- Nor does it where strings are passed over, and texts that are even alike are cut alike. -/
theorem cutOutsideQuotes?_replace (hne : mark ≠ []) {quote : Option Char} {text : List Char}
    (h : cutOutsideQuotes? mark quote s = some (before, after))
    (htext : evenText quote text = evenText quote before) (rest : List Char) :
    cutOutsideQuotes? mark quote (text ++ mark ++ rest) = some (text, rest) := by
  induction s generalizing quote before text with
  | nil => cases h
  | cons c s ih =>
    have happend := eq_append_of_cutOutsideQuotes? h
    rw [cutOutsideQuotes?_cons] at h
    cases hdrop : if quote = none ∧ quoteBehind quote c = none then dropMark? mark (c :: s)
        else none with
    -- The mark stands right here, so both texts end here.
    | some after' =>
      rw [hdrop] at h
      cases h
      obtain rfl := evenText_eq_nil.1 htext
      obtain ⟨m, ms, rfl⟩ := List.exists_cons_of_ne_nil hne
      split at hdrop
      · next hcond =>
        obtain ⟨rfl, -⟩ := List.cons.inj (dropMark?_eq_some_iff.1 hdrop)
        have hstands : dropMark? (c :: ms) (c :: (ms ++ rest)) = some rest :=
          dropMark?_eq_some_iff.2 rfl
        rw [List.nil_append, List.cons_append, cutOutsideQuotes?_cons, if_pos hcond, hstands]
        rfl
      · cases hdrop
    | none =>
      rw [hdrop] at h
      obtain ⟨⟨b, a⟩, hcut, heq⟩ := Option.map_eq_some_iff.1 h
      cases heq
      cases text with
      | nil => cases htext
      | cons d t =>
        have halike := alike_of_evenText_eq htext
        obtain ⟨hd, ht⟩ := List.cons.inj htext
        rw [← quoteBehind_eq hd] at ht hcut hdrop
        rw [List.cons_append, List.cons_append, cutOutsideQuotes?_cons, ih hcut ht]
        -- No mark begins here: it would also begin in the text that is even alike.
        have hnone : (if quote = none ∧ quoteBehind quote d = none then
            dropMark? mark (d :: (t ++ mark ++ rest)) else none) = none := by
          split
          · next hcond =>
            rw [if_pos hcond, happend] at hdrop
            exact dropMark?_replace hmark halike.symm hdrop rest
          · rfl
        rw [hnone]
        rfl

end Cutting

end LiveTemplate
