import Mathlib.Data.List.Forall2
import LiveTemplate.Proofs.Text.Escaping

/-!
# LiveTemplate.Proofs.Text.References

What decoding replaces.

`Replaces` scans a text from left to right and puts a character in the place of each
reference, for any notion of what the body of a reference is.  Decoding is this scan for
the bodies that are well formed together with those whose number has a plus sign
(`replaces_isAcceptedBody_iff`).  With the well-formed bodies alone the scan comes to the same
text exactly where no signed reference occurs: a signed one is longer than its character, and
decoding never makes a text longer than the scan does (`length_decodeReferences_le`).
-/

namespace LiveTemplate

/-! ## numbers -/

/-- The digits in the order of their values, with small letters. -/
def smallDigits : List Char :=
  ['0', '1', '2', '3', '4', '5', '6', '7', '8', '9', 'a', 'b', 'c', 'd', 'e', 'f']

/-- The digits in the order of their values, with capital letters. -/
def capitalDigits : List Char :=
  ['0', '1', '2', '3', '4', '5', '6', '7', '8', '9', 'A', 'B', 'C', 'D', 'E', 'F']

/-- A digit of a radix up to sixteen, and its value. -/
def DigitOf (radix : Nat) (c : Char) (d : Nat) : Prop :=
  d < radix ∧ (smallDigits[d]? = some c ∨ capitalDigits[d]? = some c)

/-- One or more digits write a number, the digit that counts most first. -/
def WritesNumber (radix : Nat) (text : List Char) (n : Nat) : Prop :=
  text ≠ [] ∧ ∃ ds, List.Forall₂ (DigitOf radix) text ds ∧
    n = ds.foldl (fun n d => n * radix + d) 0

/-- The characters from one to another are digits, if they are listed as such from an index on. -/
theorem getElem?_of_between {digits : List Char} {lo hi c : Char} {first : Nat}
    (hdigits : ∀ k ≤ hi.toNat - lo.toNat, digits[k + first]? = some (Char.ofNat (lo.toNat + k)))
    (hc : lo ≤ c ∧ c ≤ hi) : digits[c.toNat - lo.toNat + first]? = some c := by
  have hlo : lo.toNat ≤ c.toNat := hc.1
  have hhi : c.toNat ≤ hi.toNat := hc.2
  rw [hdigits _ (by omega), Nat.add_sub_cancel' hlo, Char.ofNat_toNat]

/-- A digit has its value in every radix that is large enough. -/
theorem digitValue?_mono {radix radix' : Nat} {c : Char} {d : Nat}
    (h : digitValue? radix c = some d) (hd : d < radix') : digitValue? radix' c = some d := by
  simp only [digitValue?] at h ⊢
  grind

theorem digitValue?_eq_some_iff {radix : Nat} {c : Char} {d : Nat} :
    digitValue? radix c = some d ↔ DigitOf radix c d := by
  constructor
  · intro h
    simp only [digitValue?, Option.ite_none_right_eq_some, Option.some.injEq] at h
    obtain ⟨hlt, rfl⟩ := h
    refine ⟨hlt, ?_⟩
    by_cases hdecimal : '0' ≤ c ∧ c ≤ '9'
    · rw [if_pos hdecimal]
      have hzero : smallDigits[c.toNat - '0'.toNat + 0]? = some c :=
        getElem?_of_between (by decide) hdecimal
      exact .inl hzero
    · rw [if_neg hdecimal] at hlt ⊢
      by_cases hsmall : 'a' ≤ c ∧ c ≤ 'f'
      · rw [if_pos hsmall]
        exact .inl (getElem?_of_between (by decide) hsmall)
      · rw [if_neg hsmall] at hlt ⊢
        by_cases hcapital : 'A' ≤ c ∧ c ≤ 'F'
        · rw [if_pos hcapital]
          exact .inr (getElem?_of_between (by decide) hcapital)
        · rw [if_neg hcapital] at hlt
          exact absurd hlt (Nat.lt_irrefl radix)
  · rintro ⟨hd, hc⟩
    have hsmall : ∀ d < 16, smallDigits[d]?.bind (digitValue? 16) = some d := by decide
    have hcapital : ∀ d < 16, capitalDigits[d]?.bind (digitValue? 16) = some d := by decide
    rcases hc with hc | hc
    · have hvalue := hsmall d (List.getElem?_eq_some_iff.1 hc).1
      rw [hc] at hvalue
      exact digitValue?_mono hvalue hd
    · have hvalue := hcapital d (List.getElem?_eq_some_iff.1 hc).1
      rw [hc] at hvalue
      exact digitValue?_mono hvalue hd

theorem readDigits?_eq_some_iff {radix acc n : Nat} {text : List Char} :
    readDigits? radix acc text = some n ↔ ∃ ds, List.Forall₂ (DigitOf radix) text ds ∧
      n = ds.foldl (fun n d => n * radix + d) acc := by
  induction text generalizing acc with
  | nil => simp [readDigits?, eq_comm]
  | cons c cs ih =>
    simp only [readDigits?, Option.bind_eq_some_iff, digitValue?_eq_some_iff, ih]
    constructor
    · rintro ⟨d, hd, ds, hds, hn⟩
      exact ⟨d :: ds, .cons hd hds, hn⟩
    · rintro ⟨_, _ | ⟨hd, hds⟩, hn⟩
      exact ⟨_, hd, _, hds, hn⟩

/-- No number begins with a plus sign. -/
theorem not_writesNumber_plus {radix n : Nat} {text : List Char} :
    ¬WritesNumber radix ('+' :: text) n := by
  rintro ⟨-, _, _ | ⟨⟨-, hplus⟩, -⟩, -⟩
  have hnone : '+' ∉ smallDigits ++ capitalDigits := by decide
  rcases hplus with hplus | hplus
  · exact hnone (List.mem_append_left _ (List.mem_of_getElem? hplus))
  · exact hnone (List.mem_append_right _ (List.mem_of_getElem? hplus))

/-- A number is read as it is written, and behind one plus sign as well. -/
theorem readNumeral?_eq_some_iff {radix n : Nat} {text : List Char} :
    readNumeral? radix text = some n ↔
      WritesNumber radix text n ∨ ∃ digits, text = '+' :: digits ∧ WritesNumber radix digits n := by
  have hdigits : ∀ c cs, readDigits? radix 0 (c :: cs) = some n ↔ WritesNumber radix (c :: cs) n :=
    fun c cs => by simp [readDigits?_eq_some_iff, WritesNumber]
  fun_cases readNumeral? radix text with
  | case1 c cs =>
    rw [hdigits]
    refine ⟨fun h => .inr ⟨_, rfl, h⟩, fun h => ?_⟩
    obtain ⟨digits, heq, h⟩ := h.resolve_left not_writesNumber_plus
    cases heq
    exact h
  | case2 c cs hsign =>
    rw [hdigits, or_iff_left]
    rintro ⟨digits, heq, h⟩
    cases heq
    obtain ⟨d, ds, rfl⟩ := List.exists_cons_of_ne_nil h.1
    exact hsign d ds rfl rfl
  | case3 => simp [WritesNumber]

/-! ## bodies -/

/-- The characters that have a name. -/
def characterNames : List (List Char × Char) :=
  [("lt".toList, '<'), ("gt".toList, '>'), ("amp".toList, '&'), ("quot".toList, '"'),
    ("apos".toList, '\''), ("nbsp".toList, '\u00A0')]

/-- What stands in front of a number, and the radix in which it is written. -/
def numberMarks : List (List Char × Nat) := [(['#'], 10), (['#', 'x'], 16), (['#', 'X'], 16)]

/-- The number of a character, behind its mark and a sign. -/
def IsNumberBody (sign body : List Char) (c : Char) : Prop :=
  ∃ mark radix digits, (mark, radix) ∈ numberMarks ∧ body = mark ++ sign ++ digits ∧
    WritesNumber radix digits c.toNat

/-- The body of a well-formed reference: the name of a character, or its number. -/
def IsBody (body : List Char) (c : Char) : Prop :=
  (body, c) ∈ characterNames ∨ IsNumberBody [] body c

/-- The body of a reference whose number has a plus sign. -/
def IsSignedBody (body : List Char) (c : Char) : Prop := IsNumberBody ['+'] body c

theorem namedCharacter?_eq_some_iff {body : List Char} {c : Char} :
    namedCharacter? body = some c ↔ (body, c) ∈ characterNames := by
  constructor
  · intro h
    rw [namedCharacter?.eq_def] at h
    split at h <;> cases h <;> simp [characterNames]
  · intro h
    simp only [characterNames, List.mem_cons, Prod.mk.injEq, List.not_mem_nil, or_false] at h
    rcases h with ⟨rfl, rfl⟩ | ⟨rfl, rfl⟩ | ⟨rfl, rfl⟩ | ⟨rfl, rfl⟩ | ⟨rfl, rfl⟩ | ⟨rfl, rfl⟩ <;>
      rfl

theorem scalar?_eq_some_iff {n : Nat} {c : Char} : scalar? n = some c ↔ n = c.toNat := by
  rw [scalar?, Option.ite_none_right_eq_some, Option.some.injEq]
  constructor
  · rintro ⟨hn, rfl⟩
    rw [Char.ofNat, dif_pos hn]
    rfl
  · rintro rfl
    exact ⟨c.valid, Char.ofNat_toNat c⟩

/-- The number of a character is read behind its mark, with or without a sign. -/
theorem isNumberBody_iff {body : List Char} {c : Char} :
    IsNumberBody [] body c ∨ IsNumberBody ['+'] body c ↔
      ∃ mark radix text, (mark, radix) ∈ numberMarks ∧ body = mark ++ text ∧
        (readNumeral? radix text).bind scalar? = some c := by
  simp only [Option.bind_eq_some_iff, scalar?_eq_some_iff, exists_eq_right, readNumeral?_eq_some_iff]
  constructor
  · rintro (⟨mark, radix, digits, hmark, rfl, h⟩ | ⟨mark, radix, digits, hmark, rfl, h⟩)
    · exact ⟨mark, radix, digits, hmark, by simp, .inl h⟩
    · exact ⟨mark, radix, '+' :: digits, hmark, by simp, .inr ⟨digits, rfl, h⟩⟩
  · rintro ⟨mark, radix, text, hmark, rfl, h | ⟨digits, rfl, h⟩⟩
    · exact .inl ⟨mark, radix, text, hmark, by simp, h⟩
    · exact .inr ⟨mark, radix, digits, hmark, by simp, h⟩

/-- The references that decoding knows are the well-formed ones and the signed ones. -/
theorem referencedCharacter?_eq_some_iff {body : List Char} {c : Char} :
    referencedCharacter? body = some c ↔ IsBody body c ∨ IsSignedBody body c := by
  have hletter : ∀ text, readNumeral? 10 ('x' :: text) = none ∧ readNumeral? 10 ('X' :: text) = none :=
    fun _ => ⟨rfl, rfl⟩
  have hname : ∀ text, namedCharacter? ('#' :: text) = none := fun _ => rfl
  rw [IsBody, IsSignedBody, or_assoc, isNumberBody_iff, ← namedCharacter?_eq_some_iff]
  simp only [numberMarks, List.mem_cons, Prod.mk.injEq, List.not_mem_nil, or_false, or_and_right,
    exists_or, and_assoc, exists_and_left, exists_eq_left, List.cons_append, List.nil_append]
  fun_cases referencedCharacter? body with
  | case1 digits => simp [hletter, hname]
  | case2 digits => simp [hletter, hname]
  | case3 digits hx hX =>
    simp only [List.cons.injEq, true_and, hname, reduceCtorEq, false_or, exists_eq_left']
    rw [or_iff_left]
    rintro (⟨text, rfl, -⟩ | ⟨text, rfl, -⟩)
    · exact hx text rfl
    · exact hX text rfl
  | case4 body hx hX h =>
    rw [or_iff_left]
    rintro (⟨text, rfl, -⟩ | ⟨text, rfl, -⟩ | ⟨text, rfl, -⟩)
    · exact h text rfl
    · exact hx text rfl
    · exact hX text rfl

/-- Digits are none of the characters that stand around numbers. -/
theorem WritesNumber.not_mem {radix n : Nat} {text : List Char} (h : WritesNumber radix text n) :
    ∀ x ∈ text, x ∉ ['&', ';', '+'] := by
  obtain ⟨-, ds, hds, -⟩ := h
  have hdigits : ∀ x ∈ smallDigits ++ capitalDigits, x ∉ ['&', ';', '+'] := by
    simp [smallDigits, capitalDigits]
  induction hds with
  | nil => simp
  | cons hd _ ih =>
    refine List.forall_mem_cons.2 ⟨hdigits _ ?_, ih⟩
    rcases hd.2 with hd | hd
    · exact List.mem_append_left _ (List.mem_of_getElem? hd)
    · exact List.mem_append_right _ (List.mem_of_getElem? hd)

theorem IsBody.not_mem {body : List Char} {c : Char} (h : IsBody body c) :
    ∀ x ∈ body, x ∉ ['&', ';', '+'] := by
  have hnames : ∀ entry ∈ characterNames, ∀ x ∈ entry.1, x ∉ ['&', ';', '+'] := by
    simp [characterNames]
  have hmarks : ∀ entry ∈ numberMarks, ∀ x ∈ entry.1, x ∉ ['&', ';', '+'] := by
    simp [numberMarks]
  rcases h with hname | ⟨mark, radix, digits, hmark, rfl, hdigits⟩
  · exact hnames _ hname
  · rw [List.append_nil, List.forall_mem_append]
    exact ⟨hmarks _ hmark, hdigits.not_mem⟩

theorem IsSignedBody.not_mem {body : List Char} {c : Char} (h : IsSignedBody body c) :
    '+' ∈ body ∧ '&' ∉ body ∧ ';' ∉ body := by
  obtain ⟨mark, radix, digits, hmark, rfl, hdigits⟩ := h
  have hmarks : ∀ entry ∈ numberMarks, '&' ∉ entry.1 ∧ ';' ∉ entry.1 := by decide
  have hplain := hdigits.not_mem
  refine ⟨by simp, ?_, ?_⟩
  · simp only [List.mem_append, not_or]
    exact ⟨⟨(hmarks _ hmark).1, by decide⟩, fun h => hplain _ h (by decide)⟩
  · simp only [List.mem_append, not_or]
    exact ⟨⟨(hmarks _ hmark).2, by decide⟩, fun h => hplain _ h (by decide)⟩

/-! ## scanning -/

/-- A text begins with a reference to a character: an ampersand, a body of one to ten bytes, and a
semicolon. -/
def BeginsWith (IsBody : List Char → Char → Prop) (s : List Char) (c : Char) (rest : List Char) :
    Prop :=
  ∃ body, IsBody body c ∧ 1 ≤ byteLength body ∧ byteLength body ≤ 10 ∧
    s = '&' :: (body ++ ';' :: rest)

/-- A reference stands somewhere in a text. -/
def OccursIn (IsBody : List Char → Char → Prop) (s : List Char) : Prop :=
  ∃ part c rest, part <:+ s ∧ BeginsWith IsBody part c rest

/-- A text is read from left to right: a reference is replaced by its character, which is not read
again, and every other character is copied. -/
inductive Replaces (IsBody : List Char → Char → Prop) : List Char → List Char → Prop where
  | nil : Replaces IsBody [] []
  | reference {s rest t : List Char} {c : Char} (h : BeginsWith IsBody s c rest)
    (hrest : Replaces IsBody rest t) : Replaces IsBody s (c :: t)
  | copy {cs t : List Char} {c : Char} (h : ∀ d rest, ¬BeginsWith IsBody (c :: cs) d rest)
    (hrest : Replaces IsBody cs t) : Replaces IsBody (c :: cs) (c :: t)

/-- A body that decoding knows. -/
def IsAcceptedBody (body : List Char) (c : Char) : Prop := IsBody body c ∨ IsSignedBody body c

theorem IsAcceptedBody.not_mem {body : List Char} {c : Char} (h : IsAcceptedBody body c) :
    '&' ∉ body ∧ ';' ∉ body := by
  rcases h with h | h
  · exact ⟨fun hmem => h.not_mem _ hmem (by decide), fun hmem => h.not_mem _ hmem (by decide)⟩
  · exact h.not_mem.2

theorem one_le_byteLength {s : List Char} : 1 ≤ byteLength s ↔ s ≠ [] := by
  cases s with
  | nil => simp [byteLength]
  | cons c cs =>
    have := c.utf8Size_pos
    simp only [byteLength, ne_eq, reduceCtorEq, not_false_eq_true, iff_true]
    omega

theorem beginsWith_cons_iff {c d : Char} {cs rest : List Char} :
    BeginsWith IsAcceptedBody (c :: cs) d rest ↔ c = '&' ∧ readReference? cs = some (d, rest) := by
  rw [BeginsWith, readReference?, Option.bind_eq_some_iff]
  simp only [Prod.exists, cut?_eq_some_iff, Option.ite_none_right_eq_some, Option.map_eq_some_iff,
    referencedCharacter?_eq_some_iff, Prod.mk.injEq, List.cons.injEq, one_le_byteLength]
  constructor
  · rintro ⟨body, hbody, hne, hlength, rfl, rfl⟩
    exact ⟨rfl, body, rest, ⟨rfl, hbody.not_mem.2⟩, ⟨hne, hlength⟩, d, hbody, rfl, rfl⟩
  · rintro ⟨rfl, body, after, ⟨rfl, -⟩, ⟨hne, hlength⟩, _, hbody, rfl, rfl⟩
    exact ⟨body, hbody, hne, hlength, rfl, rfl⟩

theorem not_beginsWith_nil {R : List Char → Char → Prop} {c : Char} {rest : List Char} :
    ¬BeginsWith R [] c rest := by
  rintro ⟨_, -, -, -, h⟩
  cases h

theorem decodeReferences_of_beginsWith {s rest : List Char} {c : Char}
    (h : BeginsWith IsAcceptedBody s c rest) :
    decodeReferences s = c :: decodeReferences rest := by
  obtain _ | ⟨d, cs⟩ := s
  · exact (not_beginsWith_nil h).elim
  · obtain ⟨rfl, hread⟩ := beginsWith_cons_iff.1 h
    exact decodeReferences_reference hread

theorem decodeReferences_of_not_beginsWith {c : Char} {cs : List Char}
    (h : ∀ d rest, ¬BeginsWith IsAcceptedBody (c :: cs) d rest) :
    decodeReferences (c :: cs) = c :: decodeReferences cs := by
  by_cases hc : c = '&'
  · rw [decodeReferences, if_pos hc]
    split
    · next d rest hread => exact (h d rest (beginsWith_cons_iff.2 ⟨hc, hread⟩)).elim
    · rfl
  · exact decodeReferences_cons hc cs

/-- Decoding is the scan that knows signed references besides the well-formed ones. -/
theorem replaces_isAcceptedBody_iff {s t : List Char} :
    Replaces IsAcceptedBody s t ↔ t = decodeReferences s := by
  constructor
  · intro h
    induction h with
    | nil => rw [decodeReferences]
    | reference h hrest ih => rw [decodeReferences_of_beginsWith h, ih]
    | copy h hrest ih => rw [decodeReferences_of_not_beginsWith h, ih]
  · rintro rfl
    fun_induction decodeReferences s with
    | case1 => exact .nil
    | case2 cs d rest hread ih => exact .reference (beginsWith_cons_iff.2 ⟨rfl, hread⟩) ih
    | case3 cs hread ih =>
      refine .copy (fun d rest h => ?_) ih
      rw [beginsWith_cons_iff, hread] at h
      cases h.2
    | case4 c cs hc ih => exact .copy (fun d rest h => hc (beginsWith_cons_iff.1 h).1) ih

/-! ## signed references -/

variable {R : List Char → Char → Prop}

theorem BeginsWith.mono {R' : List Char → Char → Prop} (hR : ∀ body c, R body c → R' body c)
    {s rest : List Char} {c : Char} (h : BeginsWith R s c rest) : BeginsWith R' s c rest := by
  obtain ⟨body, hbody, h⟩ := h
  exact ⟨body, hR body c hbody, h⟩

theorem OccursIn.of_suffix {s t : List Char} (h : OccursIn R s) (hs : s <:+ t) : OccursIn R t := by
  obtain ⟨part, c, rest, hpart, hbegins⟩ := h
  exact ⟨part, c, rest, hpart.trans hs, hbegins⟩

/-- A reference stands at the start of a text, or behind its first character. -/
theorem occursIn_cons_iff {c : Char} {cs : List Char} :
    OccursIn R (c :: cs) ↔ (∃ d rest, BeginsWith R (c :: cs) d rest) ∨ OccursIn R cs := by
  constructor
  · rintro ⟨part, d, rest, hpart, hbegins⟩
    rcases List.suffix_cons_iff.1 hpart with rfl | hpart
    · exact .inl ⟨d, rest, hbegins⟩
    · exact .inr ⟨part, d, rest, hpart, hbegins⟩
  · rintro (⟨d, rest, hbegins⟩ | h)
    · exact ⟨_, d, rest, List.suffix_refl _, hbegins⟩
    · exact h.of_suffix (List.suffix_cons c cs)

theorem BeginsWith.eq_ampersand {c d : Char} {cs rest : List Char}
    (h : BeginsWith R (c :: cs) d rest) : c = '&' := by
  obtain ⟨_, -, -, -, heq⟩ := h
  exact (List.cons.inj heq).1

/-- A reference does not begin inside a text without ampersands. -/
theorem OccursIn.of_append {p s : List Char} (hp : '&' ∉ p) (h : OccursIn R (p ++ s)) :
    OccursIn R s := by
  induction p with
  | nil => exact h
  | cons x p ih =>
    rw [List.mem_cons, not_or] at hp
    rcases occursIn_cons_iff.1 h with ⟨d, rest, hbegins⟩ | h
    · exact absurd hbegins.eq_ampersand.symm hp.1
    · exact ih hp.2 h

/-- A text without ampersands is copied. -/
theorem Replaces.exists_of_append {p s t : List Char} (hp : '&' ∉ p) (h : Replaces R (p ++ s) t) :
    ∃ t', t = p ++ t' ∧ Replaces R s t' := by
  induction p generalizing t with
  | nil => exact ⟨t, rfl, h⟩
  | cons x p ih =>
    rw [List.mem_cons, not_or] at hp
    cases h with
    | reference hbegins _ => exact absurd hbegins.eq_ampersand.symm hp.1
    | copy _ hrest =>
      obtain ⟨t', rfl, h⟩ := ih hp.2 hrest
      exact ⟨t', rfl, h⟩

/-- A well-formed reference is no signed one. -/
theorem not_beginsWith_isSignedBody {s rest rest' : List Char} {c c' : Char}
    (h : BeginsWith IsBody s c rest) : ¬BeginsWith IsSignedBody s c' rest' := by
  rintro ⟨body', hbody', -, -, heq⟩
  obtain ⟨body, hbody, -, -, rfl⟩ := h
  have hplain : ';' ∉ body := fun hmem => hbody.not_mem _ hmem (by decide)
  have hcut := cut?_append hplain rest
  rw [(List.cons.inj heq).2, cut?_append hbody'.not_mem.2.2, Option.some.injEq,
    Prod.mk.injEq] at hcut
  exact hbody.not_mem '+' (hcut.1 ▸ hbody'.not_mem.1) (by decide)

/-- The scan for well-formed references copies a signed one and goes on behind it. -/
theorem Replaces.exists_of_signed {s rest t : List Char} {c : Char} (h : Replaces IsBody s t)
    (hsigned : BeginsWith IsSignedBody s c rest) :
    ∃ copied t', t = copied ++ t' ∧ 2 ≤ copied.length ∧ Replaces IsBody rest t' := by
  cases h with
  | nil => exact (not_beginsWith_nil hsigned).elim
  | reference hbegins _ => exact (not_beginsWith_isSignedBody hbegins hsigned).elim
  | copy _ hrest =>
    obtain ⟨body, hbody, -, -, heq⟩ := hsigned
    obtain ⟨rfl, rfl⟩ := List.cons.inj heq
    have hplain : '&' ∉ body ++ [';'] := by simpa using hbody.not_mem.2.1
    rw [List.append_cons] at hrest
    obtain ⟨t', rfl, hbehind⟩ := hrest.exists_of_append hplain
    exact ⟨'&' :: (body ++ [';']), t', rfl, by simp, hbehind⟩

theorem BeginsWith.length_lt {s rest : List Char} {c : Char} (h : BeginsWith R s c rest) :
    rest.length < s.length := by
  obtain ⟨body, -, -, -, rfl⟩ := h
  simp only [List.length_cons, List.length_append]
  omega

/-- Behind a well-formed reference stand all the signed ones of a text. -/
theorem OccursIn.behind {s rest : List Char} {c : Char} (h : OccursIn IsSignedBody s)
    (hbegins : BeginsWith IsBody s c rest) : OccursIn IsSignedBody rest := by
  obtain ⟨body, hbody, -, -, rfl⟩ := id hbegins
  rcases occursIn_cons_iff.1 h with ⟨d, rest', hsigned⟩ | h
  · exact (not_beginsWith_isSignedBody hbegins hsigned).elim
  · rw [List.append_cons] at h
    exact h.of_append (by simpa using fun hmem => hbody.not_mem '&' hmem (by decide))

theorem BeginsWith.suffix {s rest : List Char} {c : Char} (h : BeginsWith R s c rest) :
    rest <:+ s := by
  obtain ⟨body, -, -, -, rfl⟩ := h
  exact ⟨'&' :: (body ++ [';']), by simp⟩

/-- An accepted reference is a well-formed or a signed one. -/
theorem beginsWith_isAcceptedBody_iff {s rest : List Char} {c : Char} :
    BeginsWith IsAcceptedBody s c rest ↔
      BeginsWith IsBody s c rest ∨ BeginsWith IsSignedBody s c rest := by
  simp only [BeginsWith, IsAcceptedBody, or_and_right, exists_or]

/-- Without signed references decoding is the scan for the well-formed ones. -/
theorem Replaces.of_not_occursIn {s t : List Char} (h : Replaces IsAcceptedBody s t)
    (hsigned : ¬OccursIn IsSignedBody s) : Replaces IsBody s t := by
  induction h with
  | nil => exact .nil
  | @reference s rest t c h hrest ih =>
    rcases beginsWith_isAcceptedBody_iff.1 h with hbegins | hbegins
    · exact .reference hbegins (ih fun hrest => hsigned (hrest.of_suffix h.suffix))
    · exact (hsigned ⟨s, c, rest, List.suffix_refl s, hbegins⟩).elim
  | copy h hrest ih =>
    refine .copy (fun d rest hbegins => h d rest (hbegins.mono fun _ _ => .inl)) ?_
    exact ih fun hcs => hsigned (occursIn_cons_iff.2 (.inr hcs))

/-- Decoding makes a text no longer than the scan for well-formed references does, and shorter if
there is a signed one. -/
theorem length_decodeReferences_le {s t : List Char} (h : Replaces IsBody s t) :
    (decodeReferences s).length ≤ t.length ∧
      (OccursIn IsSignedBody s → (decodeReferences s).length < t.length) := by
  -- Decoding goes on behind a signed reference, which the scan has still to copy.
  induction hn : s.length using Nat.strongRecOn generalizing s t with
  | ind n ih =>
    subst hn
    have hscan := h
    cases h with
    | nil =>
      refine ⟨by simp [decodeReferences], ?_⟩
      rintro ⟨part, c, rest, hpart, hbegins⟩
      rw [List.suffix_nil.1 hpart] at hbegins
      exact (not_beginsWith_nil hbegins).elim
    | reference hbegins hrest =>
      rw [decodeReferences_of_beginsWith (hbegins.mono fun _ _ => .inl)]
      obtain ⟨hle, hlt⟩ := ih _ hbegins.length_lt hrest rfl
      exact ⟨Nat.succ_le_succ hle, fun hsigned => Nat.succ_lt_succ (hlt (hsigned.behind hbegins))⟩
    | @copy cs t c hcopy hrest =>
      by_cases hsigned : ∃ d rest, BeginsWith IsSignedBody (c :: cs) d rest
      · obtain ⟨d, rest, hbegins⟩ := hsigned
        obtain ⟨copied, t', ht, hcopied, hbehind⟩ := hscan.exists_of_signed hbegins
        have hle := (ih _ hbegins.length_lt hbehind rfl).1
        rw [decodeReferences_of_beginsWith (hbegins.mono fun _ _ => .inr), ht, List.length_cons,
          List.length_append]
        omega
      · have hnone : ∀ d rest, ¬BeginsWith IsAcceptedBody (c :: cs) d rest := fun d rest h =>
          (beginsWith_isAcceptedBody_iff.1 h).elim (hcopy d rest) fun h => hsigned ⟨d, rest, h⟩
        rw [decodeReferences_of_not_beginsWith hnone]
        obtain ⟨hle, hlt⟩ := ih cs.length (Nat.lt_succ_self _) hrest rfl
        exact ⟨Nat.succ_le_succ hle, fun hoccurs =>
          Nat.succ_lt_succ (hlt ((occursIn_cons_iff.1 hoccurs).resolve_left hsigned))⟩

/-- The scan for well-formed references comes to the decoded text if there is no signed one, and
only then. -/
theorem replaces_isBody_iff {s : List Char} :
    Replaces IsBody s (decodeReferences s) ↔ ¬OccursIn IsSignedBody s :=
  ⟨fun h hsigned => Nat.lt_irrefl _ ((length_decodeReferences_le h).2 hsigned),
    (replaces_isAcceptedBody_iff.2 rfl).of_not_occursIn⟩

theorem toList_decodeString (source : String) :
    (decodeString source).toList = decodeReferences source.toList := String.toList_ofList

/-- Decoding scans a text from left to right, replaces the references whose body is well formed or
has a plus sign in front of its number, and copies all else.  This is what replacing the
well-formed references alone comes to, unless there is one with a plus sign. -/
theorem replaces_decodeString (source : String) :
    (∀ text : String,
      Replaces IsAcceptedBody source.toList text.toList ↔ text = decodeString source) ∧
    (Replaces IsBody source.toList (decodeString source).toList ↔
      ¬OccursIn IsSignedBody source.toList) := by
  refine ⟨fun text => ?_, ?_⟩
  · rw [replaces_isAcceptedBody_iff, ← toList_decodeString, String.toList_inj]
  · rw [toList_decodeString, replaces_isBody_iff]

/-- A number with a plus sign is decoded, although no well-formed reference is written so. -/
theorem not_replaces_signed :
    ¬Replaces IsBody "&#+65;".toList (decodeString "&#+65;").toList := by
  have hnumber : WritesNumber 10 ['6', '5'] 65 :=
    ⟨by simp, [6, 5], .cons ⟨by decide, .inl rfl⟩ (.cons ⟨by decide, .inl rfl⟩ .nil), rfl⟩
  have hsigned : IsSignedBody ['#', '+', '6', '5'] 'A' :=
    ⟨['#'], 10, ['6', '5'], by simp [numberMarks], rfl, hnumber⟩
  rw [toList_decodeString, replaces_isBody_iff, Classical.not_not]
  exact ⟨_, 'A', [], List.suffix_refl _, _, hsigned, by decide, by decide, rfl⟩

end LiveTemplate
