import LiveTemplate.Value.Basic

/-!
# LiveTemplate.Proofs.Value.Sameness

Values that are the same have the same text.

This is clear of all values but numbers, which are compared as numbers: two of them
that are equal have the same bits, or both are zeros, which are written without a sign.
-/

namespace LiveTemplate

open Float.Model (UnpackedFloat Format)
open Float.Model.UnpackedFloat (Sign unpackMantissa unpackExponent unpackSign)

/-! ## bits -/

/-- The bit of a sign, at its place. -/
def signBits : Sign → Nat
  | .positive => 0
  | .negative => signBit

/-- The bits of a double with the given parts; those of not-a-number are left open. -/
def bitsOf : UnpackedFloat → Nat
  | .notANumber => 0
  | .infinity s => signBits s + infinityBits
  | .zero s => signBits s
  | .finite s m e _ =>
    signBits s + if m < Binary.fractions then m
      else (e + 1075).toNat * Binary.fractions + (m - Binary.fractions)

theorem signBits_ofBitVec (b : BitVec 1) : signBits (Sign.ofBitVec b) = b.toNat * signBit := by
  revert b
  decide

/-- A double is its sign, its exponent and its mantissa. -/
theorem toNat_eq_fields (x : BitVec Format.binary64.numBits) :
    x.toNat = (unpackSign x).toNat * signBit + (unpackExponent x).toNat * Binary.fractions +
      (unpackMantissa x).toNat := by
  have hlt : x.toNat < 2 ^ 64 := x.isLt
  have hmantissa : (unpackMantissa x).toNat = x.toNat % 2 ^ 52 := by
    simp [unpackMantissa]
  have hexponent : (unpackExponent x).toNat = x.toNat / 2 ^ 52 % 2 ^ 11 := by
    simp [unpackExponent, Nat.shiftRight_eq_div_pow]
  have hsign : (unpackSign x).toNat = x.toNat / 2 ^ 63 := by
    delta unpackSign
    simp [Nat.shiftRight_eq_div_pow]
    omega
  rw [show signBit = 2 ^ 63 from rfl, show Binary.fractions = 2 ^ 52 from rfl]
  omega

/-- Unpacking keeps the bits. -/
theorem bitsOf_unpack {x : BitVec Format.binary64.numBits}
    (h : UnpackedFloat.unpack Format.binary64 x ≠ .notANumber) :
    bitsOf (UnpackedFloat.unpack Format.binary64 x) = x.toNat := by
  have hfields := toNat_eq_fields x
  have hmantissa : (unpackMantissa x).toNat < Binary.fractions := (unpackMantissa x).isLt
  have hsign := signBits_ofBitVec (unpackSign x)
  unfold UnpackedFloat.unpack at h ⊢
  dsimp only at h ⊢
  by_cases hones : unpackExponent x = -1#_
  -- Infinities, since what is no number is excluded.
  · have hexponent : (unpackExponent x).toNat = 2047 := by rw [hones]; rfl
    rw [hexponent] at hfields
    rw [if_pos hones] at h ⊢
    by_cases hzero : unpackMantissa x = 0#_
    · have hnone : (unpackMantissa x).toNat = 0 := by rw [hzero]; rfl
      rw [if_pos hzero]
      show signBits _ + 2047 * Binary.fractions = _
      omega
    · rw [if_neg hzero] at h
      exact absurd rfl h
  · rw [if_neg hones]
    by_cases hzeros : unpackExponent x = 0#_
    -- Zeros and the subnormal numbers, whose mantissa has no leading one.
    · have hexponent : (unpackExponent x).toNat = 0 := by rw [hzeros]; rfl
      rw [hexponent] at hfields
      rw [if_pos hzeros]
      by_cases hzero : unpackMantissa x = 0#_
      · have hnone : (unpackMantissa x).toNat = 0 := by rw [hzero]; rfl
        rw [dif_pos hzero]
        show signBits _ = _
        omega
      · rw [dif_neg hzero]
        show signBits _ + (if (unpackMantissa x).toNat < Binary.fractions then _ else _) = _
        rw [if_pos hmantissa]
        omega
    -- Normal numbers: the leading one, which is not stored, is taken off again.
    · have hwhole : (1#1 ++ unpackMantissa x).toNat =
          Binary.fractions + (unpackMantissa x).toNat := by
        rw [BitVec.toNat_append, ← Nat.shiftLeft_add_eq_or_of_lt hmantissa]
        rfl
      have hbiased : ((unpackExponent x).toNat : Int) -
          (Format.binary64.exponentBias + Format.binary64.mantissaBitsWithoutImplicit) + 1075 =
            (unpackExponent x).toNat := by
        show ((unpackExponent x).toNat : Int) - (1023 + 52) + 1075 = _
        omega
      rw [if_neg hzeros]
      show signBits _ + (if (1#1 ++ unpackMantissa x).toNat < Binary.fractions then _ else _) = _
      rw [hwhole, if_neg (by omega), hbiased, Int.toNat_natCast]
      omega

/-- Doubles that are equal as numbers have the same parts, unless they are zeros. -/
theorem eq_of_compare {a b : UnpackedFloat} (h : a.compare b = some .eq) :
    (a = b ∧ a ≠ .notANumber) ∨ ∃ s s', a = .zero s ∧ b = .zero s' := by
  have hsign : ∀ s s' : Sign, compare s s' = .eq → s = s' := by
    intro s s' h
    cases s <;> cases s' <;> first | rfl | cases h
  have hparts : ∀ (e e' : Int) (m m' : Nat), (compare e e').then (compare m m') = .eq →
      e = e' ∧ m = m' := by
    intro e e' m m' h
    obtain ⟨he, hm⟩ := Ordering.then_eq_eq.1 h
    exact ⟨Std.LawfulEqOrd.eq_of_compare he, Std.LawfulEqOrd.eq_of_compare hm⟩
  cases a with
  | notANumber => cases h
  | infinity s =>
    cases b with
    | infinity s' =>
      obtain rfl := hsign s s' (Option.some.inj h)
      exact .inl ⟨rfl, fun hnan => by cases hnan⟩
    | _ => cases s <;> cases h
  | zero s =>
    cases b with
    | zero s' => exact .inr ⟨s, s', rfl, rfl⟩
    | notANumber => cases h
    | infinity s' | finite s' => cases s' <;> cases h
  | finite s m e hm =>
    cases b with
    | finite s' m' e' hm' =>
      cases s <;> cases s'
      case positive.positive =>
        obtain ⟨rfl, rfl⟩ := hparts e e' m m' (Option.some.inj h)
        exact .inl ⟨rfl, fun hnan => by cases hnan⟩
      case negative.negative =>
        obtain ⟨rfl, rfl⟩ := hparts e e' m m' (Ordering.swap_eq_eq.1 (Option.some.inj h))
        exact .inl ⟨rfl, fun hnan => by cases hnan⟩
      all_goals cases h
    | notANumber => cases h
    | infinity s' => cases s' <;> cases h
    | zero s' => cases s <;> cases h

/-- Numbers that are equal have the same bits, unless they are zeros. -/
theorem bits_of_beq {x y : Float} (h : (x == y) = true) :
    x.toBits.toNat = y.toBits.toNat ∨
      (x.toBits.toNat % signBit = 0 ∧ y.toBits.toNat % signBit = 0) := by
  have hcompare : (UnpackedFloat.unpack Format.binary64 x.toBits.toBitVec).compare
      (UnpackedFloat.unpack Format.binary64 y.toBits.toBitVec) = some .eq :=
    eq_of_beq (show (_ == some Ordering.eq) = true from h)
  have hbits : ∀ z : Float, z.toBits.toNat = z.toBits.toBitVec.toNat := fun z => rfl
  have hzero : ∀ (z : Float) s, UnpackedFloat.unpack Format.binary64 z.toBits.toBitVec = .zero s →
      z.toBits.toNat % signBit = 0 := by
    intro z s hz
    rw [hbits, ← bitsOf_unpack (by rw [hz]; simp), hz]
    cases s <;> decide
  rcases eq_of_compare hcompare with ⟨heq, hnan⟩ | ⟨s, s', hx, hy⟩
  · left
    rw [hbits, hbits, ← bitsOf_unpack hnan, heq, bitsOf_unpack (by rw [← heq]; exact hnan)]
  · exact .inr ⟨hzero x s hx, hzero y s' hy⟩

/-- Numbers that are equal are written alike. -/
theorem write_of_beq {x y : Float} (h : (x == y) = true) :
    NumberStyle.value.write x = NumberStyle.value.write y := by
  have hzero : ∀ z : Float, z.toBits.toNat % signBit = 0 →
      NumberStyle.value.write z = String.ofList ['0'] := by
    intro z hz
    rw [NumberStyle.write]
    simp only [hz]
    rfl
  rcases bits_of_beq h with hbits | ⟨hx, hy⟩
  · rw [NumberStyle.write, NumberStyle.write, hbits]
  · rw [hzero x hx, hzero y hy]

/-! ## values -/

namespace Value

/-- Values that are the same are nullish both, or nodes both. -/
theorem isNullish_of_same {v w : Value} (h : v.same w = true) :
    v.isNullish = w.isNullish ∧ v.isNode = w.isNode := by
  unfold same at h
  split at h <;> first | exact ⟨rfl, rfl⟩ | cases h

theorem itemTexts_cons (v : Value) (vs : List Value) :
    itemTexts (v :: vs) = (if v.isNullish then "" else v.text) :: itemTexts vs := by
  cases v <;> rfl

mutual

/-- Values that are the same have the same text. -/
theorem text_of_same : (v w : Value) → v.same w = true → v.text = w.text
  | .undefined, w, h => by cases w <;> first | rfl | cases h
  | .null, w, h => by cases w <;> first | rfl | cases h
  | .bool b, w, h => by
    cases w <;> first | rw [eq_of_beq (a := b) h] | cases h
  | .number x, w, h => by
    cases w <;> first | exact write_of_beq h | cases h
  | .string s, w, h => by
    cases w <;> first | exact eq_of_beq (a := s) h | cases h
  | .list items, w, h => by
    cases w with
    | list items' => rw [text, text, itemTexts_of_sameList items items' h]
    | _ => cases h
  | .object id, w, h => by cases w <;> first | rfl | cases h
  | .node id, w, h => by cases w <;> first | rfl | cases h

theorem itemTexts_of_sameList : (vs ws : List Value) → sameList vs ws = true →
    itemTexts vs = itemTexts ws
  | [], [], _ => rfl
  | v :: vs, w :: ws, h => by
    rw [sameList, Bool.and_eq_true] at h
    rw [itemTexts_cons, itemTexts_cons, (isNullish_of_same h.1).1, text_of_same v w h.1,
      itemTexts_of_sameList vs ws h.2]
  | [], _ :: _, h => by cases h
  | _ :: _, [], h => by cases h

end

end Value

end LiveTemplate
