import LiveTemplate.Decimal.Shortest

/-!
# LiveTemplate.Decimal.Style

Writing numbers: which of them are written with an exponent, and how the special
ones are called.

A `NumberStyle` holds these decisions.  The digits are those of the shortest
decimal that reads back.  Whole numbers are written without a point.
-/

namespace LiveTemplate

/-- How numbers are written.  Numbers whose leading digit stands at an exponent in
`positional` are written with all their places, others with an exponent. -/
structure NumberStyle where
  nan : String
  infinity : String
  signedZero : Bool
  positional : Int → Bool

namespace Decimal

/-- The digits, in order. -/
def figures (d : Decimal) : List Char := Nat.toDigits 10 d.digits

/-- The exponent of the leading digit. -/
def leadingExponent (d : Decimal) : Int := d.exponent + (d.figures.length : Int) - 1

/-- All places of a decimal: `1500`, `1.5`, `0.015`. -/
def positionalText (d : Decimal) : List Char :=
  let digits := d.figures
  if 0 ≤ d.exponent then digits ++ List.replicate d.exponent.toNat '0'
  else
    let places := (-d.exponent).toNat
    if places < digits.length then
      let whole := digits.length - places
      digits.take whole ++ '.' :: digits.drop whole
    else '0' :: '.' :: List.replicate (places - digits.length) '0' ++ digits

/-- One digit before the point and an exponent with its sign: `1.5e-7`, `1e+21`. -/
def exponentText (d : Decimal) : List Char :=
  let mantissa := match d.figures with
    | [] => []
    | [digit] => [digit]
    | digit :: more => digit :: '.' :: more
  let exponent := d.leadingExponent
  mantissa ++ 'e' :: (if exponent < 0 then '-' else '+') :: Nat.toDigits 10 exponent.natAbs

end Decimal

/-- The bit of the sign. -/
def signBit : Nat := Nat.pow 2 63

/-- The bits of positive infinity; those of every greater magnitude are not a number. -/
def infinityBits : Nat := 2047 * Binary.fractions

/-- Writes a number in a style. -/
def NumberStyle.write (style : NumberStyle) (x : Float) : String :=
  let bits := x.toBits.toNat
  let magnitude := bits % signBit
  let sign := if signBit ≤ bits then ['-'] else []
  if infinityBits < magnitude then style.nan
  else if magnitude = infinityBits then String.ofList sign ++ style.infinity
  else if magnitude = 0 then String.ofList (if style.signedZero then sign ++ ['0'] else ['0'])
  else
    let d := (Binary.ofBits magnitude).shortest
    String.ofList
      (sign ++ if style.positional d.leadingExponent then d.positionalText else d.exponentText)

/-- Numbers as values are shown: exponents from 21 on and below -6 are written out, and
zero has no sign. -/
def NumberStyle.value : NumberStyle :=
  { nan := "NaN", infinity := "Infinity", signedZero := false
    positional := fun e => -6 ≤ e && e ≤ 20 }

/-- Numbers as the callee of a mustache: no number has an exponent, and zero keeps its
sign. -/
def NumberStyle.callee : NumberStyle :=
  { nan := "NaN", infinity := "inf", signedZero := true, positional := fun _ => true }

end LiveTemplate
