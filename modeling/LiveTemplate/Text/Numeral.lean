/-!
# LiveTemplate.Text.Numeral

Reading natural numbers: an optional plus sign and one or more digits.

Character references, list indices and number literals read their digits here.
-/

namespace LiveTemplate

/-- The value of a digit in a radix up to sixteen; letters of both cases are digits. -/
def digitValue? (radix : Nat) (c : Char) : Option Nat :=
  let value :=
    if '0' ≤ c ∧ c ≤ '9' then c.toNat - '0'.toNat
    else if 'a' ≤ c ∧ c ≤ 'f' then c.toNat - 'a'.toNat + 10
    else if 'A' ≤ c ∧ c ≤ 'F' then c.toNat - 'A'.toNat + 10
    else radix
  if value < radix then some value else none

/-- The number that digits write after the digits of `acc`. -/
def readDigits? (radix : Nat) (acc : Nat) : List Char → Option Nat
  | [] => some acc
  | c :: cs => (digitValue? radix c).bind fun d => readDigits? radix (acc * radix + d) cs

/-- The number written by an optional plus sign and one or more digits. -/
def readNumeral? (radix : Nat) : List Char → Option Nat
  | '+' :: c :: cs => readDigits? radix 0 (c :: cs)
  | c :: cs => readDigits? radix 0 (c :: cs)
  | [] => none

end LiveTemplate
