/-!
# LiveTemplate.Decimal.Shortest

The shortest decimal that reads back as a given binary number.

A positive finite number is `m * 2 ^ q`.  The reals which round to it form an
interval around it, whose ends belong to it when `m` is even.  For one digit,
then two, and so on, the number's two neighbours on the decimal grid with that
many digits are tried: the first grid with a neighbour in the interval wins, the
nearer of two neighbours is taken, and of two equally near ones the greater.

All of this is exact arithmetic on natural numbers.
-/

namespace LiveTemplate

/-- The decimal `digits * 10 ^ exponent`. -/
structure Decimal where
  digits : Nat
  exponent : Int
deriving DecidableEq, Repr

/-- The positive number `mantissa * 2 ^ exponent`.  In a normal number the mantissa
fills all 53 bits. -/
structure Binary where
  mantissa : Nat
  exponent : Int
deriving DecidableEq, Repr

namespace Binary

/-- The exponent of the subnormal numbers and of the smallest normal ones. -/
def leastExponent : Int := -1074

/-- How many fractions of 52 bits there are: the least mantissa of a normal number. -/
def fractions : Nat := Nat.pow 2 52

/-- The number with the given sixty-three bits of a finite double. -/
def ofBits (bits : Nat) : Binary :=
  let fraction := bits % fractions
  let biased : Nat := bits / fractions
  if biased = 0 then ⟨fraction, leastExponent⟩
  else ⟨fractions + fraction, (biased : Int) - 1075⟩

/-- Whether the next smaller number is nearer than the next greater one. -/
def closeBelow (b : Binary) : Bool :=
  b.mantissa == fractions && leastExponent < b.exponent

/-- The numerators of the number and of the ends of its interval, over the common
denominator that comes last. -/
structure Interval where
  value : Nat
  low : Nat
  high : Nat
  denominator : Nat
  closed : Bool

/-- The reals that round to the number: up to half the distance to each of its two
neighbours.  A quarter of the number's unit in the last place is the unit here. -/
def interval (b : Binary) : Interval :=
  let up := Nat.pow 2 (b.exponent - 2).toNat
  { value := 4 * b.mantissa * up
    low := (4 * b.mantissa - (if b.closeBelow then 1 else 2)) * up
    high := (4 * b.mantissa + 2) * up
    denominator := Nat.pow 2 (2 - b.exponent).toNat
    closed := b.mantissa % 2 == 0 }

end Binary

namespace Binary.Interval

/-- Multiplies the numerators or the denominator, so that the grid of the multiples of
`10 ^ exponent` becomes the grid of whole numbers. -/
def rescale (i : Interval) (exponent : Int) : Interval :=
  let down := Nat.pow 10 (-exponent).toNat
  { i with
    value := i.value * down
    low := i.low * down
    high := i.high * down
    denominator := i.denominator * Nat.pow 10 exponent.toNat }

/-- Whether a whole number lies in the interval. -/
def contains (i : Interval) (n : Nat) : Bool :=
  let x := n * i.denominator
  if i.closed then i.low ≤ x && x ≤ i.high else i.low < x && x < i.high

/-- The whole number of the interval that is nearest to the value; of the two nearest,
the greater. -/
def nearest? (i : Interval) : Option Nat :=
  let below := i.value / i.denominator
  let above := below + 1
  let remainder := i.value % i.denominator
  match i.contains below, i.contains above with
  | true, true => some (if 2 * remainder < i.denominator then below else above)
  | true, false => some below
  | false, true => some above
  | false, false => none

/-- The exponent of the leading decimal digit of the value, from an estimate that is
not above it. -/
def leadingExponent (i : Interval) : Nat → Int → Int
  | 0, estimate => estimate
  | steps + 1, estimate =>
    let j := i.rescale (estimate + 1)
    if j.denominator ≤ j.value then i.leadingExponent steps (estimate + 1) else estimate

end Binary.Interval

/-- Moves zeros at the end of the digits into the exponent; `fuel` bounds how many. -/
def Decimal.normalize : Nat → Decimal → Decimal
  | 0, d => d
  | fuel + 1, d =>
    if d.digits % 10 = 0 ∧ d.digits ≠ 0 then Decimal.normalize fuel ⟨d.digits / 10, d.exponent + 1⟩
    else d

/-- The first grid, from `size` digits on, with a neighbour of the number in its interval. -/
def shortestFrom (i : Binary.Interval) (leading : Int) (fuel size : Nat) : Decimal :=
  let exponent := leading + 1 - size
  match (i.rescale exponent).nearest?, fuel with
  | some digits, _ => Decimal.normalize size ⟨digits, exponent⟩
  | none, fuel + 1 => shortestFrom i leading fuel (size + 1)
  | none, 0 => ⟨(i.rescale exponent).value / (i.rescale exponent).denominator, exponent⟩

/-- Seventeen digits tell any two doubles apart. -/
def maxDigits : Nat := 17

/-- The shortest decimal that reads back as a positive number. -/
def Binary.shortest (b : Binary) : Decimal :=
  let i := b.interval
  -- One decimal digit is worth between three and four binary ones.
  let bits := b.exponent + b.mantissa.log2
  let estimate := bits * 30103 / 100000 - 1
  shortestFrom i (i.leadingExponent 3 estimate) (maxDigits - 1) 1

end LiveTemplate
