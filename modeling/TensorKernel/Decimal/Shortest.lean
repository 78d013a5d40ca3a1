import TensorKernel.Binary64

/-!
# Shortest decimals

A double is read back from every decimal in the interval of reals that round to it.
`Decimal.shortest` gives the decimal of that interval with the fewest digits, and of those with the
fewest digits the one nearest to the double; of two equally near ones it gives the greater.
-/

namespace TensorKernel

/-- The decimal number `digits · 10 ^ exponent`. -/
structure Decimal where
  digits : Nat
  exponent : Int
deriving DecidableEq, Inhabited

namespace Decimal

/--
The reals that round to a double, with three numerators over one denominator: the two ends and the
double itself.  The ends belong to the interval if it is closed.
-/
structure Interval where
  lower : Nat
  value : Nat
  upper : Nat
  denominator : Nat
  closed : Bool
deriving DecidableEq, Inhabited

/--
The interval of the double `mantissa · 2 ^ exponent`.  It reaches half a unit to both sides, but
only a quarter below a power of two, where the doubles become denser, and it is closed if the
mantissa is even, because ties are rounded to even.
-/
def interval (mantissa : Nat) (exponent : Int) : Interval :=
  let scale := Nat.pow 2 (exponent - 2).toNat
  let isPowerOfTwo := mantissa == Nat.pow 2 Binary64.storedBits
  let gap := if isPowerOfTwo ∧ Binary64.leastExponent < exponent then 1 else 2
  { lower := (4 * mantissa - gap) * scale
    value := 4 * mantissa * scale
    upper := (4 * mantissa + 2) * scale
    denominator := Nat.pow 2 (2 - exponent).toNat
    closed := mantissa % 2 == 0 }

/-- The number of decimal digits of a number. -/
def digitCount (n : Nat) : Nat :=
  n.repr.length

/-- The place of the first digit of a fraction: one for units, zero for tenths. -/
def leadingPlace (numerator denominator : Nat) : Int :=
  if denominator ≤ numerator then digitCount (numerator / denominator)
  else
    let count := digitCount (denominator / numerator)
    if denominator ≤ numerator * Nat.pow 10 (count - 1) then 2 - (count : Int)
    else 1 - (count : Int)

/-- The member of an interval among the neighbours of its value in the multiples of `10 ^ place`. -/
def onGrid (range : Interval) (place : Int) : Option Decimal :=
  let up := Nat.pow 10 (-place).toNat
  let unit := range.denominator * Nat.pow 10 place.toNat
  let below := range.value * up / unit
  let inside (n : Nat) : Bool :=
    if range.closed then range.lower * up ≤ n * unit && n * unit ≤ range.upper * up
    else range.lower * up < n * unit && n * unit < range.upper * up
  let upperNearer := (2 * below + 1) * unit ≤ 2 * (range.value * up)
  if inside below && !(inside (below + 1) && upperNearer) then some ⟨below, place⟩
  else if inside (below + 1) then some ⟨below + 1, place⟩
  else none

/-- The same number without zeros at the end of its digits. -/
def trimmed (number : Decimal) : Decimal :=
  if number.digits = 0 ∨ number.digits % 10 ≠ 0 then number
  else trimmed ⟨number.digits / 10, number.exponent + 1⟩
termination_by number.digits
decreasing_by omega

/-- Doubles are determined by seventeen digits. -/
def enoughDigits : Nat := 17

/-- The shortest decimal of the double `mantissa · 2 ^ exponent`, which is not zero. -/
def shortest (mantissa : Nat) (exponent : Int) : Decimal :=
  let range := interval mantissa exponent
  let place := leadingPlace range.value range.denominator
  let hit := (List.range enoughDigits).findSome? fun (n : Nat) =>
    onGrid range (place - ((n + 1 : Nat) : Int))
  (hit.getD ⟨mantissa, exponent⟩).trimmed

end Decimal

end TensorKernel
