import TensorKernel.Decimal.Shortest

/-!
# Layouts of decimals

How the digits of a number become text: which numbers are written positionally and which with a
power of ten, and whether a whole number gets a digit after its point.
-/

namespace TensorKernel

namespace Decimal

/--
A layout writes a number positionally if the exponent of its first digit is in `positional`, and
otherwise with one digit before the point and a power of ten.  The other two fields say whether a
number without a fraction, or a whole digit before a power of ten, is followed by `.0`.
-/
structure Layout where
  positional : Int → Bool
  wholeFraction : Bool
  powerFraction : Bool

namespace Layout

/-- Every number positionally, whole numbers without a point. -/
def plain : Layout where
  positional := fun _ => true
  wholeFraction := false
  powerFraction := false

/-- Numbers from a ten-thousandth to below ten to the sixteenth positionally, with a point. -/
def general : Layout where
  positional := fun exponent => -4 ≤ exponent && exponent < 16
  wholeFraction := true
  powerFraction := false

/-- Every number with a power of ten, always with a point. -/
def scientific : Layout where
  positional := fun _ => false
  wholeFraction := true
  powerFraction := true

/-- A run of zeros. -/
def zeros (count : Nat) : String :=
  "".pushn '0' count

/--
Digits with the point after the first `place` of them, with zeros where there are none.
-/
def writePositional (layout : Layout) (digits : List Char) (place : Int) : String :=
  if place ≤ 0 then "0." ++ zeros (-place).toNat ++ String.ofList digits
  else
    let count := place.toNat
    if digits.length ≤ count then
      String.ofList digits ++ zeros (count - digits.length) ++
        (if layout.wholeFraction then ".0" else "")
    else String.ofList (digits.take count) ++ "." ++ String.ofList (digits.drop count)

/-- Digits with the point after the first of them, times a power of ten. -/
def writePower (layout : Layout) (digits : List Char) (exponent : Int) : String :=
  let fraction := digits.drop 1
  let point :=
    if fraction.isEmpty then (if layout.powerFraction then ".0" else "")
    else "." ++ String.ofList fraction
  String.ofList (digits.take 1) ++ point ++ "e" ++ toString exponent

/-- The text of an unsigned decimal. -/
def writeDecimal (layout : Layout) (number : Decimal) : String :=
  let digits := number.digits.repr.toList
  let place := digits.length + number.exponent
  if layout.positional (place - 1) then layout.writePositional digits place
  else layout.writePower digits (place - 1)

/-- The text of a double: its sign, and its shortest decimal in the given layout. -/
def write (layout : Layout) (x : Float) : String :=
  match Binary64.ofFloat x with
  | .notANumber => "NaN"
  | .infinite negative => (if negative then "-" else "") ++ "inf"
  | .finite negative mantissa exponent =>
    let number := if mantissa = 0 then ⟨0, 0⟩ else shortest mantissa exponent
    (if negative then "-" else "") ++ layout.writeDecimal number

end Layout

end Decimal

end TensorKernel
