import TensorKernel.Literal
import TensorKernel.Operator

/-!
# Arithmetic of literals

What operators compute on scalar values.  Integers are computed in 64 bits and then converted to the
type of the result.  Division and remainder of integers round towards minus infinity; a remainder
has the sign of the divisor.

An operator fails on a zero divisor and on a negative power of an integer.  The other failures are
operators on kinds of values that they are not defined on.
-/

namespace TensorKernel

/-- Why an operator has no value. -/
inductive ArithmeticFault where
  | divisionByZero
  | negativePower (exponent : Int64)
  | bitwiseNegationOfFloat
  | undefinedOnFloats (op : BinOp)
  | undefinedOnIntegers (op : BinOp)
deriving DecidableEq, Inhabited

namespace Literal

/-- The floor of a quotient, from the quotient and the remainder of the division towards zero. -/
def floorDiv (l r : Int64) : Int64 :=
  if l % r ≠ 0 ∧ decide (l < 0) ≠ decide (r < 0) then l / r - 1 else l / r

/-- The remainder of the division that rounds down. -/
def floorMod (l r : Int64) : Int64 :=
  if l % r ≠ 0 ∧ decide (l % r < 0) ≠ decide (r < 0) then l % r + r else l % r

/-- A power by repeated squaring, which wraps around at 64 bits. -/
def power (base : Int64) (exponent : Nat) : Int64 :=
  if exponent = 0 then 1
  else
    let root := power (base * base) (exponent / 2)
    if exponent % 2 = 0 then root else root * base
termination_by exponent
decreasing_by omega

/-- Greater exponents count as this one. -/
def maxExponent : Int64 := 4294967295

/-- The value of an operator on integers of 64 bits. -/
def intBinary (op : BinOp) (l r : Int64) : Except ArithmeticFault Int64 :=
  match op with
  | .add => .ok (l + r)
  | .sub => .ok (l - r)
  | .mul => .ok (l * r)
  | .floorDiv => if r = 0 then .error .divisionByZero else .ok (floorDiv l r)
  | .rem => if r = 0 then .error .divisionByZero else .ok (floorMod l r)
  | .pow =>
    if r < 0 then .error (.negativePower r)
    else .ok (power l (if r ≤ maxExponent then r else maxExponent).toInt.toNat)
  | .bitAnd => .ok (l &&& r)
  | .bitOr => .ok (l ||| r)
  | .bitXor => .ok (l ^^^ r)
  | .max => .ok (if l ≤ r then r else l)
  | .min => .ok (if l ≤ r then l else r)
  | _ => .error (.undefinedOnIntegers op)

/-- The remainder of doubles, with the sign of the divisor. -/
def floatMod (l r : Float) : Float :=
  let m := Binary64.remainder l r
  if m != 0.0 && (m < 0.0 : Bool) != (r < 0.0 : Bool) then m + r else m

/-- The greater of two doubles.  A number wins over what is not one, and the first over an equal. -/
def floatMax (l r : Float) : Float :=
  if l.isNaN then r else if l < r then r else l

/-- The lesser of two doubles.  A number wins over what is not one, and the first over an equal. -/
def floatMin (l r : Float) : Float :=
  if l.isNaN then r else if r < l then r else l

/-- The value of an operator on doubles. -/
def floatBinary (op : BinOp) (l r : Float) : Except ArithmeticFault Float :=
  match op with
  | .add => .ok (l + r)
  | .sub => .ok (l - r)
  | .mul => .ok (l * r)
  | .div => .ok (l / r)
  | .floorDiv => .ok (l / r).floor
  | .rem => .ok (floatMod l r)
  | .pow => .ok (l.pow r)
  | .max => .ok (floatMax l r)
  | .min => .ok (floatMin l r)
  | _ => .error (.undefinedOnFloats op)

/-- Whether a value is a double. -/
def isFloat : Literal → Bool
  | float _ => true
  | _ => false

/-- The value of a comparison of integers; operators that compare nothing give false. -/
def compareInts (op : BinOp) (l r : Int64) : Bool :=
  match op with
  | .eq => l == r
  | .neq => l != r
  | .lt => l < r
  | .leq => l ≤ r
  | .gt => r < l
  | .geq => r ≤ l
  | _ => false

/-- The value of a comparison of doubles; only `!=` holds of what is not a number. -/
def compareFloats (op : BinOp) (l r : Float) : Bool :=
  match op with
  | .eq => l == r
  | .neq => l != r
  | .lt => l < r
  | .leq => l ≤ r
  | .gt => r < l
  | .geq => r ≤ l
  | _ => false

/-- Comparisons are made between doubles as soon as one operand is a double. -/
def compare (op : BinOp) (l r : Literal) : Bool :=
  if l.isFloat || r.isFloat then compareFloats op l.asFloat r.asFloat
  else compareInts op l.asInt r.asInt

/-- The value of a binary operator whose result has the given type. -/
def binary (op : BinOp) (l r : Literal) (sz : ElemSize) : Except ArithmeticFault Literal :=
  if op.isComparison then .ok (bool (compare op l r))
  else if op.isBoolean then
    .ok (bool (if op = .and then l.isTruthy && r.isTruthy else l.isTruthy || r.isTruthy))
  else if sz.isFloatingPoint then
    (floatBinary op l.asFloat r.asFloat).map fun v => convert (float v) sz
  else (intBinary op l.asInt r.asInt).map fun v => convert (int v) sz

/-- The value of a unary operator whose result has the given type. -/
def unary (op : UnOp) (v : Literal) (sz : ElemSize) : Except ArithmeticFault Literal :=
  match op, v with
  | .neg, float f => .ok (convert (float (-f)) sz)
  | .neg, v => .ok (convert (int (-v.asInt)) sz)
  | .not, v => .ok (convert (bool (!v.isTruthy)) sz)
  | .bitNot, bool b => .ok (convert (bool (!b)) sz)
  | .bitNot, int i => .ok (convert (int (~~~i)) sz)
  | .bitNot, float _ => .error .bitwiseNegationOfFloat

end Literal

end TensorKernel
