import TensorKernel.Binary32
import TensorKernel.Decimal.Layout
import TensorKernel.ElemSize

/-!
# Literals

The scalar values of kernels.  An integer has 64 bits whatever the width of its type, and a
floating-point number is a double; `Literal.convert` brings a value into the range of a type.
-/

namespace TensorKernel

/-- A scalar value. -/
inductive Literal where
  | bool (value : Bool)
  | int (value : Int64)
  | float (value : Float)
deriving DecidableEq, Inhabited

namespace Literal

/-- A value as an integer: fractions are dropped, and what is too large becomes the nearest end. -/
def asInt : Literal → Int64
  | bool b => if b then 1 else 0
  | int v => v
  | float v => v.toInt64

/-- A value as a double, rounded to the nearest. -/
def asFloat : Literal → Float
  | bool b => if b then 1.0 else 0.0
  | int v => v.toFloat
  | float v => v

/-- Everything but `False` and zero is true; what is not a number is true. -/
def isTruthy : Literal → Bool
  | bool b => b
  | int v => v != 0
  | float v => v != 0.0

/-- How graphs show a value. -/
def text : Literal → String
  | bool b => if b then "True" else "False"
  | int v => toString v.toInt
  | float v => Decimal.Layout.general.write v

/-- Keeps the low bits of an integer and reads them as a signed number. -/
def wrap (width : Nat) (v : Int64) : Int64 :=
  Int64.ofInt (v.toInt.bmod (Nat.pow 2 width))

/--
A value in the representation of a type.  Integers wrap around at the width of the type.  Half
precision is kept as a double, so only single precision rounds.
-/
def convert (v : Literal) (sz : ElemSize) : Literal :=
  match sz with
  | .bool => bool v.isTruthy
  | .i8 => int (wrap 8 v.asInt)
  | .i16 => int (wrap 16 v.asInt)
  | .i32 => int (wrap 32 v.asInt)
  | .i64 => int v.asInt
  | .f16 => float v.asFloat
  | .f32 => float (Binary32.round v.asFloat)
  | .f64 => float v.asFloat

end Literal

namespace ElemSize

/-- The least integer of each signed integer type, and zero for the other types. -/
def minInt : ElemSize → Int
  | i8 => -128
  | i16 => -32768
  | i32 => -2147483648
  | i64 => -9223372036854775808
  | _ => 0

/-- The greatest integer of each signed integer type, and zero for the other types. -/
def maxInt : ElemSize → Int
  | i8 => 127
  | i16 => 32767
  | i32 => 2147483647
  | i64 => 9223372036854775807
  | _ => 0

/-- The greatest finite number of each floating-point type, and zero for the other types. -/
def maxFloat : ElemSize → Float
  | f16 => 65504.0
  | f32 => 3.4028234663852886e38
  | f64 => 1.7976931348623157e308
  | _ => 0.0

/-- The narrowest signed integer type that contains a number. -/
def ofInt? (v : Int) : Option ElemSize :=
  [i8, i16, i32, i64].find? fun sz => sz.minInt ≤ v && v ≤ sz.maxInt

/-- The narrowest floating-point type whose range contains a number. -/
def ofFloat? (v : Float) : Option ElemSize :=
  [f16, f32, f64].find? fun sz => v.abs ≤ sz.maxFloat

end ElemSize

end TensorKernel
