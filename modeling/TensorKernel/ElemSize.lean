/-!
# Element sizes

The scalar types of kernels: a boolean, signed integers of four widths and floating-point numbers of
three widths.  `ElemSize.lub` is the size in which two operands are combined.
-/

namespace TensorKernel

/-- The type of a scalar, or of the elements of a tensor. -/
inductive ElemSize where
  | bool
  | i8
  | i16
  | i32
  | i64
  | f16
  | f32
  | f64
deriving DecidableEq, Inhabited

namespace ElemSize

/-- Every element size, booleans first and each family from narrow to wide. -/
def all : List ElemSize := [bool, i8, i16, i32, i64, f16, f32, f64]

/-- The name by which annotations refer to an element size. -/
def typeName : ElemSize → String
  | bool => "bool"
  | i8 => "int8"
  | i16 => "int16"
  | i32 => "int32"
  | i64 => "int64"
  | f16 => "float16"
  | f32 => "float32"
  | f64 => "float64"

/-- The element size an annotation refers to by the given name. -/
def ofTypeName? (name : String) : Option ElemSize :=
  all.find? fun sz => sz.typeName = name

/-- Whether it is the type of booleans. -/
def isBoolean : ElemSize → Bool
  | bool => true
  | _ => false

/-- Whether it is one of the integer types, all of which are signed. -/
def isSignedInteger : ElemSize → Bool
  | i8 | i16 | i32 | i64 => true
  | _ => false

/-- Whether it is one of the floating-point types. -/
def isFloatingPoint : ElemSize → Bool
  | f16 | f32 | f64 => true
  | _ => false

/-- The width of the representation in bits. -/
def bits : ElemSize → Nat
  | bool => 1
  | i8 => 8
  | i16 | f16 => 16
  | i32 | f32 => 32
  | i64 | f64 => 64

/--
The least upper bound of two element sizes: a boolean gives way to the other size, an integer to a
floating-point size, and within a family the wider size wins.
-/
def lub (l r : ElemSize) : ElemSize :=
  if l = bool then r
  else if r = bool then l
  else if l.isFloatingPoint = r.isFloatingPoint then
    if r.bits ≤ l.bits then l else r
  else if l.isFloatingPoint then l
  else r

/-- Names and element sizes correspond. -/
theorem ofTypeName?_typeName (sz : ElemSize) : ofTypeName? sz.typeName = some sz := by
  cases sz <;> decide +kernel

/-- The order of the operands does not matter for the size in which they are combined. -/
theorem lub_comm (l r : ElemSize) : l.lub r = r.lub l := by
  cases l <;> cases r <;> rfl

end ElemSize

end TensorKernel
