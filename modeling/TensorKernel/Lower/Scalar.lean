import TensorKernel.Lower.State

/-!
# Lowering scalar operators

The statements that compute an operator on scalars.  Operands are first converted to the type in
which the operator computes.
-/

namespace TensorKernel

open Buffer (ArithOp CastOp Predicate Ty)

/-- A scalar value and its type. -/
structure TypedName where
  name : Name
  size : ElemSize
deriving DecidableEq, Inhabited

namespace LowerM

/-- Emits a constant. -/
def constant (v : Literal) (sz : ElemSize) : LowerM Name := do
  let dst ← fresh "cst"
  emit (.constant dst v (.scalar sz))
  pure dst

/-- Emits a zero. -/
def zero (sz : ElemSize) : LowerM Name :=
  constant (if sz.isFloatingPoint then .float 0.0 else .int 0) sz

/-- Emits arithmetic on two values of one type. -/
def arith (op : ArithOp) (lhs rhs : Name) (sz : ElemSize) : LowerM Name := do
  let dst ← fresh "t"
  emit (.arith dst op lhs rhs (.scalar sz))
  pure dst

/-- Emits a comparison of two values of one type. -/
def compare (predicate : Predicate) (lhs rhs : Name) (sz : ElemSize) : LowerM Name := do
  let dst ← fresh "cmp"
  emit (.compare dst predicate lhs rhs (.scalar sz))
  pure dst

/-- Emits arithmetic on one floating-point value. -/
def floatUnary (base : String) (op : Buffer.UnaryOp) (arg : Name) (sz : ElemSize) :
    LowerM Name := do
  let dst ← fresh base
  emit (.unary dst op arg (.scalar sz))
  pure dst

end LowerM

/-- The operation that converts between two different types, of which the second is no boolean. -/
def castOp (source target : ElemSize) : CastOp :=
  if source.isBoolean then (if target.isFloatingPoint then .uiToFP else .extUI)
  else if source.isFloatingPoint then
    if target.isFloatingPoint then (if source.bits < target.bits then .extF else .truncF)
    else .fpToSI
  else if target.isFloatingPoint then .siToFP
  else if source.bits < target.bits then .extSI
  else .truncI

namespace LowerM

/-- Converts a value.  Whether a value is true is a comparison with zero. -/
def cast (v : TypedName) (target : ElemSize) : LowerM Name :=
  if v.size = target then pure v.name
  else do
    let dst ← fresh "cast"
    if target.isBoolean then do
      let zero ← zero v.size
      emit (.compare dst .ne v.name zero (.scalar v.size))
    else emit (.cast dst (castOp v.size target) v.name (.scalar v.size) (.scalar target))
    pure dst

/--
The remainder with the sign of the divisor: the remainder of the machine takes the sign of the
dividend, so the divisor is added to it if it is not zero and the signs differ.
-/
def floorRem (lhs rhs : Name) (sz : ElemSize) : LowerM Name := do
  let float := sz.isFloatingPoint
  let m ← arith (if float then .remF else .remSI) lhs rhs sz
  let zero ← zero sz
  let nonzero ← compare .ne m zero sz
  let negative ← compare .lt m zero sz
  let divisorNegative ← compare .lt rhs zero sz
  let signsDiffer ← arith .xorI negative divisorNegative .bool
  let adjust ← arith .andI nonzero signsDiffer .bool
  let adjusted ← arith (if float then .addF else .addI) m rhs sz
  let dst ← fresh "rem"
  emit (.select dst adjust adjusted m (.scalar sz))
  pure dst

end LowerM

/-- The comparison that an operator makes, if it is a comparison. -/
def comparePredicate? : BinOp → Option Predicate
  | .eq => some .eq
  | .neq => some .ne
  | .lt => some .lt
  | .leq => some .le
  | .gt => some .gt
  | .geq => some .ge
  | _ => none

namespace LowerM

/-- Applies an operator that is no comparison to values of the type of the result. -/
def arithmetic (op : BinOp) (l r : Name) (sz : ElemSize) : LowerM Name :=
  let float := sz.isFloatingPoint
  match op with
  | .add => arith (if float then .addF else .addI) l r sz
  | .sub => arith (if float then .subF else .subI) l r sz
  | .mul => arith (if float then .mulF else .mulI) l r sz
  | .div => if float then arith .divF l r sz else throw (.integerTrueDivision sz)
  | .floorDiv =>
    if float then do
      let q ← arith .divF l r sz
      floatUnary "floor" .floor q sz
    else arith .floorDivSI l r sz
  | .rem => floorRem l r sz
  | .pow => arith (if float then .powF else .iPowI) l r sz
  | .and | .bitAnd => if float then throw (.operatorOnSize op sz) else arith .andI l r sz
  | .or | .bitOr => if float then throw (.operatorOnSize op sz) else arith .orI l r sz
  | .bitXor => if float then throw (.operatorOnSize op sz) else arith .xorI l r sz
  | .max => arith (if float then .maximumF else .maxSI) l r sz
  | .min => arith (if float then .minimumF else .minSI) l r sz
  | _ => throw (.operatorOnSize op sz)

/-- Applies a binary operator.  Comparisons are made in the upper bound of the operands' types. -/
def binary (op : BinOp) (lhs rhs : TypedName) (sz : ElemSize) : LowerM Name := do
  match comparePredicate? op with
  | some predicate =>
    let common := lhs.size.lub rhs.size
    let l ← cast lhs common
    let r ← cast rhs common
    let c ← compare predicate l r common
    cast ⟨c, .bool⟩ sz
  | none =>
    let l ← cast lhs sz
    let r ← cast rhs sz
    arithmetic op l r sz

/-- Applies a unary operator. -/
def unary (op : UnOp) (arg : TypedName) (sz : ElemSize) : LowerM Name :=
  match op with
  | .neg => do
    let a ← cast arg sz
    if sz.isFloatingPoint then floatUnary "neg" .negF a sz
    else do
      let zero ← zero sz
      arith .subI zero a sz
  | .not => do
    let a ← cast arg .bool
    let one ← constant (.bool true) .bool
    let v ← arith .xorI a one .bool
    cast ⟨v, .bool⟩ sz
  | .bitNot =>
    if sz.isFloatingPoint then throw (.bitwiseNegation sz)
    else do
      let a ← cast arg sz
      let ones ← constant (.int (-1)) sz
      arith .xorI a ones sz

end LowerM

end TensorKernel
