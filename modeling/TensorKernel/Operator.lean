import TensorKernel.ElemSize

/-!
# Operators

The unary and binary operators of kernels, how they are written, and the element size of their
results.  `max` and `min` have no written form in kernels; they arise from reductions.
-/

namespace TensorKernel

/-- An operator on one value. -/
inductive UnOp where
  | neg
  | not
  | bitNot
deriving DecidableEq, Inhabited

/-- How a unary operator stands in front of its operand. -/
def UnOp.text : UnOp → String
  | .neg => "-"
  | .not => "not "
  | .bitNot => "~"

/-- An operator on two values. -/
inductive BinOp where
  | add
  | sub
  | mul
  | floorDiv
  | div
  | rem
  | pow
  | and
  | or
  | bitAnd
  | bitOr
  | bitXor
  | eq
  | neq
  | leq
  | geq
  | lt
  | gt
  | max
  | min
deriving DecidableEq, Inhabited

namespace BinOp

/-- How a binary operator is written between its operands. -/
def text : BinOp → String
  | add => "+"
  | sub => "-"
  | mul => "*"
  | floorDiv => "//"
  | div => "/"
  | rem => "%"
  | pow => "**"
  | and => "and"
  | or => "or"
  | bitAnd => "&"
  | bitOr => "|"
  | bitXor => "^"
  | eq => "=="
  | neq => "!="
  | leq => "<="
  | geq => ">="
  | lt => "<"
  | gt => ">"
  | max => "max"
  | min => "min"

/-- Whether it compares its operands. -/
def isComparison : BinOp → Bool
  | eq | neq | leq | geq | lt | gt => true
  | _ => false

/-- Whether it combines truth values. -/
def isBoolean : BinOp → Bool
  | and | or => true
  | _ => false

/-- Whether it works on the bits of its operands. -/
def isBitwise : BinOp → Bool
  | bitAnd | bitOr | bitXor => true
  | _ => false

/--
The element size of the result on operands of the given sizes.  Comparisons and boolean operators
give a boolean, true division a floating-point number, and all others the operands' upper bound.
-/
def resultSize (op : BinOp) (l r : ElemSize) : ElemSize :=
  if op.isComparison || op.isBoolean then .bool
  else if op = div && !(l.lub r).isFloatingPoint then .f64
  else l.lub r

end BinOp

end TensorKernel
