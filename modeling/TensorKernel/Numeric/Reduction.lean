import TensorKernel.Build.Fault
import TensorKernel.Graph.Apply
import TensorKernel.Table

/-!
# Reductions

The functions of numeric libraries that kernels may call: sums, products, maxima and minima of a
tensor, over all axes or over one.  A call adds the operators that compute the result to a graph.

A reduction starts from the neutral element of its operator, so that it has a value even if there
are no elements.
-/

namespace TensorKernel

namespace ElemSize

/-- The least value of a type; the lowest finite number of a floating-point type. -/
def minValue (sz : ElemSize) : Literal :=
  match sz with
  | .bool => .bool false
  | .f16 | .f32 | .f64 => .float (-sz.maxFloat)
  | _ => .int (Int64.ofInt sz.minInt)

/-- The greatest value of a type; the highest finite number of a floating-point type. -/
def maxValue (sz : ElemSize) : Literal :=
  match sz with
  | .bool => .bool true
  | .f16 | .f32 | .f64 => .float sz.maxFloat
  | _ => .int (Int64.ofInt sz.maxInt)

/-- Zero or one in the representation of a type. -/
def bit (sz : ElemSize) (one : Bool) : Literal :=
  match sz with
  | .bool => .bool one
  | .f16 | .f32 | .f64 => .float (if one then 1.0 else 0.0)
  | _ => .int (if one then 1 else 0)

end ElemSize

namespace BinOp

/-- The value that leaves the other operand as it is. -/
def neutralElement? (op : BinOp) (sz : ElemSize) : Option Literal :=
  match op with
  | .add => some (sz.bit false)
  | .mul => some (sz.bit true)
  | .max => some sz.minValue
  | .min => some sz.maxValue
  | _ => none

/-- The type in which elements are combined: sums and products of integers take 64 bits. -/
def accumulatorSize (op : BinOp) (sz : ElemSize) : ElemSize :=
  if (op = .add ∨ op = .mul) ∧ !sz.isFloatingPoint then .i64 else sz

end BinOp

/-- A function that folds axes of a tensor with an operator. -/
structure Reduction where
  name : String
  op : BinOp
deriving DecidableEq, Inhabited

namespace Reduction

/-- The axes to fold: all of them, or the one given, where negative axes count from the end. -/
def axes (f : Reduction) (rank : Nat) (keywords : Table String Int64) :
    Except BuildFault (List Nat) :=
  match keywords.keys.find? fun keyword => keyword != "axis" with
  | some keyword => .error (.reductionKeyword f.name keyword)
  | none =>
    match keywords.get? "axis" with
    | none => .ok (List.range rank)
    | some axis =>
      let index := if axis < 0 then axis.toInt + rank else axis.toInt
      if index < 0 ∨ rank ≤ index then .error (.reductionAxis axis rank) else .ok [index.toNat]

/-- Adds the operators of a call to a graph. -/
def apply (f : Reduction) (g : Graph) (args : List NodeId) (keywords : Table String Int64) :
    Except BuildFault (NodeId × Graph) :=
  match args with
  | [arg] =>
    if g.isScalar arg then .error (.reductionOfScalar f.name)
    else do
      let dims ← f.axes (g.shape arg).length keywords
      let sz := f.op.accumulatorSize (g.elemSize arg)
      match f.op.neutralElement? sz with
      | some init => .ok (g.applyReduction f.op arg dims sz init)
      | none => .error (.withoutNeutralElement f.op.text)
  | _ => .error (.reductionArity f.name)

end Reduction

/-- The packages that kernels may refer to, and the functions that each of them has. -/
structure NumericLibrary where
  packages : List String
  functions : Table String Reduction
deriving DecidableEq, Inhabited

namespace NumericLibrary

/-- The library with the usual names of its package. -/
def standard : NumericLibrary where
  packages := ["np", "numpy"]
  functions := .ofList
    [("sum", ⟨"sum", .add⟩), ("prod", ⟨"prod", .mul⟩), ("max", ⟨"max", .max⟩),
      ("min", ⟨"min", .min⟩)]

/-- The function with a name in a package. -/
def find (library : NumericLibrary) (package name : String) : Except BuildFault Reduction :=
  if library.packages.contains package then
    match library.functions.get? name with
    | some f => .ok f
    | none => .error (.unsupportedFunction package name)
  else .error (.unsupportedPackage package)

end NumericLibrary

end TensorKernel
