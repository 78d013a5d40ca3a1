import TensorKernel.ErrorKind
import TensorKernel.Literal.Arithmetic
import TensorKernel.Shape

/-!
# Faults of evaluation

Why a function graph has no value on some arguments.  The faults of the internal kind concern graphs
that were put together by hand.
-/

namespace TensorKernel

/-- A reason why a function has no value. -/
inductive EvalFault where
  | argumentCount (function : String) (expected given : Nat)
  | argumentElements (param : String) (given required : Nat)
  | argumentShape (param : String) (type : KernelType) (shape : List Nat)
  | argumentDimension (param : NodeId) (given : Nat) (expected : Dim)
  | indexOutOfBounds (index : Int64) (size : Nat)
  | sliceOutOfBounds (index : Int64) (size : Nat)
  | arithmetic (fault : ArithmeticFault)
  | missingAxis (symbol : String)
  | expectedScalar (id : NodeId)
  | expectedTensor (id : NodeId)
  | unboundSymbol (name : String)
  | notProduced (id : NodeId)
  | withoutValue (id : NodeId)
  | elementwiseWithoutOutputs
  | malformedReduction
  | malformedSlice
  | operatorWithoutOutputs
  | operatorWithoutInputs
  | elementOutOfRange
  | cyclicGraph (id : NodeId)
deriving DecidableEq, Inhabited

/-- The kind of error a fault of arithmetic is reported as. -/
def ArithmeticFault.kind : ArithmeticFault → ErrorKind
  | divisionByZero | negativePower _ => .runtimeError
  | _ => .internalError

/-- The message about a fault of arithmetic. -/
def ArithmeticFault.message : ArithmeticFault → String
  | divisionByZero => "Integer division by zero"
  | negativePower exponent =>
    s!"Integers cannot be raised to the negative power {exponent.toInt}"
  | bitwiseNegationOfFloat => "Bitwise negation of a floating-point value"
  | undefinedOnFloats op => s!"Operator {op.text} is not defined on floating-point values"
  | undefinedOnIntegers op => s!"Operator {op.text} is not defined on integer values"

namespace EvalFault

/-- The kind of error a fault is reported as. -/
def kind : EvalFault → ErrorKind
  | argumentCount _ _ _ | argumentElements _ _ _ | argumentShape _ _ _ | argumentDimension _ _ _
  | indexOutOfBounds _ _ | sliceOutOfBounds _ _ => .runtimeError
  | arithmetic fault => fault.kind
  | _ => .internalError

/-- How a list of sizes is shown. -/
def sizesText (sizes : List Nat) : String :=
  "[" ++ ", ".intercalate (sizes.map toString) ++ "]"

/-- The message about a fault. -/
def message : EvalFault → String
  | argumentCount function expected given =>
    s!"Function {function} expects {expected} arguments but {given} were given"
  | argumentElements param given required =>
    s!"Argument {param} has {given} elements but its shape requires {required}"
  | argumentShape param type shape =>
    s!"Argument {param} of type {type.text} cannot be bound to a value of shape " ++ sizesText shape
  | argumentDimension param given expected =>
    s!"Argument {param.text} has dimension {given} where {expected.text} was expected"
  | indexOutOfBounds index size =>
    s!"Index {index.toInt} is out of bounds for a dimension of size {size}"
  | sliceOutOfBounds index size =>
    s!"Slice index {index.toInt} is out of bounds for a dimension of size {size}"
  | arithmetic fault => fault.message
  | missingAxis symbol => s!"Shape symbol {symbol} refers to a missing axis"
  | expectedScalar id => s!"Expected {id.text} to be a scalar"
  | expectedTensor id => s!"Expected {id.text} to be a tensor"
  | unboundSymbol name => s!"Unbound shape symbol {name}"
  | notProduced id => s!"Operator did not produce {id.text}"
  | withoutValue id => s!"Node {id.text} has no value"
  | elementwiseWithoutOutputs => "Elementwise operator without outputs"
  | malformedReduction => "Malformed reduction operator"
  | malformedSlice => "Malformed slice operator"
  | operatorWithoutOutputs => "Operator without outputs"
  | operatorWithoutInputs => "Operator without inputs"
  | elementOutOfRange => "Element out of range"
  | cyclicGraph id => s!"Node {id.text} depends on itself"

end EvalFault

end TensorKernel
