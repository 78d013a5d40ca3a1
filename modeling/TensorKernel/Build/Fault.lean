import TensorKernel.ErrorKind
import TensorKernel.Shape

/-!
# Faults of kernel functions

Why the graph of a kernel function cannot be built.  The internal kind is for graphs that a caller
put together by hand; kernel functions do not lead to it.
-/

namespace TensorKernel

/-- A reason why a graph cannot be built. -/
inductive BuildFault where
  | unknownElementType (name : String)
  | unsupportedHint (hint : String)
  | unsupportedDimension (dimension : String)
  | duplicateParameter (id : String)
  | missingHint (param function : String)
  | parameterNamedAsSymbol (id : String)
  | templateMain (function : String)
  | unreachableStatement
  | unknownSymbol (symbol var : String)
  | declarationWithoutValue (var : String)
  | annotatedElement
  | unsupportedTarget (target : String)
  | statementWithoutEffect
  | deletion
  | conditional
  | loop
  | unsupportedStatement (kind : String)
  | reassignedParameter (id : String)
  | reassignedSymbol (id : String)
  | redeclared (var : String) (previous declared : KernelType)
  | assignedType (var : String) (value declared : KernelType)
  | elementOfParameter (id : String)
  | elementOfScalar (var : String)
  | undefinedTensor (var : String)
  | incompleteElement (var : String)
  | tensorAsElement (var : String)
  | valueFromVoid (function : String)
  | missingValue (function : String)
  | returnedType (value declared : KernelType)
  | undefinedVariable (id : String)
  | integerLiteral (value : Int)
  | floatLiteral (text : String)
  | stringLiteral
  | noneLiteral
  | straySlice
  | strayTuple
  | strayMember (text : String)
  | unsupportedExpression (kind : String)
  | negatedBoolean
  | bitwiseNegation (size : ElemSize)
  | bitwiseOperands (op : String) (l r : ElemSize)
  | incompatibleOperands (op : String) (l r : KernelType)
  | tensorInChain (op : String)
  | emptyChain
  | indexType (type : KernelType)
  | unboundSymbol (name : String)
  | indexedScalar
  | tooManyIndices (rank : Nat)
  | zeroStep
  | sliceLength (length : Int)
  | keywordValue (id : String)
  | unsupportedPackage (package : String)
  | unsupportedFunction (package name : String)
  | unsupportedMethod (callee : String)
  | unsupportedCallee (callee : String)
  | keywordsToKernel (function : String)
  | unknownFunction (id : String)
  | argumentCount (function : String) (expected given : Nat)
  | recursiveCall (function : String)
  | notInlinable (function : String)
  | argumentType (function param : String) (expected given : KernelType)
  | conflictingSymbol (function symbol : String) (first second : Dim)
  | calleeSymbol (function symbol : String)
  | calleeWithoutOutput (function : String)
  | reductionKeyword (function keyword : String)
  | reductionAxis (axis : Int64) (rank : Nat)
  | reductionArity (function : String)
  | reductionOfScalar (function : String)
  | withoutNeutralElement (op : String)
deriving DecidableEq, Inhabited

namespace BuildFault

/-- The kind of error a fault is reported as. -/
def kind : BuildFault → ErrorKind
  | integerLiteral _ | floatLiteral _ | sliceLength _ => .rangeError
  | returnedType _ _ => .runtimeError
  | annotatedElement | conditional | loop | unsupportedPackage _ | unsupportedFunction _ _
  | unsupportedMethod _ | recursiveCall _ | notInlinable _ => .notImplemented
  | emptyChain | unboundSymbol _ | calleeSymbol _ _ | calleeWithoutOutput _
  | withoutNeutralElement _ => .internalError
  | _ => .syntaxError

/-- The message about a fault. -/
def message : BuildFault → String
  | unknownElementType name => s!"Unknown element type {name} in annotation"
  | unsupportedHint hint => s!"Unsupported annotation {hint}"
  | unsupportedDimension dimension => s!"Unsupported dimension {dimension} in annotation"
  | duplicateParameter id => s!"Duplicate parameter {id}"
  | missingHint param function =>
    s!"Parameter {param} of function {function} must be annotated"
  | parameterNamedAsSymbol id => s!"Parameter {id} has the same name as a shape symbol"
  | templateMain function =>
    s!"The main kernel function {function} must annotate all its parameters"
  | unreachableStatement => "Unreachable statement after return"
  | unknownSymbol symbol var => s!"Unknown shape symbol {symbol} in annotation of {var}"
  | declarationWithoutValue var => s!"Declaration of {var} must assign a value"
  | annotatedElement => "Annotated assignment to a subscript is not supported"
  | unsupportedTarget target => s!"Unsupported assignment target {target}"
  | statementWithoutEffect => "Only function calls may be used as statements"
  | deletion => "The del statement is not allowed"
  | conditional => "Conditional statements are not supported"
  | loop => "Loops are not supported"
  | unsupportedStatement kind => s!"Unsupported statement {kind}"
  | reassignedParameter id => s!"Reassigning the function argument {id} is not allowed"
  | reassignedSymbol id => s!"Reassigning the shape symbol {id} is not allowed"
  | redeclared var previous declared =>
    s!"Re-declaring {var} of type {previous.text} with type {declared.text} is not allowed"
  | assignedType var value declared =>
    s!"Assigning a value of type {value.text} to {var} of type {declared.text} " ++
      "is not allowed"
  | elementOfParameter id =>
    s!"Assigning to elements of the function argument {id} is not allowed"
  | elementOfScalar var => s!"Cannot assign to an element of scalar {var}"
  | undefinedTensor var => s!"Assignment to undefined tensor {var}"
  | incompleteElement var =>
    s!"Assignment to {var} must index every dimension by an integer"
  | tensorAsElement var => s!"Only scalar values can be assigned to an element of {var}"
  | valueFromVoid function => s!"Function {function} is declared to return nothing"
  | missingValue function => s!"Function {function} must return a value"
  | returnedType value declared =>
    s!"The returned value of type {value.text} does not match the declared return type " ++
      declared.text
  | undefinedVariable id => s!"Undefined variable {id}"
  | integerLiteral value =>
    s!"Integer literal {value} cannot be represented by any supported integer type"
  | floatLiteral text =>
    s!"Float literal {text} cannot be represented by any supported floating-point type"
  | stringLiteral => "String literals are not supported"
  | noneLiteral => "None is not supported in kernels"
  | straySlice => "Slices may only be used to index tensors"
  | strayTuple => "Tuples are only supported as indices and in annotations"
  | strayMember text => s!"Attribute {text} may only be used as a function"
  | unsupportedExpression kind => s!"Unsupported expression {kind}"
  | negatedBoolean => "Cannot negate a boolean value"
  | bitwiseNegation size => s!"Bitwise negation of {size.typeName} is not supported"
  | bitwiseOperands op l r =>
    s!"Bitwise operator {op} is not supported on {l.typeName} and {r.typeName}"
  | incompatibleOperands op l r =>
    s!"Operands of {op} have incompatible types {l.text} and {r.text}"
  | tensorInChain op => s!"Operator {op} is only supported on scalar operands"
  | emptyChain => "Boolean operator without operands"
  | indexType type => s!"Index of type {type.text} is not a signed integer"
  | unboundSymbol name => s!"Unbound shape symbol {name}"
  | indexedScalar => "Cannot index a scalar value"
  | tooManyIndices rank => s!"Too many indices for a tensor of rank {rank}"
  | zeroStep => "The step of a slice cannot be zero"
  | sliceLength length => s!"Slice length {length} does not fit in a 64-bit integer"
  | keywordValue id => s!"Keyword argument {id} must be an integer literal"
  | unsupportedPackage package => s!"Calls to functions of package {package} are not supported"
  | unsupportedFunction package name => s!"Function {package}.{name} is not supported"
  | unsupportedMethod callee => s!"Unsupported call to {callee}"
  | unsupportedCallee callee => s!"Unsupported call to {callee}"
  | keywordsToKernel function =>
    s!"Keyword arguments are not supported in calls to kernel function {function}"
  | unknownFunction id => s!"Call to unknown function {id}"
  | argumentCount function expected given =>
    s!"Function {function} expects {expected} arguments but {given} were given"
  | recursiveCall function => s!"Recursive call to function {function} is not supported"
  | notInlinable function =>
    s!"Calls to function {function}, which cannot be inlined, are not supported"
  | argumentType function param expected given =>
    s!"Parameter {param} of {function} has type {expected.text}, but the argument has type " ++
      given.text
  | conflictingSymbol function symbol first second =>
    s!"Shape symbol {symbol} of {function} is bound to both {first.text} and {second.text}"
  | calleeSymbol function symbol => s!"Shape symbol {symbol} of {function} is unbound"
  | calleeWithoutOutput function => s!"Inlined function {function} has no output"
  | reductionKeyword function keyword => s!"Unsupported keyword argument {keyword} to {function}"
  | reductionAxis axis rank =>
    s!"Axis {axis.toInt} is out of bounds for a tensor of rank {rank}"
  | reductionArity function => s!"{function} expects exactly one argument"
  | reductionOfScalar function => s!"The argument of {function} must be a tensor"
  | withoutNeutralElement op => s!"No neutral element for reduction {op}"

end BuildFault

/-- A fault with its span, whose message quotes the source if it can be read. -/
abbrev BuildError := Located BuildFault

namespace BuildError

/-- The kind of error a failure is reported as. -/
def kind (e : BuildError) : ErrorKind :=
  e.fault.kind

/-- The message about a failure, with the lines it concerns. -/
def message (e : BuildError) (files : Files) : String :=
  e.span.annotate files e.fault.message

end BuildError

end TensorKernel
