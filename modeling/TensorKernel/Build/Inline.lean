import TensorKernel.Build.Operand
import TensorKernel.Graph.Splice

/-!
# Inlining calls

A call puts a copy of the callee's graph behind the caller's.  The callee's shape symbols become the
dimensions of the arguments, and its parameters and symbols are computed by copies from the
arguments and their dimensions.
-/

namespace TensorKernel

/-- The dimensions of the arguments that the shape symbols of a callee stand for. -/
abbrev SymbolBinding := Table String Dim

namespace SymbolBinding

/--
Binds the symbols of a parameter to the dimensions of its argument.  A symbol stands for one
dimension only, and a dimension that is no symbol must be that of the argument.
-/
def extend (function param : String) (expected given : KernelType) :
    SymbolBinding → List (Dim × Dim) → Except BuildFault SymbolBinding
  | bound, [] => .ok bound
  | bound, (.sym name, dim) :: rest =>
    match bound.get? name with
    | some previous =>
      if previous = dim then extend function param expected given bound rest
      else .error (.conflictingSymbol function name previous dim)
    | none => extend function param expected given (bound.insert name dim) rest
  | bound, (paramDim, dim) :: rest =>
    if paramDim = dim then extend function param expected given bound rest
    else .error (.argumentType function param expected given)

/-- Binds the symbols of one parameter, whose argument is a tensor of the same rank or a scalar. -/
def bindParam (function param : String) (expected given : KernelType) (bound : SymbolBinding) :
    Except BuildFault SymbolBinding :=
  if expected.isScalar = given.isScalar ∧ expected.rank = given.rank then
    extend function param expected given bound (expected.shape.zip given.shape)
  else .error (.argumentType function param expected given)

/-- Binds the symbols of a list of parameters, each with its argument. -/
def bindParams (function : String) (bound : SymbolBinding) :
    List ((String × KernelType) × KernelType) → Except BuildFault SymbolBinding
  | [] => .ok bound
  | ((param, expected), given) :: rest => do
    let bound ← bindParam function param expected given bound
    bindParams function bound rest

/-- What a symbol of the callee becomes in the caller. -/
def substitute (bound : SymbolBinding) (name : String) : Dim :=
  (bound.get? name).getD (.sym name)

end SymbolBinding

namespace BuildM

/-- Computes the parameters of a spliced callee by copies of the arguments. -/
def copyArguments (r : Relocation) : List (String × NodeId) → List NodeId → BuildM Unit
  | (_, param) :: params, arg :: args => do
    let _ ← onGraph fun g => g.addOp .copy [arg] [r.node param]
    copyArguments r params args
  | _, _ => pure ()

/-- Computes the shape symbols of a spliced callee by copies of the dimensions they stand for. -/
def copySymbols (function : String) (r : Relocation) (bound : SymbolBinding) (span : Span) :
    List (String × ShapeSymbol) → BuildM Unit
  | [] => pure ()
  | (name, symbol) :: rest =>
    match bound.get? name with
    | some dim => do
      let src ← dimNode dim span
      let _ ← onGraph fun g => g.addOp .copy [src] [r.node symbol.node]
      copySymbols function r bound span rest
    | none => failInternal (.calleeSymbol function name)

/-- Puts the graph of a callee behind the graph, and gives the node of its result. -/
def spliceCall (callee : FunctionGraph) (function : String) (args : List NodeId)
    (bound : SymbolBinding) (span : Span) : BuildM NodeId := do
  let r := (← get).graph.relocation bound.substitute
  let _ ← onGraph fun g => g.splice callee.graph bound.substitute
  copyArguments r callee.inputs args
  copySymbols function r bound span callee.symbols.entries
  match callee.outputs with
  | out :: _ => pure (r.node out)
  | [] => failInternal (.calleeWithoutOutput function)

/-- Calls a kernel function. -/
def inlineCall (ctx : BuildContext) (function : String) (args : List NodeId) (span : Span) :
    BuildM NodeId := do
  let g := (← get).graph
  let types := args.map g.type
  let callee ← ctx.call function types span
  if !callee.canInline then fail span (.notInlinable function)
  else if callee.inputs.length ≠ args.length then
    fail span (.argumentCount function callee.inputs.length args.length)
  else do
    let params := callee.inputs.map fun input => (input.1, callee.graph.type input.2)
    let bound ← ofExcept span (SymbolBinding.bindParams function .empty (params.zip types))
    spliceCall callee function args bound span

end BuildM

end TensorKernel
