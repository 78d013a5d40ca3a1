import TensorKernel.Build.Inline

/-!
# Building expressions

`BuildM.expr` adds the operators of an expression to the graph and gives the node of its value.
Operands are built from left to right before the operator that combines them.
-/

namespace TensorKernel

namespace BuildM

/-- The values of the named arguments of a numeric function, which must be integers of 64 bits. -/
def keywordValues : List Keyword → Table String Int64 → BuildM (Table String Int64)
  | [], values => pure values
  | keyword :: rest, values =>
    match keyword.value.integerLiteral? with
    | some v =>
      if ElemSize.i64.minInt ≤ v ∧ v ≤ ElemSize.i64.maxInt then
        keywordValues rest (values.insert keyword.id (Int64.ofInt v))
      else fail keyword.span (.keywordValue keyword.id)
    | none => fail keyword.span (.keywordValue keyword.id)

/-- The operands of a chain of boolean operators, folded from the first one on. -/
def booleanChain (op : BinOp) (span : Span) : List NodeId → BuildM NodeId
  | [] => failInternal .emptyChain
  | first :: rest => applyChain first span (rest.map fun id => (op, id))

/-- Calls a function of a package. -/
def numericCall (ctx : BuildContext) (package name : String) (args : BuildM (List NodeId))
    (keywords : List Keyword) (span : Span) : BuildM NodeId := do
  let f ← ofExcept span (ctx.library.find package name)
  let values ← keywordValues keywords .empty
  let args ← args
  let (result, graph) ← ofExcept span (f.apply (← get).graph args values)
  modify fun b => { b with graph }
  pure result

/-- Calls a kernel function by its name. -/
def kernelCall (ctx : BuildContext) (id : String) (args : BuildM (List NodeId))
    (keywords : List Keyword) (span : Span) : BuildM NodeId :=
  if keywords.isEmpty then do
    let args ← args
    inlineCall ctx id args span
  else fail span (.keywordsToKernel id)

/-- Calls what stands before the brackets: a member of a package, or a kernel function. -/
def call (ctx : BuildContext) (func : Expr) (args : BuildM (List NodeId)) (keywords : List Keyword)
    (span : Span) : BuildM NodeId :=
  match func with
  | .member (.name package _) attr _ => numericCall ctx package attr args keywords span
  | .member _ _ _ => fail span (.unsupportedMethod func.text)
  | .name id _ => kernelCall ctx id args keywords span
  | _ => fail span (.unsupportedCallee func.text)

mutual

/-- Builds an expression. -/
def expr (ctx : BuildContext) : Expr → BuildM NodeId
  | .name id span => do
    match (← get).resolve? id with
    | some node => pure node
    | none => fail span (.undefinedVariable id)
  | .int v span => intConstant v span
  | .float v span => floatConstant v span
  | .bool v _ => onGraph fun g => g.addConstant (.bool v) .bool
  | .string _ span => fail span .stringLiteral
  | .nothing span => fail span .noneLiteral
  | .unary .neg (.int v _) span => intConstant (Expr.negateInt v) span
  | .unary .neg (.float v _) span => floatConstant (-v) span
  | .unary op arg span => do
    let arg ← expr ctx arg
    applyUnary op arg span
  | .binary lhs op rhs span => do
    let lhs ← expr ctx lhs
    let rhs ← expr ctx rhs
    applyBinary op lhs rhs span
  | .boolean op operands span => do
    let operands ← exprs ctx operands
    booleanChain op span operands
  | .compare lhs ops comparators span => do
    let lhs ← expr ctx lhs
    let comparators ← exprs ctx comparators
    applyChain lhs span (ops.zip comparators)
  | .subscript target (.tuple elems _) span => do
    let target ← expr ctx target
    let axes ← indexedAxes target elems.length span
    let choices ← axisIndices ctx elems axes span
    readTensor target choices span
  | .subscript target (.slice lower upper step range) span => do
    let target ← expr ctx target
    let axes ← indexedAxes target 1 span
    let choice ← rangeIndex (optional ctx lower) (optional ctx upper) (optional ctx step)
      (axes.headD (.const 0)) range
    readTensor target [choice] span
  | .subscript target index span => do
    let target ← expr ctx target
    let _ ← indexedAxes target 1 span
    let choice ← elementIndex (expr ctx index) span
    readTensor target [choice] span
  | .slice _ _ _ span => fail span .straySlice
  | .tuple _ span => fail span .strayTuple
  | .member value attr span => fail span (.strayMember (Expr.member value attr span).text)
  | .call func args keywords span => call ctx func (exprs ctx args) keywords span
  | .unsupported kind span => fail span (.unsupportedExpression kind)
termination_by structural e => e

/-- Builds a list of expressions. -/
def exprs (ctx : BuildContext) : List Expr → BuildM (List NodeId)
  | [] => pure []
  | e :: es => do
    let id ← expr ctx e
    let ids ← exprs ctx es
    pure (id :: ids)
termination_by structural es => es

/-- Builds an expression that may be missing. -/
def optional (ctx : BuildContext) : Option Expr → Option (BuildM NodeId)
  | none => none
  | some e => some (expr ctx e)
termination_by structural e => e

/-- Builds the indices of a subscript, each for the next axis. -/
def axisIndices (ctx : BuildContext) : List Expr → Shape → Span → BuildM (List AxisIndex)
  | .slice lower upper step range :: es, axis :: axes, span => do
    let choice ← rangeIndex (optional ctx lower) (optional ctx upper) (optional ctx step) axis range
    let choices ← axisIndices ctx es axes span
    pure (choice :: choices)
  | e :: es, _ :: axes, span => do
    let choice ← elementIndex (expr ctx e) span
    let choices ← axisIndices ctx es axes span
    pure (choice :: choices)
  | _, _, _ => pure []
termination_by structural es => es

end

end BuildM

end TensorKernel
