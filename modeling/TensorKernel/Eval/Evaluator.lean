import TensorKernel.Eval.Fault
import TensorKernel.Eval.Value
import TensorKernel.Graph.Apply
import TensorKernel.Graph.FunctionGraph
import TensorKernel.Scope

/-!
# Evaluation

The meaning of a function graph: `FunctionGraph.eval` computes its results from arguments.

A node is evaluated when it is needed, and its value is remembered.  The body of an operator is
evaluated once for every element, in a scope of its own that is dropped afterwards.  The rules of
the operators are stated for any function `need` that gives the values of other nodes;
`Evaluator.node` closes the recursion.  It goes a little deeper than there are operators, which is
enough for every graph in which no node depends on itself.
-/

namespace TensorKernel

/-- The values that a call gives to nodes. -/
abbrev GivenValues := Table NodeId Value

/-- The values that are known in one scope. -/
abbrev EvalScope := Scope NodeId Value

/-- Steps of evaluation, with the scopes from the innermost to the outermost one. -/
abbrev EvalM := ExceptT EvalFault (StateM (List EvalScope))

/-- What evaluation refers to: the graph and the sizes of the shape symbols. -/
structure EvalContext where
  graph : Graph
  sizes : Table String Nat

namespace Evaluator

/-- The value of a node in the innermost scope that has one. -/
def lookup (scopes : List EvalScope) (id : NodeId) : Option Value :=
  scopes.findSome? fun scope => scope.get? id

/-- Gives a node a value in the innermost scope. -/
def bind (id : NodeId) (v : Value) : EvalM Unit :=
  modify fun scopes =>
    match scopes with
    | [] => []
    | scope :: outer => scope.bind id v :: outer

/-- Takes steps in a scope of their own, which is dropped whether they succeed or not. -/
def withScope {α : Type} (scope : EvalScope) (steps : EvalM α) : EvalM α :=
  fun scopes =>
    let (result, after) := steps (scope :: scopes)
    (result, after.tail)

/-- The result of an operator on literals. -/
def ofArithmetic {α : Type} : Except ArithmeticFault α → EvalM α
  | .ok a => pure a
  | .error fault => throw (.arithmetic fault)

section Rules

variable (ctx : EvalContext) (need : NodeId → EvalM Value)

/-- The value of a scalar. -/
def scalar (id : NodeId) : EvalM Literal := do
  match ← need id with
  | .scalar v => pure v
  | .tensor _ _ => throw (.expectedScalar id)

/-- The sizes and the elements of a tensor. -/
def tensor (id : NodeId) : EvalM (List Nat × Array Literal) := do
  match ← need id with
  | .tensor shape data => pure (shape, data)
  | .scalar _ => throw (.expectedTensor id)

/-- An element of a tensor. -/
def element (data : Array Literal) (i : Nat) : EvalM Literal :=
  match data[i]? with
  | some v => pure v
  | none => throw .elementOutOfRange

/-- The index that a scalar holds, which must lie inside an axis. -/
def index (id : NodeId) (size : Nat) : EvalM Nat := do
  let v ← scalar need id
  let i := v.asInt
  if 0 ≤ i.toInt ∧ i.toInt < size then pure i.toInt.toNat else throw (.indexOutOfBounds i size)

/-- The indices that scalars hold, each for the next axis. -/
def indices : List NodeId → List Nat → EvalM (List Nat)
  | id :: ids, size :: sizes => do
    let i ← index need id size
    let is ← indices ids sizes
    pure (i :: is)
  | _, _ => pure []

/-- The size of an axis; a computed size counts as zero if it is negative. -/
def dim : Dim → EvalM Nat
  | .const n => pure (Dim.constSize n)
  | .sym name =>
    match ctx.sizes.get? name with
    | some n => pure n
    | none => throw (.unboundSymbol name)
  | .node id => do
    let v ← scalar need id
    pure v.asInt.toInt.toNat

/-- The sizes of the axes of a shape. -/
def dims : Shape → EvalM (List Nat)
  | [] => pure []
  | d :: rest => do
    let n ← dim ctx need d
    let ns ← dims rest
    pure (n :: ns)

/-- The values that a body computes, in the types of the nodes that collect them. -/
def bodyOutputs : List (NodeId × NodeId) → EvalM (List Literal)
  | [] => pure []
  | (inner, outer) :: rest => do
    let v ← scalar need inner
    let vs ← bodyOutputs rest
    pure (v.convert (ctx.graph.elemSize outer) :: vs)

/-- Runs a body with values for its placeholders. -/
def body (body : Body) (placeholders : List (NodeId × Literal)) : EvalM (List Literal) :=
  withScope (.ofList (placeholders.map fun entry => (entry.1, .scalar entry.2)))
    (bodyOutputs ctx need body.outputs)

/-- The operands of a body: their placeholders, sizes and elements. -/
def operands : List (NodeId × NodeId) → EvalM (List (NodeId × List Nat × Array Literal))
  | [] => pure []
  | (outer, inner) :: rest => do
    let operand ← tensor need outer
    let others ← operands rest
    pure ((inner, operand) :: others)

/-- The elements of the operands that belong to an index vector of the result. -/
def elements (idx : List Nat) :
    List (NodeId × List Nat × Array Literal) → EvalM (List (NodeId × Literal))
  | [] => pure []
  | (inner, shape, data) :: rest => do
    let v ← element data (Index.place shape (Index.broadcast shape idx))
    let others ← elements idx rest
    pure ((inner, v) :: others)

/-- Runs a body for every index vector, and collects what it computes. -/
def elementwiseRows (rule : Body) (inputs : List (NodeId × List Nat × Array Literal)) :
    List (List Nat) → EvalM (List (List Literal))
  | [] => pure []
  | idx :: rest => do
    let placeholders ← elements idx inputs
    let row ← body ctx need rule placeholders
    let rows ← elementwiseRows rule inputs rest
    pure (row :: rows)

/-- Gives the nodes that collect the values of a body their tensors. -/
def bindColumns (shape : List Nat) (rows : List (List Literal)) :
    List (NodeId × NodeId) → Nat → EvalM Unit
  | [], _ => pure ()
  | (_, outer) :: rest, column => do
    bind outer (.tensor shape (rows.filterMap fun row => row[column]?).toArray)
    bindColumns shape rows rest (column + 1)

/-- Evaluates nodes for the sake of their values in the current scope. -/
def prepare : List NodeId → EvalM Unit
  | [] => pure ()
  | id :: ids => do
    let _ ← need id
    prepare ids

/-- Runs a body for every element of the result. -/
def elementwise (op : Op) (rule : Body) : EvalM Unit := do
  prepare need op.inputs
  match rule.outputs with
  | [] => throw .elementwiseWithoutOutputs
  | (_, out) :: _ => do
    let shape ← dims ctx need (ctx.graph.shape out)
    let inputs ← operands need rule.inputs
    let rows ← elementwiseRows ctx need rule inputs (Index.rowMajor shape)
    bindColumns shape rows rule.outputs 0

/-- Combines every element with the accumulator that its index vector projects to. -/
def reduceElements (rule : Body) (x acc : NodeId) (axes outShape : List Nat)
    (data : Array Literal) :
    List (List Nat) → Nat → Array Literal → EvalM (Array Literal)
  | [], _, cells => pure cells
  | idx :: rest, i, cells => do
    let j := Index.place outShape (Graph.withoutAxes axes idx)
    let v ← element data i
    let cell ← element cells j
    let values ← body ctx need rule [(x, v), (acc, cell)]
    let cells :=
      match values with
      | next :: _ => cells.setIfInBounds j next
      | [] => cells
    reduceElements rule x acc axes outShape data rest (i + 1) cells

/-- Folds axes of a tensor, from the initial value on. -/
def reduction (op : Op) (axes : List Nat) (rule : Body) : EvalM Unit :=
  match op.inputs, rule.inputs, rule.outputs with
  | [arg, init], [(_, x), (_, acc)], [(_, dst)] => do
    let (shape, data) ← tensor need arg
    let start ← scalar need init
    let outShape := Graph.withoutAxes axes shape
    let cells ← reduceElements ctx need rule x acc axes outShape data (Index.rowMajor shape) 0
      (Array.replicate (Index.count outShape) start)
    if ctx.graph.isScalar dst then do
      let v ← element cells 0
      bind dst (.scalar v)
    else bind dst (.tensor outShape cells)
  | _, _, _ => throw .malformedReduction

/-- The first index and the step along each axis; an axis without an index is read in full. -/
def starts : List SliceIndex → List Nat → EvalM (List (Int64 × Int64))
  | _, [] => pure []
  | [], _ :: sizes => do
    let rest ← starts [] sizes
    pure ((0, 1) :: rest)
  | .element i :: indices, size :: sizes => do
    let start ← index need i size
    let rest ← starts indices sizes
    pure ((Int64.ofNat start, 1) :: rest)
  | .range lower _ step :: indices, _ :: sizes => do
    let start ← scalar need lower
    let step ← scalar need step
    let rest ← starts indices sizes
    pure ((start.asInt, step.asInt) :: rest)

/--
The index vector in the source of a slice for an index vector of the result.  It is computed and
compared in words with a sign.
-/
def sourceIndex : List Nat → List (Int64 × Int64) → List Nat → EvalM (List Nat)
  | i :: idx, (start, step) :: steps, size :: sizes => do
    let v := start + Int64.ofNat i * step
    if 0 ≤ v ∧ v < Int64.ofNat size then do
      let rest ← sourceIndex idx steps sizes
      pure (v.toInt.toNat :: rest)
    else throw (.sliceOutOfBounds v size)
  | _, _, _ => pure []

/-- The elements of a slice. -/
def sliceElements (steps : List (Int64 × Int64)) (shape : List Nat) (data : Array Literal) :
    List (List Nat) → EvalM (List Literal)
  | [] => pure []
  | idx :: rest => do
    let source ← sourceIndex idx steps shape
    let v ← element data (Index.place shape source)
    let vs ← sliceElements steps shape data rest
    pure (v :: vs)

/-- Selects a region of a tensor. -/
def slice (op : Op) (selected : List SliceIndex) (sizes : Shape) : EvalM Unit :=
  match op.inputs, op.outputs with
  | target :: _, dst :: _ => do
    let (shape, data) ← tensor need target
    let sizes ← dims ctx need sizes
    let steps ← starts need selected shape
    let out ← sliceElements steps shape data (Index.rowMajor sizes)
    let outShape ← dims ctx need (ctx.graph.shape dst)
    bind dst (.tensor outShape out.toArray)
  | _, _ => throw .malformedSlice

/-- Evaluates an operator, which gives the nodes that it computes their values. -/
def operator (op : Op) : EvalM Unit := do
  match op.outputs with
  | [] => throw .operatorWithoutOutputs
  | dst :: _ =>
    let sz := ctx.graph.elemSize dst
    match op.kind, op.inputs with
    | .unary unop, arg :: _ => do
      let v ← scalar need arg
      let r ← ofArithmetic (v.unary unop sz)
      bind dst (.scalar r)
    | .binary binop, lhs :: rhs :: _ => do
      let l ← scalar need lhs
      let r ← scalar need rhs
      let v ← ofArithmetic (l.binary binop r sz)
      bind dst (.scalar v)
    | .elementwise rule, _ => elementwise ctx need op rule
    | .reduction axes rule _, _ => reduction ctx need op axes rule
    | .getItem, target :: is => do
      let (shape, data) ← tensor need target
      let idx ← indices need is shape
      let v ← element data (Index.place shape idx)
      bind dst (.scalar (v.convert sz))
    | .setItem, target :: value :: is => do
      let (shape, data) ← tensor need target
      let v ← scalar need value
      let idx ← indices need is shape
      let i := Index.place shape idx
      let _ ← element data i
      bind dst (.tensor shape (data.setIfInBounds i (v.convert sz)))
    | .slice selected sizes, _ => slice ctx need op selected sizes
    | .copy, src :: _ | .deepCopy, src :: _ => do
      let v ← need src
      bind dst (v.convert sz)
    | _, _ => throw .operatorWithoutInputs

/-- The value of a node: the one that is remembered, a constant, or what its operator computes. -/
def nodeRule (id : NodeId) : EvalM Value := do
  match lookup (← get) id with
  | some v => pure v
  | none =>
    let node := ctx.graph.node id
    match node.constant?, node.producer with
    | some v, _ => do
      let v := Value.scalar (v.convert node.elemSize)
      bind id v
      pure v
    | none, some op => do
      operator ctx need (ctx.graph.op op)
      match lookup (← get) id with
      | some v => pure v
      | none => throw (.notProduced id)
    | none, none => throw (.withoutValue id)

end Rules

/-- The value of a node, which may need other nodes down to the given depth. -/
def node (ctx : EvalContext) : Nat → NodeId → EvalM Value
  | 0, id => throw (.cyclicGraph id)
  | depth + 1, id => nodeRule ctx (node ctx depth) id

/--
The depth that suffices for a graph in which no node depends on itself: no operator occurs twice on
the way down, and the body of the last one takes one more step.
-/
def depth (ctx : EvalContext) : Nat :=
  ctx.graph.ops.size + 2

/-- The values of nodes, one after another. -/
def nodes (ctx : EvalContext) : List NodeId → EvalM (List Value)
  | [] => pure []
  | id :: ids => do
    let v ← node ctx (depth ctx) id
    let vs ← nodes ctx ids
    pure (v :: vs)

end Evaluator

namespace FunctionGraph

/-- An argument in the representation of its parameter, which must have the same rank. -/
def bindArgument (g : Graph) (param : String) (id : NodeId) (v : Value) : Except EvalFault Value :=
  let node := g.node id
  match v with
  | .scalar _ =>
    if node.isScalar then .ok (v.convert node.elemSize)
    else .error (.argumentShape param node.type v.shape)
  | .tensor shape data =>
    if node.isScalar ∨ shape.length ≠ node.shape.length then
      .error (.argumentShape param node.type v.shape)
    else if Index.count shape ≠ data.size then
      .error (.argumentElements param data.size (Index.count shape))
    else .ok (v.convert node.elemSize)

/-- Binds parameters to arguments. -/
def bindArguments (g : Graph) : GivenValues → List (String × NodeId) → List Value →
    Except EvalFault GivenValues
  | given, (param, id) :: inputs, v :: args => do
    let v ← bindArgument g param id v
    bindArguments g (given.insert id v) inputs args
  | given, _, _ => .ok given

/-- Binds shape symbols to the sizes of the axes they stand for, and their nodes to these sizes. -/
def bindSymbols (g : Graph) : GivenValues → Table String Nat → List (String × ShapeSymbol) →
    Except EvalFault (GivenValues × Table String Nat)
  | given, sizes, [] => .ok (given, sizes)
  | given, sizes, (name, symbol) :: rest =>
    match (given.get? symbol.arg).bind fun v => v.shape[symbol.axis]? with
    | none => .error (.missingAxis name)
    | some n =>
      let v := (Literal.int (Int64.ofNat n)).convert (g.elemSize symbol.node)
      bindSymbols g (given.insert symbol.node (.scalar v)) (sizes.insert name n) rest

/-- The size a dimension must have; a computed one may have any. -/
def requiredSize (sizes : Table String Nat) : Dim → Option Nat
  | .const n => some (Dim.constSize n)
  | .sym name => sizes.get? name
  | .node _ => none

/-- Checks the sizes of an argument against the dimensions of its parameter. -/
def checkDims (id : NodeId) (sizes : Table String Nat) : List (Dim × Nat) → Except EvalFault Unit
  | [] => .ok ()
  | (d, n) :: rest =>
    match requiredSize sizes d with
    | some required =>
      if required = n then checkDims id sizes rest else .error (.argumentDimension id n d)
    | none => checkDims id sizes rest

/-- Checks the sizes of all arguments. -/
def checkSizes (g : Graph) (sizes : Table String Nat) : List (NodeId × Value) →
    Except EvalFault Unit
  | [] => .ok ()
  | (id, v) :: rest => do
    checkDims id sizes ((g.shape id).zip v.shape)
    checkSizes g sizes rest

/-- The values of the arguments and shape symbols, and the sizes of the symbols. -/
def bindAll (f : FunctionGraph) (args : List Value) :
    Except EvalFault (GivenValues × Table String Nat) := do
  if args.length ≠ f.inputs.length then
    .error (.argumentCount f.name f.inputs.length args.length)
  else
    let given ← bindArguments f.graph .empty f.inputs args
    let (given, sizes) ← bindSymbols f.graph given .empty f.symbols.entries
    checkSizes f.graph sizes given.entries
    .ok (given, sizes)

/-- The results of a function on arguments, which are given in the order of its parameters. -/
def eval (f : FunctionGraph) (args : List Value) : Except EvalFault (List Value) := do
  let (given, sizes) ← f.bindAll args
  (Evaluator.nodes ⟨f.graph, sizes⟩ f.outputs [.ofTable given]).1

end FunctionGraph

end TensorKernel
