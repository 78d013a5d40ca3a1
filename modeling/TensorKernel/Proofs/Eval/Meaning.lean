import TensorKernel.Eval.Evaluator

/-!
# The meaning of nodes

What a node evaluates to, said without scopes and without remembering anything.  A valuation gives
the values of nodes; `Meaning.operator` is the value that an operator has under a valuation, and
`Meaning.node` closes the recursion.

A body is read at one level only: its operator on scalars takes placeholders to the elements that
they stand for, and everything else to the values outside.
-/

namespace TensorKernel

/-- What nodes evaluate to. -/
abbrev Valuation := NodeId → Except EvalFault Value

namespace Meaning

/-- The result of an operator on literals. -/
def ofArithmetic {α : Type} : Except ArithmeticFault α → Except EvalFault α
  | .ok a => .ok a
  | .error fault => .error (.arithmetic fault)

/-- An element of a tensor. -/
def element (data : Array Literal) (i : Nat) : Except EvalFault Literal :=
  match data[i]? with
  | some v => .ok v
  | none => .error .elementOutOfRange

section Operands

variable (ctx : EvalContext) (val : Valuation)

/-- The value of a scalar. -/
def scalar (id : NodeId) : Except EvalFault Literal := do
  match ← val id with
  | .scalar v => .ok v
  | .tensor _ _ => .error (.expectedScalar id)

/-- The sizes and the elements of a tensor. -/
def tensor (id : NodeId) : Except EvalFault (List Nat × Array Literal) := do
  match ← val id with
  | .tensor shape data => .ok (shape, data)
  | .scalar _ => .error (.expectedTensor id)

/-- The index that a scalar holds, which must lie inside an axis. -/
def index (id : NodeId) (size : Nat) : Except EvalFault Nat := do
  let v ← scalar val id
  let i := v.asInt
  if 0 ≤ i.toInt ∧ i.toInt < size then .ok i.toInt.toNat else .error (.indexOutOfBounds i size)

/-- The indices that scalars hold, each for the next axis. -/
def indices : List NodeId → List Nat → Except EvalFault (List Nat)
  | id :: ids, size :: sizes => do
    let i ← index val id size
    let is ← indices ids sizes
    .ok (i :: is)
  | _, _ => .ok []

/-- The size of an axis; a computed size counts as zero if it is negative. -/
def dim : Dim → Except EvalFault Nat
  | .const n => .ok (Dim.constSize n)
  | .sym name =>
    match ctx.sizes.get? name with
    | some n => .ok n
    | none => .error (.unboundSymbol name)
  | .node id => do
    let v ← scalar val id
    .ok v.asInt.toInt.toNat

/-- The sizes of the axes of a shape. -/
def dims (shape : Shape) : Except EvalFault (List Nat) :=
  shape.mapM (dim ctx val)

end Operands

section Operators

variable (ctx : EvalContext) (val : Valuation)

/-- The value of an operator on scalars in the given type. -/
def scalarOp (op : Op) (sz : ElemSize) : Except EvalFault Literal :=
  match op.kind, op.inputs with
  | .unary unop, arg :: _ => do
    let v ← scalar val arg
    ofArithmetic (v.unary unop sz)
  | .binary binop, lhs :: rhs :: _ => do
    let l ← scalar val lhs
    let r ← scalar val rhs
    ofArithmetic (l.binary binop r sz)
  | _, _ => .error .operatorWithoutInputs

@[simp]
theorem scalarOp_unary (op : UnOp) (arg : NodeId) (outputs : List NodeId) (sz : ElemSize) :
    scalarOp val ⟨.unary op, [arg], outputs⟩ sz = (do
      let v ← scalar val arg
      ofArithmetic (v.unary op sz)) := rfl

@[simp]
theorem scalarOp_binary (op : BinOp) (lhs rhs : NodeId) (outputs : List NodeId) (sz : ElemSize) :
    scalarOp val ⟨.binary op, [lhs, rhs], outputs⟩ sz = (do
      let l ← scalar val lhs
      let r ← scalar val rhs
      ofArithmetic (l.binary op r sz)) := rfl

/-- The values inside a body: placeholders stand for elements. -/
def inside (holes : List NodeId) (elems : List Literal) : Valuation := fun id =>
  match (Scope.ofList (holes.zip elems)).get? id with
  | some v => .ok (.scalar v)
  | none => val id

/-- The value of the node that a body computes, for the given elements. -/
def innerValue (holes : List NodeId) (inner : NodeId) (elems : List Literal) :
    Except EvalFault Literal :=
  match (ctx.graph.node inner).constant?, (ctx.graph.node inner).producer with
  | some v, _ => .ok (v.convert (ctx.graph.elemSize inner))
  | none, some o => scalarOp (inside val holes elems) (ctx.graph.op o) (ctx.graph.elemSize inner)
  | none, none => .error (.withoutValue inner)

/-- What a body computes for the given elements, in the type of the node that collects it. -/
def body (holes : List NodeId) (inner outer : NodeId) (elems : List Literal) :
    Except EvalFault Literal := do
  let v ← innerValue ctx val holes inner elems
  .ok (v.convert (ctx.graph.elemSize outer))

/-- The elements of the operands that belong to an index vector of the result. -/
def elements (operands : List (List Nat × Array Literal)) (idx : List Nat) :
    Except EvalFault (List Literal) :=
  operands.mapM fun operand =>
    element operand.2 (Index.place operand.1 (Index.broadcast operand.1 idx))

/-- The tensor that a body computes element by element. -/
def elementwise (inputs : List NodeId) (rule : Body) : Except EvalFault Value := do
  let _ ← inputs.mapM val
  match rule.outputs with
  | [] => .error .elementwiseWithoutOutputs
  | (inner, outer) :: _ => do
    let shape ← dims ctx val (ctx.graph.shape outer)
    let operands ← rule.inputs.mapM fun pair => tensor val pair.1
    let data ← (Index.rowMajor shape).mapM fun idx => do
      let elems ← elements operands idx
      body ctx val (rule.inputs.map Prod.snd) inner outer elems
    .ok (.tensor shape data.toArray)

/-- Combines every element with the cell that its index vector projects to. -/
def fold (combine : Literal → Literal → Except EvalFault Literal) (axes outShape : List Nat)
    (data : Array Literal) :
    List (List Nat) → Nat → Array Literal → Except EvalFault (Array Literal)
  | [], _, cells => .ok cells
  | idx :: rest, i, cells => do
    let j := Index.place outShape (Graph.withoutAxes axes idx)
    let v ← element data i
    let cell ← element cells j
    let next ← combine v cell
    fold combine axes outShape data rest (i + 1) (cells.setIfInBounds j next)

/-- The tensor or the scalar that remains when axes are folded. -/
def reduction (axes : List Nat) (arg init : NodeId) (holes : List NodeId) (inner dst : NodeId) :
    Except EvalFault Value := do
  let (shape, data) ← tensor val arg
  let start ← scalar val init
  let outShape := Graph.withoutAxes axes shape
  let cells ← fold (fun v cell => body ctx val holes inner dst [v, cell]) axes outShape data
    (Index.rowMajor shape) 0 (Array.replicate (Index.count outShape) start)
  if ctx.graph.isScalar dst then do
    let v ← element cells 0
    .ok (.scalar v)
  else .ok (.tensor outShape cells)

/-- An element at computed indices. -/
def getItem (target : NodeId) (is : List NodeId) (dst : NodeId) : Except EvalFault Value := do
  let (shape, data) ← tensor val target
  let idx ← indices val is shape
  let v ← element data (Index.place shape idx)
  .ok (.scalar (v.convert (ctx.graph.elemSize dst)))

/-- A tensor with another element at computed indices. -/
def setItem (target value : NodeId) (is : List NodeId) (dst : NodeId) : Except EvalFault Value := do
  let (shape, data) ← tensor val target
  let v ← scalar val value
  let idx ← indices val is shape
  let i := Index.place shape idx
  let _ ← element data i
  .ok (.tensor shape (data.setIfInBounds i (v.convert (ctx.graph.elemSize dst))))

/-- The first index and the step along each axis; an axis without an index is read in full. -/
def starts : List SliceIndex → List Nat → Except EvalFault (List (Int64 × Int64))
  | _, [] => .ok []
  | [], _ :: sizes => do
    let rest ← starts [] sizes
    .ok ((0, 1) :: rest)
  | .element i :: indices, size :: sizes => do
    let start ← index val i size
    let rest ← starts indices sizes
    .ok ((Int64.ofNat start, 1) :: rest)
  | .range lower _ step :: indices, _ :: sizes => do
    let start ← scalar val lower
    let step ← scalar val step
    let rest ← starts indices sizes
    .ok ((start.asInt, step.asInt) :: rest)

/-- The index vector in the source of a slice for an index vector of the result. -/
def sourceIndex : List Nat → List (Int64 × Int64) → List Nat → Except EvalFault (List Nat)
  | i :: idx, (start, step) :: steps, size :: sizes => do
    let v := start + Int64.ofNat i * step
    if 0 ≤ v ∧ v < Int64.ofNat size then do
      let rest ← sourceIndex idx steps sizes
      .ok (v.toInt.toNat :: rest)
    else .error (.sliceOutOfBounds v size)
  | _, _, _ => .ok []

/-- An element of a slice. -/
def sliceElement (steps : List (Int64 × Int64)) (shape : List Nat) (data : Array Literal)
    (idx : List Nat) : Except EvalFault Literal := do
  let source ← sourceIndex idx steps shape
  element data (Index.place shape source)

/-- A region of a tensor. -/
def slice (target : NodeId) (selected : List SliceIndex) (sizes : Shape) (dst : NodeId) :
    Except EvalFault Value := do
  let (shape, data) ← tensor val target
  let sizes ← dims ctx val sizes
  let steps ← starts val selected shape
  let out ← (Index.rowMajor sizes).mapM (sliceElement steps shape data)
  let outShape ← dims ctx val (ctx.graph.shape dst)
  .ok (.tensor outShape out.toArray)

/-- The value that an operator gives to the node that it computes. -/
def operator (op : Op) (dst : NodeId) : Except EvalFault Value :=
  match op.kind, op.inputs with
  | .unary _, _ | .binary _, _ => do
    let v ← scalarOp val op (ctx.graph.elemSize dst)
    .ok (.scalar v)
  | .elementwise rule, inputs => elementwise ctx val inputs rule
  | .reduction axes ⟨pairs, (inner, _) :: _⟩ _, arg :: init :: _ =>
    reduction ctx val axes arg init (pairs.map Prod.snd) inner dst
  | .getItem, target :: is => getItem ctx val target is dst
  | .setItem, target :: value :: is => setItem ctx val target value is dst
  | .slice selected sizes, target :: _ => slice ctx val target selected sizes dst
  | .copy, src :: _ | .deepCopy, src :: _ => do
    let v ← val src
    .ok (v.convert (ctx.graph.elemSize dst))
  | _, _ => .error .operatorWithoutInputs

end Operators

/-- The value of a node after at most the given number of operators in a row. -/
def node (ctx : EvalContext) (given : GivenValues) : Nat → Valuation
  | 0, id => .error (.cyclicGraph id)
  | n + 1, id =>
    match given.get? id with
    | some v => .ok v
    | none =>
      match (ctx.graph.node id).constant?, (ctx.graph.node id).producer with
      | some v, _ => .ok (.scalar (v.convert (ctx.graph.elemSize id)))
      | none, some o => operator ctx (node ctx given n) (ctx.graph.op o) id
      | none, none => .error (.withoutValue id)

end Meaning

/-- The value of a node where the given nodes have the given values. -/
def meaning (ctx : EvalContext) (given : GivenValues) : Valuation :=
  Meaning.node ctx given (ctx.graph.ops.size + 1)

end TensorKernel
