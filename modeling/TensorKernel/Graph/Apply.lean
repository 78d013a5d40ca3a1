import TensorKernel.Graph.Basic

/-!
# Applying operators

Applying an operator to scalars adds one node and one operator.  Applied to a tensor it adds an
elementwise operator, whose body applies the operator to placeholders for the elements.  A reduction
adds a body that combines one element with an accumulator.
-/

namespace TensorKernel

namespace Graph

/-- Adds a scalar that stands for one element of a node, under the name of that node. -/
def placeholder (g : Graph) (outer : NodeId) : NodeId × Graph :=
  g.addScalar (g.node outer).name (g.elemSize outer)

/-- Applies a unary operator to a scalar. -/
def applyScalarUnary (g : Graph) (op : UnOp) (arg : NodeId) (sz : ElemSize) : NodeId × Graph :=
  let (dst, g) := g.addScalar none sz
  let (_, g) := g.addOp (.unary op) [arg] [dst]
  (dst, g)

/-- Applies a unary operator to a scalar, or to every element of a tensor. -/
def applyUnary (g : Graph) (op : UnOp) (arg : NodeId) (sz : ElemSize) : NodeId × Graph :=
  if g.isScalar arg then g.applyScalarUnary op arg sz
  else
    let shape := g.shape arg
    let (x, g) := g.placeholder arg
    let (y, g) := g.applyScalarUnary op x sz
    let (dst, g) := g.addTensor none sz shape
    let (_, g) := g.addOp (.elementwise ⟨[(arg, x)], [(y, dst)]⟩) [arg] [dst]
    (dst, g)

/-- Applies a binary operator to two scalars. -/
def applyScalarBinary (g : Graph) (op : BinOp) (lhs rhs : NodeId) (sz : ElemSize) :
    NodeId × Graph :=
  let (dst, g) := g.addScalar none sz
  let (_, g) := g.addOp (.binary op) [lhs, rhs] [dst]
  (dst, g)

/--
The node that a body reads for an operand: a scalar itself, and for a tensor its placeholder, which
is added the first time the tensor occurs.
-/
def bindOperand (g : Graph) (inputs : List (NodeId × NodeId)) (id : NodeId) :
    NodeId × List (NodeId × NodeId) × Graph :=
  if g.isScalar id then (id, inputs, g)
  else
    match Body.placeholder? ⟨inputs, []⟩ id with
    | some inner => (inner, inputs, g)
    | none =>
      let (x, g) := g.placeholder id
      (x, inputs ++ [(id, x)], g)

/--
Applies a binary operator.  With a shape the result is a tensor of that shape, computed element by
element; without one the operands are scalars.
-/
def applyBinary (g : Graph) (op : BinOp) (lhs rhs : NodeId) (sz : ElemSize) (shape : Option Shape) :
    NodeId × Graph :=
  match shape with
  | none => g.applyScalarBinary op lhs rhs sz
  | some shape =>
    let (x, inputs, g) := g.bindOperand [] lhs
    let (y, inputs, g) := g.bindOperand inputs rhs
    let (z, g) := g.applyScalarBinary op x y sz
    let (dst, g) := g.addTensor none sz shape
    let (_, g) := g.addOp (.elementwise ⟨inputs, [(z, dst)]⟩) [lhs, rhs] [dst]
    (dst, g)

/-- The members of a list at the places that are not among the given ones. -/
def withoutAxes {α : Type} (dims : List Nat) (xs : List α) : List α :=
  (xs.zipIdx.filter fun pair => !dims.contains pair.2).map Prod.fst

/--
Folds axes of a tensor with a binary operator, from an initial value on.  The result has the other
axes, and is a scalar if there are none.
-/
def applyReduction (g : Graph) (op : BinOp) (arg : NodeId) (dims : List Nat) (sz : ElemSize)
    (init : Literal) : NodeId × Graph :=
  let shape := withoutAxes dims (g.shape arg)
  let (init, g) := g.addConstant init sz
  let (x, g) := g.placeholder arg
  let (acc, g) := g.addScalar none sz
  let (next, g) := g.applyScalarBinary op x acc sz
  let (dst, g) := if shape.isEmpty then g.addScalar none sz else g.addTensor none sz shape
  let (_, g) :=
    g.addOp (.reduction dims ⟨[(arg, x), (init, acc)], [(next, dst)]⟩ [init]) [arg, init] [dst]
  (dst, g)

end Graph

end TensorKernel
