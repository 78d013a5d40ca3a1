import TensorKernel.Literal
import TensorKernel.Operator
import TensorKernel.Shape

/-!
# Graphs

A graph holds the values of a kernel function as nodes and the computations between them as
operators.  Both are referred to by their place, and the graph lists them in the order in which they
were added.

The operators that a node feeds and the operator that computes it are kept at the node as well;
`Graph.addOp` keeps both records in step.
-/

namespace TensorKernel

/-- An operator of a graph, by its place in the graph. -/
structure OpId where
  index : Nat
deriving DecidableEq, Inhabited

/-- What a node stands for: a scalar that is computed, a constant, or a tensor. -/
inductive NodeKind where
  | scalar (size : ElemSize)
  | constant (value : Literal) (size : ElemSize)
  | tensor (size : ElemSize) (shape : Shape)
deriving DecidableEq, Inhabited

/-- A value of a graph, with the operator that computes it and the operators that read it. -/
structure Node where
  name : Option String
  kind : NodeKind
  producer : Option OpId
  consumers : List OpId
deriving DecidableEq, Inhabited

namespace Node

/-- The type of a node. -/
def type (node : Node) : KernelType :=
  match node.kind with
  | .scalar sz => .scalar sz
  | .constant _ sz => .scalar sz
  | .tensor sz shape => .tensor sz shape

/-- The element size of a node. -/
def elemSize (node : Node) : ElemSize :=
  node.type.elemSize

/-- The dimensions of a node; a scalar has none. -/
def shape (node : Node) : Shape :=
  node.type.shape

/-- Whether a node stands for a scalar. -/
def isScalar (node : Node) : Bool :=
  node.type.isScalar

/-- The value of a constant. -/
def constant? (node : Node) : Option Literal :=
  match node.kind with
  | .constant value _ => some value
  | _ => none

end Node

/--
The computation of one element.  `inputs` pairs a node outside with the placeholder that stands for
one element of it, and `outputs` pairs the node that is computed with the node outside that collects
its values.  Scalars outside are read directly.
-/
structure Body where
  inputs : List (NodeId × NodeId)
  outputs : List (NodeId × NodeId)
deriving DecidableEq, Inhabited

namespace Body

/-- The placeholder of a node outside. -/
def placeholder? (body : Body) (outer : NodeId) : Option NodeId :=
  (body.inputs.find? fun pair => pair.1 = outer).map Prod.snd

end Body

/-- The index of one axis: one element, or a range with a step. -/
inductive SliceIndex where
  | element (index : NodeId)
  | range (lower upper step : NodeId)
deriving DecidableEq, Inhabited

namespace SliceIndex

/-- The nodes that an index reads. -/
def nodes : SliceIndex → List NodeId
  | .element i => [i]
  | .range lower upper step => [lower, upper, step]

/-- Whether an index selects a range. -/
def isRange : SliceIndex → Bool
  | .element _ => false
  | .range _ _ _ => true

end SliceIndex

/--
The kinds of computation.

* `elementwise` runs its body once for every element of its outputs;
* `reduction` folds the axes `dims` of its first input, from `init` on;
* `getItem` reads a tensor, its first input, at one index for each axis;
* `setItem` gives a copy of a tensor where the element at the indices is the second input;
* `slice` selects a region of a tensor; `sizes` are the extents of the region before leading axes of
  size one are dropped;
* `copy` and `deepCopy` convert to the element size of the output, and the second always takes new
  memory.
-/
inductive OpKind where
  | unary (op : UnOp)
  | binary (op : BinOp)
  | elementwise (body : Body)
  | reduction (dims : List Nat) (body : Body) (init : List NodeId)
  | getItem
  | setItem
  | slice (indices : List SliceIndex) (sizes : Shape)
  | copy
  | deepCopy
deriving DecidableEq, Inhabited

/-- A computation, with the nodes that it reads and the nodes that it computes. -/
structure Op where
  kind : OpKind
  inputs : List NodeId
  outputs : List NodeId
deriving DecidableEq, Inhabited

/-- What was added to a graph. -/
inductive Item where
  | node (id : NodeId)
  | op (id : OpId)
deriving DecidableEq, Inhabited

/-- Nodes and operators by their places, and both in the order in which they were added. -/
structure Graph where
  nodes : Array Node
  ops : Array Op
  items : Array Item
deriving DecidableEq, Inhabited

namespace Graph

/-- The graph without nodes. -/
def empty : Graph := ⟨#[], #[], #[]⟩

/-- The node at a place; places outside the graph hold a default node. -/
def node (g : Graph) (id : NodeId) : Node :=
  g.nodes.getD id.index default

/-- The operator at a place; places outside the graph hold a default operator. -/
def op (g : Graph) (id : OpId) : Op :=
  g.ops.getD id.index default

/-- The type of the node at a place. -/
def type (g : Graph) (id : NodeId) : KernelType :=
  (g.node id).type

/-- The element size of the node at a place. -/
def elemSize (g : Graph) (id : NodeId) : ElemSize :=
  (g.node id).elemSize

/-- The dimensions of the node at a place. -/
def shape (g : Graph) (id : NodeId) : Shape :=
  (g.node id).shape

/-- Whether the node at a place stands for a scalar. -/
def isScalar (g : Graph) (id : NodeId) : Bool :=
  (g.node id).isScalar

/-- Adds a node that nothing computes or reads yet. -/
def addNode (g : Graph) (name : Option String) (kind : NodeKind) : NodeId × Graph :=
  let id : NodeId := ⟨g.nodes.size⟩
  (id, { g with
    nodes := g.nodes.push { name, kind, producer := none, consumers := [] }
    items := g.items.push (.node id) })

/-- Adds a scalar that is still to be computed. -/
def addScalar (g : Graph) (name : Option String) (sz : ElemSize) : NodeId × Graph :=
  g.addNode name (.scalar sz)

/-- Adds a scalar with a value. -/
def addConstant (g : Graph) (value : Literal) (sz : ElemSize) : NodeId × Graph :=
  g.addNode none (.constant value sz)

/-- Adds a tensor. -/
def addTensor (g : Graph) (name : Option String) (sz : ElemSize) (shape : Shape) : NodeId × Graph :=
  g.addNode name (.tensor sz shape)

/-- Adds a node of a type. -/
def addOfType (g : Graph) (name : Option String) : KernelType → NodeId × Graph
  | .scalar sz => g.addScalar name sz
  | .tensor sz shape => g.addTensor name sz shape

/-- Records at a node that an operator reads it. -/
def addConsumer (op : OpId) (nodes : Array Node) (id : NodeId) : Array Node :=
  nodes.modify id.index fun node => { node with consumers := node.consumers ++ [op] }

/-- Records at a node that an operator computes it. -/
def setProducer (op : OpId) (nodes : Array Node) (id : NodeId) : Array Node :=
  nodes.modify id.index fun node => { node with producer := some op }

/-- Adds an operator and records it at the nodes that it reads and computes. -/
def addOp (g : Graph) (kind : OpKind) (inputs outputs : List NodeId) : OpId × Graph :=
  let id : OpId := ⟨g.ops.size⟩
  (id,
    { nodes := outputs.foldl (setProducer id) (inputs.foldl (addConsumer id) g.nodes)
      ops := g.ops.push { kind, inputs, outputs }
      items := g.items.push (.op id) })

end Graph

end TensorKernel
