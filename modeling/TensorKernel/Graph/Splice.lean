import TensorKernel.Graph.Basic

/-!
# Splicing graphs

`Graph.splice` puts a copy of one graph behind another.  Every place in the copy is shifted by the
number of nodes or operators that were there before, and the symbols in its shapes are replaced.
-/

namespace TensorKernel

/-- How places and symbols change when a graph is put behind another one. -/
structure Relocation where
  nodes : Nat
  ops : Nat
  symbol : String → Dim

namespace Relocation

/-- Shifts the place of a node. -/
def node (r : Relocation) (id : NodeId) : NodeId := ⟨id.index + r.nodes⟩

/-- Shifts the place of an operator. -/
def op (r : Relocation) (id : OpId) : OpId := ⟨id.index + r.ops⟩

/-- Replaces a symbol and shifts a node; constants stay. -/
def dim (r : Relocation) : Dim → Dim
  | .const size => .const size
  | .sym name => r.symbol name
  | .node id => .node (r.node id)

/-- Shifts both nodes of every pair. -/
def pairs (r : Relocation) (ids : List (NodeId × NodeId)) : List (NodeId × NodeId) :=
  ids.map fun pair => (r.node pair.1, r.node pair.2)

/-- Shifts the nodes of a body. -/
def body (r : Relocation) (body : Body) : Body :=
  ⟨r.pairs body.inputs, r.pairs body.outputs⟩

/-- Shifts the nodes of an index. -/
def index (r : Relocation) : SliceIndex → SliceIndex
  | .element i => .element (r.node i)
  | .range lower upper step => .range (r.node lower) (r.node upper) (r.node step)

/-- Replaces the dimensions of a tensor. -/
def nodeKind (r : Relocation) : NodeKind → NodeKind
  | .tensor sz shape => .tensor sz (shape.map r.dim)
  | kind => kind

/-- Shifts the nodes that a kind of operator mentions. -/
def opKind (r : Relocation) : OpKind → OpKind
  | .elementwise body => .elementwise (r.body body)
  | .reduction dims body init => .reduction dims (r.body body) (init.map r.node)
  | .slice indices sizes => .slice (indices.map r.index) (sizes.map r.dim)
  | kind => kind

/-- Shifts the operators at a node. -/
def nodeData (r : Relocation) (node : Node) : Node where
  name := node.name
  kind := r.nodeKind node.kind
  producer := node.producer.map r.op
  consumers := node.consumers.map r.op

/-- Shifts the nodes of an operator. -/
def opData (r : Relocation) (op : Op) : Op where
  kind := r.opKind op.kind
  inputs := op.inputs.map r.node
  outputs := op.outputs.map r.node

/-- Shifts an item. -/
def item (r : Relocation) : Item → Item
  | .node id => .node (r.node id)
  | .op id => .op (r.op id)

end Relocation

namespace Graph

/-- The relocation of a graph that is put behind this one. -/
def relocation (g : Graph) (symbol : String → Dim) : Relocation :=
  ⟨g.nodes.size, g.ops.size, symbol⟩

/-- Puts another graph behind this one, and gives the places of its nodes in the result. -/
def splice (g other : Graph) (symbol : String → Dim) : List NodeId × Graph :=
  let r := g.relocation symbol
  ((List.range other.nodes.size).map fun i => r.node ⟨i⟩,
    { nodes := g.nodes ++ other.nodes.map r.nodeData
      ops := g.ops ++ other.ops.map r.opData
      items := g.items ++ other.items.map r.item })

end Graph

end TensorKernel
