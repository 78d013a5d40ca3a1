import TensorKernel.Graph.FunctionGraph
import TensorKernel.Graph.Splice
import TensorKernel.Numeric.Reduction
import TensorKernel.Proofs.Graph.Valid

/-!
# Graphs up to the names of nodes

Nodes may have names, but nothing is computed from them.  `Graph.unnamed` drops the names, and
`Graph.Alike` says of two graphs that they differ in nothing else.  Every way of extending a graph that
chooses no names itself gives the same place in graphs that are alike, and leaves them alike.
-/

namespace TensorKernel

/-- The node without its name. -/
def Node.unnamed (node : Node) : Node :=
  { node with name := none }

namespace Graph

/-- The graph without the names of its nodes. -/
def unnamed (g : Graph) : Graph :=
  { g with nodes := g.nodes.map Node.unnamed }

/-- Graphs that differ in the names of their nodes only. -/
def Alike (g g' : Graph) : Prop :=
  g.unnamed = g'.unnamed

section

variable (g : Graph)

@[simp]
theorem unnamed_nodes_size : g.unnamed.nodes.size = g.nodes.size :=
  Array.size_map

@[simp]
theorem unnamed_ops : g.unnamed.ops = g.ops := rfl

@[simp]
theorem unnamed_node (id : NodeId) : g.unnamed.node id = (g.node id).unnamed := by
  simp only [node, unnamed, Array.getD_eq_getD_getElem?, Array.getElem?_map]
  cases g.nodes[id.index]? <;> rfl

@[simp]
theorem type_unnamed (id : NodeId) : g.unnamed.type id = g.type id := by
  rw [type, unnamed_node]
  rfl

@[simp]
theorem elemSize_unnamed (id : NodeId) : g.unnamed.elemSize id = g.elemSize id :=
  congrArg KernelType.elemSize (g.type_unnamed id)

@[simp]
theorem shape_unnamed (id : NodeId) : g.unnamed.shape id = g.shape id :=
  congrArg KernelType.shape (g.type_unnamed id)

@[simp]
theorem isScalar_unnamed (id : NodeId) : g.unnamed.isScalar id = g.isScalar id :=
  congrArg KernelType.isScalar (g.type_unnamed id)

/-! ## Extending a graph -/

theorem unnamed_addNode (name : Option String) (kind : NodeKind) :
    (g.addNode name kind).2.unnamed = (g.unnamed.addNode none kind).2 := by
  simp [addNode, unnamed, Node.unnamed]

theorem map_unnamed_modify (nodes : Array Node) (i : Nat) {f : Node → Node}
    (hf : ∀ node, (f node).unnamed = f node.unnamed) :
    (nodes.modify i f).map Node.unnamed = (nodes.map Node.unnamed).modify i f := by
  apply Array.ext
  · simp
  · intro j h₁ h₂
    simp only [Array.getElem_map, Array.getElem_modify]
    split
    · exact hf _
    · rfl

theorem map_unnamed_foldl (step : Array Node → NodeId → Array Node)
    (hstep : ∀ nodes id, (step nodes id).map Node.unnamed = step (nodes.map Node.unnamed) id)
    (ids : List NodeId) : ∀ nodes : Array Node,
      (ids.foldl step nodes).map Node.unnamed = ids.foldl step (nodes.map Node.unnamed) := by
  induction ids with
  | nil => exact fun _ => rfl
  | cons id ids ih =>
    intro nodes
    rw [List.foldl_cons, List.foldl_cons, ih, hstep]

theorem unnamed_addOp (kind : OpKind) (inputs outputs : List NodeId) :
    (g.addOp kind inputs outputs).2.unnamed = (g.unnamed.addOp kind inputs outputs).2 := by
  have hreads := map_unnamed_foldl (addConsumer ⟨g.ops.size⟩)
    (fun nodes id => map_unnamed_modify nodes id.index fun _ => rfl) inputs g.nodes
  have hcomputes := map_unnamed_foldl (setProducer ⟨g.ops.size⟩)
    (fun nodes id => map_unnamed_modify nodes id.index fun _ => rfl) outputs
  rw [addOp, unnamed, hcomputes, hreads]
  rfl

theorem unnamed_splice (other : Graph) (symbol : String → Dim) :
    (g.splice other symbol).2.unnamed = (g.unnamed.splice other.unnamed symbol).2 := by
  simp only [splice, relocation, unnamed, Array.map_append, Array.map_map, Array.size_map]
  rfl

/-- Extending graphs without regard to names: without them, it gives the same place and no names. -/
def Blind {α : Type} (extend : Graph → α × Graph) : Prop :=
  ∀ g : Graph, extend g.unnamed = ((extend g).1, (extend g).2.unnamed)

theorem blind_addNode (kind : NodeKind) : Blind fun g => g.addNode none kind :=
  fun g => Prod.ext (by simp) (g.unnamed_addNode none kind).symm

theorem blind_addOp (kind : OpKind) (inputs outputs : List NodeId) :
    Blind fun g => g.addOp kind inputs outputs :=
  fun g => Prod.ext rfl (g.unnamed_addOp kind inputs outputs).symm

theorem blind_compute (kind : NodeKind) (op : OpKind) (inputs : List NodeId) :
    Blind fun g => g.compute none kind op inputs := by
  intro g
  simp only [compute, blind_addNode _ _, blind_addOp _ _ _ _]

/-- A placeholder has the name of its node, and none where that has none. -/
theorem blind_placeholder (outer : NodeId) : Blind fun g => g.placeholder outer := by
  intro g
  simp only [placeholder, addScalar, unnamed_node, elemSize_unnamed]
  exact Prod.ext (by simp) (g.unnamed_addNode _ _).symm

theorem blind_applyScalarUnary (op : UnOp) (arg : NodeId) (sz : ElemSize) :
    Blind fun g => g.applyScalarUnary op arg sz := by
  intro g
  simp only [applyScalarUnary, addScalar, blind_addNode _ _, blind_addOp _ _ _ _]

theorem blind_applyUnary (op : UnOp) (arg : NodeId) (sz : ElemSize) :
    Blind fun g => g.applyUnary op arg sz := by
  intro g
  simp only [applyUnary, isScalar_unnamed, shape_unnamed]
  split
  · exact blind_applyScalarUnary op arg sz g
  · simp only [addTensor, blind_placeholder _ _, blind_applyScalarUnary _ _ _ _, blind_addNode _ _,
      blind_addOp _ _ _ _]

theorem blind_applyScalarBinary (op : BinOp) (lhs rhs : NodeId) (sz : ElemSize) :
    Blind fun g => g.applyScalarBinary op lhs rhs sz := by
  intro g
  simp only [applyScalarBinary, addScalar, blind_addNode _ _, blind_addOp _ _ _ _]

theorem bindOperand_unnamed (inputs : List (NodeId × NodeId)) (id : NodeId) :
    g.unnamed.bindOperand inputs id = ((g.bindOperand inputs id).1, (g.bindOperand inputs id).2.1,
      (g.bindOperand inputs id).2.2.unnamed) := by
  simp only [bindOperand, isScalar_unnamed, blind_placeholder _ _]
  split
  · rfl
  · split <;> rfl

theorem blind_applyBinary (op : BinOp) (lhs rhs : NodeId) (sz : ElemSize) (shape : Option Shape) :
    Blind fun g => g.applyBinary op lhs rhs sz shape := by
  intro g
  cases shape with
  | none => exact blind_applyScalarBinary op lhs rhs sz g
  | some shape =>
    simp only [applyBinary, addTensor, bindOperand_unnamed, blind_applyScalarBinary _ _ _ _ _,
      blind_addNode _ _, blind_addOp _ _ _ _]

theorem blind_applyReduction (op : BinOp) (arg : NodeId) (dims : List Nat) (sz : ElemSize)
    (init : Literal) : Blind fun g => g.applyReduction op arg dims sz init := by
  intro g
  simp only [applyReduction, addConstant, addScalar, addTensor, shape_unnamed, blind_addNode _ _,
    blind_placeholder _ _, blind_applyScalarBinary _ _ _ _ _]
  split <;> simp only [blind_addOp _ _ _ _]

end

/-! ## Graphs that are alike -/

namespace Alike

variable {g g' : Graph}

theorem refl (g : Graph) : g.Alike g := rfl

theorem nodes_size (h : g.Alike g') : g'.nodes.size = g.nodes.size := by
  rw [← unnamed_nodes_size g', ← h, unnamed_nodes_size]

theorem ops (h : g.Alike g') : g'.ops = g.ops :=
  (congrArg Graph.ops h).symm

theorem type (h : g.Alike g') (id : NodeId) : g'.type id = g.type id := by
  rw [← type_unnamed g', ← h, type_unnamed]

theorem constant? (h : g.Alike g') (id : NodeId) :
    (g'.node id).constant? = (g.node id).constant? := by
  have hnode : (g'.node id).unnamed = (g.node id).unnamed := by
    rw [← unnamed_node, ← h, unnamed_node]
  have hconstant : (g'.node id).unnamed.constant? = (g.node id).unnamed.constant? := by rw [hnode]
  exact hconstant

theorem elemSize (h : g.Alike g') (id : NodeId) : g'.elemSize id = g.elemSize id :=
  congrArg KernelType.elemSize (h.type id)

theorem shape (h : g.Alike g') (id : NodeId) : g'.shape id = g.shape id :=
  congrArg KernelType.shape (h.type id)

theorem isScalar (h : g.Alike g') (id : NodeId) : g'.isScalar id = g.isScalar id :=
  congrArg KernelType.isScalar (h.type id)

/-- What is done without regard to names is done alike in graphs that are alike. -/
theorem blind {α : Type} {extend : Graph → α × Graph} (h : g.Alike g') (hblind : Blind extend) :
    (extend g).1 = (extend g').1 ∧ (extend g).2.Alike (extend g').2 := by
  have hsame : extend g.unnamed = extend g'.unnamed := congrArg extend h
  rw [hblind, hblind] at hsame
  exact Prod.mk.inj hsame

theorem addNode (h : g.Alike g') (name name' : Option String) (kind : NodeKind) :
    (g.addNode name kind).1 = (g'.addNode name' kind).1 ∧
      (g.addNode name kind).2.Alike (g'.addNode name' kind).2 := by
  refine ⟨?_, ?_⟩
  · rw [addNode_fst, addNode_fst, h.nodes_size]
  · rw [Alike, unnamed_addNode, unnamed_addNode, show g.unnamed = g'.unnamed from h]

theorem addOfType (h : g.Alike g') (name name' : Option String) (ty : KernelType) :
    (g.addOfType name ty).1 = (g'.addOfType name' ty).1 ∧
      (g.addOfType name ty).2.Alike (g'.addOfType name' ty).2 := by
  cases ty <;> exact h.addNode _ _ _

theorem splice (h : g.Alike g') {other other' : Graph} (hother : other.Alike other')
    (symbol : String → Dim) :
    (g.splice other symbol).1 = (g'.splice other' symbol).1 ∧
      (g.splice other symbol).2.Alike (g'.splice other' symbol).2 := by
  refine ⟨?_, ?_⟩
  · simp only [Graph.splice, relocation, h.nodes_size, hother.nodes_size, h.ops]
  · rw [Alike, unnamed_splice, unnamed_splice, show g.unnamed = g'.unnamed from h,
      show other.unnamed = other'.unnamed from hother]

/-- Graphs that are alike put what is spliced behind them at the same places. -/
theorem relocation (h : g.Alike g') (symbol : String → Dim) :
    g'.relocation symbol = g.relocation symbol := by
  rw [Graph.relocation, Graph.relocation, h.nodes_size, h.ops]

end Alike

end Graph

/-! ## Graphs of functions -/

/-- The graph of a function without the names of its nodes. -/
def FunctionGraph.unnamed (g : FunctionGraph) : FunctionGraph :=
  { g with graph := g.graph.unnamed }

/-- Graphs of functions that differ in the names of their nodes only. -/
def FunctionGraph.Alike (g g' : FunctionGraph) : Prop :=
  g.unnamed = g'.unnamed

end TensorKernel
