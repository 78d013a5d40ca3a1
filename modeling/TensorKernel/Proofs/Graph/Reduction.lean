import TensorKernel.Numeric.Reduction
import TensorKernel.Proofs.Graph.Splice
import TensorKernel.Proofs.Literal

/-!
# Reductions in graphs

What a call of a reduction adds to a graph, as a property that further nodes, further operators and
copies of the graph keep.
-/

namespace TensorKernel

/-- A neutral element is a value of its type. -/
theorem BinOp.holds_neutralElement {op : BinOp} {sz : ElemSize} {v : Literal}
    (h : op.neutralElement? sz = some v) : sz.Holds v := by
  cases op <;> cases sz <;> cases h <;> first | rfl | exact ⟨rfl, by decide, by decide⟩

namespace Graph

/--
An operator folds axes of a tensor with a binary operator: its cells start with the neutral element,
and its body combines an element `x` with a cell `acc`, in the type of the cells.
-/
inductive Reduces (g : Graph) (b : BinOp) (axes : List Nat) (arg inner dst : NodeId) (o p : OpId) :
    Prop
  | intro {init x acc : NodeId} {neutral : Literal}
    (producer : (g.node dst).producer = some o)
    (op : g.op o = ⟨.reduction axes ⟨[(arg, x), (init, acc)], [(inner, dst)]⟩ [init], [arg, init],
      [dst]⟩)
    (constant : (g.node init).constant? = some neutral)
    (start : b.neutralElement? (g.elemSize dst) = some neutral)
    (body : (g.node inner).producer = some p) (combine : g.op p = ⟨.binary b, [x, acc], [inner]⟩)
    (ne : x ≠ acc) (lt : x.index < g.nodes.size)
    (size : g.elemSize dst = b.accumulatorSize (g.elemSize x))

variable {g g' : Graph} {b : BinOp} {axes : List Nat} {arg inner dst : NodeId} {o p : OpId}

/-- Places outside the graph hold scalars. -/
theorem lt_of_not_isScalar {id : NodeId} (h : g.isScalar id = false) : id.index < g.nodes.size := by
  by_contra hge
  rw [isScalar, node_of_size_le (Nat.le_of_not_lt hge)] at h
  cases h

theorem lt_of_op {op : Op} (h : g.op o = op) (hne : op ≠ default) : o.index < g.ops.size := by
  by_contra hge
  refine hne (h.symm.trans ?_)
  simp [Graph.op, Array.getD, hge]

theorem constant?_congr {node node' : Node} (h : node'.kind = node.kind) :
    node'.constant? = node.constant? := by
  simp only [Node.constant?, h]

theorem elemSize_congr {node node' : Node} (h : node'.kind = node.kind) :
    node'.elemSize = node.elemSize := by
  simp only [Node.elemSize, Node.type, h]

theorem Reduces.inner_lt (h : g.Reduces b axes arg inner dst o p) : inner.index < g.nodes.size := by
  obtain ⟨-, -, -, -, body, -, -, -, -⟩ := h
  exact lt_of_producer body

/-- A copy of either kind is no reduction. -/
theorem copies_ne_reduction {kind : OpKind} (h : kind = .copy ∨ kind = .deepCopy) :
    ∀ axes body init, kind ≠ .reduction axes body init := by
  rintro axes body init rfl
  simp at h

/-- A reduction stays where its nodes and operators stay. -/
theorem Reduces.congr (h : g.Reduces b axes arg inner dst o p) (hsize : g.nodes.size ≤ g'.nodes.size)
    (hkind : ∀ id : NodeId, id.index < g.nodes.size → (g'.node id).kind = (g.node id).kind)
    (hop : ∀ o : OpId, o.index < g.ops.size → g'.op o = g.op o)
    (hdst : (g'.node dst).producer = (g.node dst).producer)
    (hinner : (g'.node inner).producer = (g.node inner).producer) :
    g'.Reduces b axes arg inner dst o p := by
  obtain ⟨producer, op, constant, start, body, combine, ne, lt, size⟩ := h
  have helemSize (id : NodeId) (hid : id.index < g.nodes.size) : g'.elemSize id = g.elemSize id :=
    elemSize_congr (hkind id hid)
  have hdstSize := helemSize dst (lt_of_producer producer)
  refine .intro (hdst.trans producer) ((hop o (lt_of_op op nofun)).trans op)
    ((constant?_congr (hkind _ (lt_of_constant constant))).trans constant) ?_
    (hinner.trans body) ((hop p (lt_of_op combine nofun)).trans combine) ne
    (Nat.lt_of_lt_of_le lt hsize) ?_
  · rw [hdstSize, start]
  · rw [hdstSize, helemSize _ lt, size]

theorem Reduces.addNode (h : g.Reduces b axes arg inner dst o p) (name : Option String)
    (kind : NodeKind) : (g.addNode name kind).2.Reduces b axes arg inner dst o p := by
  have hold (id : NodeId) (hid : id.index < g.nodes.size) :
      (g.addNode name kind).2.node id = g.node id := by
    rw [addNode_node, if_neg (Nat.ne_of_lt hid)]
  obtain ⟨producer, op, constant, start, body, combine, ne, lt, size⟩ := id h
  refine h.congr (by simp) (fun id hid => by rw [hold id hid]) (fun _ _ => rfl) ?_ ?_
  · rw [hold _ (lt_of_producer producer)]
  · rw [hold _ (lt_of_producer body)]

/-- A copy of a graph has its reductions. -/
theorem Reduces.relocated (h : g.Reduces b axes arg inner dst o p) (outer : Graph)
    (symbol : String → Dim) :
    let r := outer.relocation symbol
    (outer.splice g symbol).2.Reduces b axes (r.node arg) (r.node inner) (r.node dst) (r.op o)
      (r.op p) := by
  intro r
  obtain @⟨init, x, acc, neutral, producer, op, constant, start, body, combine, ne, lt, size⟩ := h
  have hnode {id : NodeId} (hid : id.index < g.nodes.size) :
      (outer.splice g symbol).2.node (r.node id) = r.nodeData (g.node id) :=
    splice_node_relocated outer g symbol hid
  have hproducer {id : NodeId} {o : OpId} (h : (g.node id).producer = some o) :
      ((outer.splice g symbol).2.node (r.node id)).producer = some (r.op o) := by
    rw [hnode (lt_of_producer h), Relocation.nodeData_producer, h]
    rfl
  have hsize {id : NodeId} (hid : id.index < g.nodes.size) :
      (outer.splice g symbol).2.elemSize (r.node id) = g.elemSize id := by
    rw [elemSize, Node.elemSize, hnode hid, Relocation.nodeData_type, Relocation.elemSize_type]
    rfl
  have hop : (outer.splice g symbol).2.op (r.op o) = ⟨.reduction axes
      ⟨[(r.node arg, r.node x), (r.node init, r.node acc)], [(r.node inner, r.node dst)]⟩
      [r.node init], [r.node arg, r.node init], [r.node dst]⟩ := by
    rw [splice_op_relocated outer g symbol (lt_of_op op nofun), op]
    rfl
  have hcombine : (outer.splice g symbol).2.op (r.op p) =
      ⟨.binary b, [r.node x, r.node acc], [r.node inner]⟩ := by
    rw [splice_op_relocated outer g symbol (lt_of_op combine nofun), combine]
    rfl
  have hdst := hsize (lt_of_producer producer)
  refine .intro (hproducer producer) hop ?_ (by rw [hdst, start]) (hproducer body) hcombine
    (fun h => ne (Relocation.node_inj r h)) ?_ (by rw [hdst, hsize lt, size])
  · rw [hnode (lt_of_constant constant), Relocation.nodeData_constant?, constant]
  · rw [splice_nodes_size, Nat.add_comm]
    exact Nat.add_lt_add_right lt _

/-- Folding axes of a tensor adds five nodes: the fourth is computed in the body, and the last one is
the result. -/
theorem reduces_applyReduction (g : Graph) {b : BinOp} {arg : NodeId}
    (harg : arg.index < g.nodes.size) (axes : List Nat) {v : Literal}
    (hneutral : b.neutralElement? (b.accumulatorSize (g.elemSize arg)) = some v) :
    (g.applyReduction b arg axes (b.accumulatorSize (g.elemSize arg)) v).2.Reduces b axes arg
      ⟨g.nodes.size + 3⟩ ⟨g.nodes.size + 4⟩ ⟨g.ops.size + 1⟩ ⟨g.ops.size⟩ := by
  generalize hresult : (g.applyReduction b arg axes (b.accumulatorSize (g.elemSize arg)) v).2 = g'
  -- The places of the five nodes are known, so their kinds and producers are read off.
  have hkinds : (g'.node ⟨g.nodes.size⟩).kind = .constant v (b.accumulatorSize (g.elemSize arg)) ∧
      g'.elemSize ⟨g.nodes.size + 1⟩ = g.elemSize arg ∧
      g'.elemSize ⟨g.nodes.size + 4⟩ = b.accumulatorSize (g.elemSize arg) := by
    subst hresult
    cases hempty : (withoutAxes axes (g.shape arg)).isEmpty <;>
      simp [applyReduction, hempty, addConstant, placeholder, addScalar, addTensor,
        applyScalarBinary, addNode_node, Nat.ne_of_lt harg, Nat.add_assoc, elemSize,
        Node.elemSize, Node.type, KernelType.elemSize]
  have hops : (g'.node ⟨g.nodes.size + 4⟩).producer = some ⟨g.ops.size + 1⟩ ∧
      g'.op ⟨g.ops.size + 1⟩ = ⟨.reduction axes
        ⟨[(arg, ⟨g.nodes.size + 1⟩), (⟨g.nodes.size⟩, ⟨g.nodes.size + 2⟩)],
          [(⟨g.nodes.size + 3⟩, ⟨g.nodes.size + 4⟩)]⟩ [⟨g.nodes.size⟩], [arg, ⟨g.nodes.size⟩],
        [⟨g.nodes.size + 4⟩]⟩ ∧
      (g'.node ⟨g.nodes.size + 3⟩).producer = some ⟨g.ops.size⟩ ∧
      g'.op ⟨g.ops.size⟩ = ⟨.binary b, [⟨g.nodes.size + 1⟩, ⟨g.nodes.size + 2⟩],
        [⟨g.nodes.size + 3⟩]⟩ ∧ g'.nodes.size = g.nodes.size + 5 := by
    subst hresult
    cases hempty : (withoutAxes axes (g.shape arg)).isEmpty <;>
      simp [applyReduction, hempty, addConstant, placeholder, addScalar, addTensor,
        applyScalarBinary, addOp_producer, addOp_op, addNode_node, Nat.add_assoc]
  obtain ⟨hinit, hx, hdst⟩ := hkinds
  obtain ⟨hproducer, hop, hbody, hcombine, hsize⟩ := hops
  refine .intro hproducer hop ?_ (by rw [hdst, hneutral]) hbody hcombine ?_ ?_ (by rw [hdst, hx])
  · simp only [Node.constant?, hinit]
  · simp
  · show g.nodes.size + 1 < g'.nodes.size
    omega

end Graph

end TensorKernel
