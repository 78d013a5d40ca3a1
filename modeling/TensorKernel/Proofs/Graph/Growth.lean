import TensorKernel.Graph.Apply

/-!
# Growing graphs

What adding a node or an operator changes of a graph, read off place by place, and the relation
`Graph.Extends` between a graph and one that was built on top of it: places that exist keep their
node, their producer and their operator.

Consumers are left out on purpose.  They are the one part of a node that grows, and nothing here
depends on them.
-/

namespace TensorKernel

namespace Graph

/-! ## Adding a node -/

@[simp]
theorem addNode_fst (g : Graph) (name : Option String) (kind : NodeKind) :
    (g.addNode name kind).1 = ⟨g.nodes.size⟩ := rfl

@[simp]
theorem addNode_ops (g : Graph) (name : Option String) (kind : NodeKind) :
    (g.addNode name kind).2.ops = g.ops := rfl

@[simp]
theorem addNode_nodes_size (g : Graph) (name : Option String) (kind : NodeKind) :
    (g.addNode name kind).2.nodes.size = g.nodes.size + 1 := by
  simp [addNode]

@[simp]
theorem addNode_op (g : Graph) (name : Option String) (kind : NodeKind) (o : OpId) :
    (g.addNode name kind).2.op o = g.op o := rfl

/-- A place outside the graph holds the default node. -/
theorem node_of_size_le {g : Graph} {id : NodeId} (h : g.nodes.size ≤ id.index) :
    g.node id = default := by
  simp [node, Array.getD, Nat.not_lt.mpr h]

/-- The new node stands at the end, and all others stay. -/
theorem addNode_node (g : Graph) (name : Option String) (kind : NodeKind) (id : NodeId) :
    (g.addNode name kind).2.node id =
      if id.index = g.nodes.size then ⟨name, kind, none, []⟩ else g.node id := by
  by_cases hlt : id.index < g.nodes.size
  · simp [addNode, node, Array.getD, hlt, Nat.lt_succ_of_lt hlt, Nat.ne_of_lt hlt,
      Array.getElem_push_lt]
  · by_cases heq : id.index = g.nodes.size
    · simp [addNode, node, Array.getD, heq]
    · have hle : g.nodes.size ≤ id.index := Nat.le_of_not_lt hlt
      have hgt : ¬ id.index < g.nodes.size + 1 := by omega
      simp [addNode, node, Array.getD, heq, hlt, hgt]

/-- The new node. -/
@[simp]
theorem addNode_node_self (g : Graph) (name : Option String) (kind : NodeKind) :
    (g.addNode name kind).2.node ⟨g.nodes.size⟩ = ⟨name, kind, none, []⟩ := by
  rw [addNode_node, if_pos rfl]

@[simp]
theorem addScalar_fst (g : Graph) (name : Option String) (sz : ElemSize) :
    (g.addScalar name sz).1 = ⟨g.nodes.size⟩ := rfl

@[simp]
theorem addScalar_nodes_size (g : Graph) (name : Option String) (sz : ElemSize) :
    (g.addScalar name sz).2.nodes.size = g.nodes.size + 1 := addNode_nodes_size ..

@[simp]
theorem addConstant_fst (g : Graph) (v : Literal) (sz : ElemSize) :
    (g.addConstant v sz).1 = ⟨g.nodes.size⟩ := rfl

@[simp]
theorem addConstant_nodes_size (g : Graph) (v : Literal) (sz : ElemSize) :
    (g.addConstant v sz).2.nodes.size = g.nodes.size + 1 := addNode_nodes_size ..

@[simp]
theorem placeholder_fst (g : Graph) (outer : NodeId) :
    (g.placeholder outer).1 = ⟨g.nodes.size⟩ := rfl

@[simp]
theorem placeholder_nodes_size (g : Graph) (outer : NodeId) :
    (g.placeholder outer).2.nodes.size = g.nodes.size + 1 := addNode_nodes_size ..

/-- Adding a node of a type gives it that type. -/
theorem addOfType_eq_addNode (g : Graph) (name : Option String) (ty : KernelType) :
    ∃ kind, g.addOfType name ty = g.addNode name kind ∧
      (∀ producer consumers, Node.type ⟨name, kind, producer, consumers⟩ = ty) ∧
      ∀ v sz, kind ≠ .constant v sz := by
  cases ty with
  | scalar sz => exact ⟨.scalar sz, rfl, fun _ _ => rfl, by simp⟩
  | tensor sz shape => exact ⟨.tensor sz shape, rfl, fun _ _ => rfl, by simp⟩

/-! ## Adding an operator -/

@[simp]
theorem addOp_fst (g : Graph) (kind : OpKind) (inputs outputs : List NodeId) :
    (g.addOp kind inputs outputs).1 = ⟨g.ops.size⟩ := rfl

@[simp]
theorem addOp_ops_size (g : Graph) (kind : OpKind) (inputs outputs : List NodeId) :
    (g.addOp kind inputs outputs).2.ops.size = g.ops.size + 1 := by
  simp [addOp]

/-- The new operator stands at the end, and all others stay. -/
theorem addOp_op (g : Graph) (kind : OpKind) (inputs outputs : List NodeId) (o : OpId) :
    (g.addOp kind inputs outputs).2.op o =
      if o.index = g.ops.size then ⟨kind, inputs, outputs⟩ else g.op o := by
  by_cases hlt : o.index < g.ops.size
  · simp [addOp, op, Array.getD, hlt, Nat.lt_succ_of_lt hlt, Nat.ne_of_lt hlt,
      Array.getElem_push_lt]
  · by_cases heq : o.index = g.ops.size
    · simp [addOp, op, Array.getD, heq]
    · have hgt : ¬ o.index < g.ops.size + 1 := by omega
      simp [addOp, op, Array.getD, heq, hlt, hgt]

/-- Recording consumers changes nothing of a node but its consumers. -/
theorem foldl_addConsumer (o : OpId) (ids : List NodeId) (nodes : Array Node) :
    (ids.foldl (addConsumer o) nodes).size = nodes.size ∧
      ∀ i, ∃ consumers, (ids.foldl (addConsumer o) nodes).getD i default =
        { nodes.getD i default with consumers } := by
  induction ids generalizing nodes with
  | nil => exact ⟨rfl, fun i => ⟨_, rfl⟩⟩
  | cons id ids ih =>
    obtain ⟨hsize, hget⟩ := ih (addConsumer o nodes id)
    have hstep : (addConsumer o nodes id).size = nodes.size := by simp [addConsumer]
    refine ⟨hsize.trans hstep, fun i => ?_⟩
    obtain ⟨consumers, h⟩ := hget i
    refine ⟨consumers, h.trans ?_⟩
    simp only [addConsumer, Array.getD_eq_getD_getElem?, Array.getElem?_modify]
    by_cases hid : id.index = i
    · cases nodes[i]? <;> simp [hid]
    · simp [hid]

/-- Recording a producer at nodes changes nothing else of them. -/
theorem foldl_setProducer (o : OpId) (ids : List NodeId) (nodes : Array Node) :
    (ids.foldl (setProducer o) nodes).size = nodes.size ∧
      ∀ i, (ids.foldl (setProducer o) nodes).getD i default =
        if (⟨i⟩ : NodeId) ∈ ids ∧ i < nodes.size then
          { nodes.getD i default with producer := some o }
        else nodes.getD i default := by
  induction ids generalizing nodes with
  | nil => simp
  | cons id ids ih =>
    obtain ⟨hsize, hget⟩ := ih (setProducer o nodes id)
    have hstep : (setProducer o nodes id).size = nodes.size := by simp [setProducer]
    refine ⟨hsize.trans hstep, fun i => ?_⟩
    simp only [List.foldl_cons, hget, hstep, List.mem_cons]
    by_cases hi : i < nodes.size
    · by_cases hid : id.index = i
      · subst hid
        simp [setProducer, Array.getD, hi, Array.getElem_modify]
      · have hne : (⟨i⟩ : NodeId) ≠ id := fun h => hid (by rw [← h])
        simp [setProducer, Array.getD, hi, Array.getElem_modify, hid, hne]
    · simp [setProducer, Array.getD, hi]

@[simp]
theorem addOp_nodes_size (g : Graph) (kind : OpKind) (inputs outputs : List NodeId) :
    (g.addOp kind inputs outputs).2.nodes.size = g.nodes.size := by
  simp only [addOp]
  rw [(foldl_setProducer _ _ _).1, (foldl_addConsumer _ _ _).1]

/-- A node after an operator was added: the nodes it computes have it as their producer. -/
theorem addOp_node (g : Graph) (kind : OpKind) (inputs outputs : List NodeId) (id : NodeId) :
    ∃ consumers, (g.addOp kind inputs outputs).2.node id =
      { g.node id with
        producer := if id ∈ outputs ∧ id.index < g.nodes.size then some ⟨g.ops.size⟩
          else (g.node id).producer
        consumers } := by
  simp only [addOp, node]
  rw [(foldl_setProducer _ _ _).2, (foldl_addConsumer _ _ _).1]
  obtain ⟨consumers, h⟩ := (foldl_addConsumer ⟨g.ops.size⟩ inputs g.nodes).2 id.index
  rw [h]
  refine ⟨consumers, ?_⟩
  split <;> rfl

@[simp]
theorem addOp_kind (g : Graph) (kind : OpKind) (inputs outputs : List NodeId) (id : NodeId) :
    ((g.addOp kind inputs outputs).2.node id).kind = (g.node id).kind := by
  obtain ⟨consumers, h⟩ := addOp_node g kind inputs outputs id
  rw [h]

@[simp]
theorem addOp_name (g : Graph) (kind : OpKind) (inputs outputs : List NodeId) (id : NodeId) :
    ((g.addOp kind inputs outputs).2.node id).name = (g.node id).name := by
  obtain ⟨consumers, h⟩ := addOp_node g kind inputs outputs id
  rw [h]

theorem addOp_producer (g : Graph) (kind : OpKind) (inputs outputs : List NodeId) (id : NodeId) :
    ((g.addOp kind inputs outputs).2.node id).producer =
      if id ∈ outputs ∧ id.index < g.nodes.size then some ⟨g.ops.size⟩
      else (g.node id).producer := by
  obtain ⟨consumers, h⟩ := addOp_node g kind inputs outputs id
  rw [h]

/-! ## Extension -/

/-- Every place of the first graph holds the same in the second one, but for its consumers. -/
structure Extends (g g' : Graph) : Prop where
  nodes_le : g.nodes.size ≤ g'.nodes.size
  ops_le : g.ops.size ≤ g'.ops.size
  name_eq : ∀ id : NodeId, id.index < g.nodes.size → (g'.node id).name = (g.node id).name
  kind_eq : ∀ id : NodeId, id.index < g.nodes.size → (g'.node id).kind = (g.node id).kind
  producer_eq : ∀ id : NodeId, id.index < g.nodes.size →
    (g'.node id).producer = (g.node id).producer
  op_eq : ∀ o : OpId, o.index < g.ops.size → g'.op o = g.op o

namespace Extends

theorem refl (g : Graph) : Extends g g :=
  ⟨Nat.le_refl _, Nat.le_refl _, fun _ _ => rfl, fun _ _ => rfl, fun _ _ => rfl, fun _ _ => rfl⟩

theorem trans {g₁ g₂ g₃ : Graph} (h : Extends g₁ g₂) (h' : Extends g₂ g₃) : Extends g₁ g₃ where
  nodes_le := Nat.le_trans h.nodes_le h'.nodes_le
  ops_le := Nat.le_trans h.ops_le h'.ops_le
  name_eq id hid := (h'.name_eq id (Nat.lt_of_lt_of_le hid h.nodes_le)).trans (h.name_eq id hid)
  kind_eq id hid := (h'.kind_eq id (Nat.lt_of_lt_of_le hid h.nodes_le)).trans (h.kind_eq id hid)
  producer_eq id hid :=
    (h'.producer_eq id (Nat.lt_of_lt_of_le hid h.nodes_le)).trans (h.producer_eq id hid)
  op_eq o ho := (h'.op_eq o (Nat.lt_of_lt_of_le ho h.ops_le)).trans (h.op_eq o ho)

/-- A node added on top changes nothing below. -/
theorem addNode {g g' : Graph} (h : Extends g g') (name : Option String) (kind : NodeKind) :
    Extends g (g'.addNode name kind).2 := by
  have hne : ∀ id : NodeId, id.index < g.nodes.size → id.index ≠ g'.nodes.size := fun id hid =>
    Nat.ne_of_lt (Nat.lt_of_lt_of_le hid h.nodes_le)
  refine ⟨by simp; exact Nat.le_succ_of_le h.nodes_le, h.ops_le, ?_, ?_, ?_, h.op_eq⟩
  · intro id hid
    rw [addNode_node, if_neg (hne id hid), h.name_eq id hid]
  · intro id hid
    rw [addNode_node, if_neg (hne id hid), h.kind_eq id hid]
  · intro id hid
    rw [addNode_node, if_neg (hne id hid), h.producer_eq id hid]

/-- An operator that computes nodes added on top changes nothing below. -/
theorem addOp {g g' : Graph} (h : Extends g g') (kind : OpKind) (inputs outputs : List NodeId)
    (hout : ∀ id ∈ outputs, g.nodes.size ≤ id.index) :
    Extends g (g'.addOp kind inputs outputs).2 where
  nodes_le := by rw [addOp_nodes_size]; exact h.nodes_le
  ops_le := by rw [addOp_ops_size]; exact Nat.le_succ_of_le h.ops_le
  name_eq id hid := by rw [addOp_name, h.name_eq id hid]
  kind_eq id hid := by rw [addOp_kind, h.kind_eq id hid]
  producer_eq id hid := by
    rw [addOp_producer, if_neg, h.producer_eq id hid]
    exact fun hmem => Nat.not_lt.mpr (hout id hmem.1) hid
  op_eq o ho := by
    rw [addOp_op, if_neg (Nat.ne_of_lt (Nat.lt_of_lt_of_le ho h.ops_le)), h.op_eq o ho]

end Extends

end Graph

end TensorKernel
