import TensorKernel.Proofs.Graph.Acyclic

/-!
# What a graph records

A graph keeps three records of its edges and its order: an operator lists the nodes that it reads and
computes, a node names the operator that computes it and lists the ones that read it, and the items
list nodes and operators as they were added.  `Graph.Recorded` says that the records agree and that
they mention no place outside the graph.

`Graph.Reached` is any sequence of additions to the empty graph, copies of other such graphs
included.  Every addition is a number of new nodes and new operators, or a splice, so three lemmas
carry the invariant through all of them.  Nothing is assumed of the operators: an operator may compute
a node that another one computes already, and then the later one is recorded.
-/

namespace TensorKernel

/-- Every node that an operator refers to. -/
def Op.mentions (op : Op) : List NodeId :=
  op.reads ++ op.kind.results ++ op.outputs

namespace Item

/-- The node that was added. -/
def node? : Item → Option NodeId
  | .node id => some id
  | .op _ => none

/-- The operator that was added. -/
def op? : Item → Option OpId
  | .node _ => none
  | .op o => some o

end Item

namespace Graph

/-- The operators that read a node, in their order, each as often as it reads the node. -/
def readers (g : Graph) (id : NodeId) : List OpId :=
  (List.range g.ops.size).flatMap fun i => List.replicate ((g.op ⟨i⟩).inputs.count id) ⟨i⟩

/-- The last operator that computes a node. -/
def writer? (g : Graph) (id : NodeId) : Option OpId :=
  ((List.range g.ops.size).filter fun i => id ∈ (g.op ⟨i⟩).outputs).getLast?.map OpId.mk

/-- The records of a graph agree, and mention nothing outside of it. -/
structure Recorded (g : Graph) : Prop where
  nodeItems : g.items.toList.filterMap Item.node? = (List.range g.nodes.size).map NodeId.mk
  opItems : g.items.toList.filterMap Item.op? = (List.range g.ops.size).map OpId.mk
  consumers : ∀ id : NodeId, id.index < g.nodes.size → (g.node id).consumers = g.readers id
  producer : ∀ id : NodeId, id.index < g.nodes.size → (g.node id).producer = g.writer? id
  mentions : ∀ o : OpId, o.index < g.ops.size →
    ∀ id ∈ (g.op o).mentions, id.index < g.nodes.size
  dims : ∀ id : NodeId, id.index < g.nodes.size →
    ∀ other, .node other ∈ g.shape id → other.index < g.nodes.size

theorem Recorded.empty : Graph.empty.Recorded where
  nodeItems := rfl
  opItems := rfl
  consumers id hid := by simp [Graph.empty] at hid
  producer id hid := by simp [Graph.empty] at hid
  mentions o ho := by simp [Graph.empty] at ho
  dims id hid := by simp [Graph.empty] at hid

section

variable {g : Graph}

/-- Operators that do not read a node are not among its readers. -/
theorem readers_eq_nil {id : NodeId} (h : ∀ o : OpId, o.index < g.ops.size → id ∉ (g.op o).inputs) :
    g.readers id = [] := by
  simp only [readers, List.flatMap_eq_nil_iff, List.mem_range]
  intro i hi
  simp [List.count_eq_zero.mpr (h ⟨i⟩ hi)]

theorem writer?_eq_none {id : NodeId}
    (h : ∀ o : OpId, o.index < g.ops.size → id ∉ (g.op o).outputs) : g.writer? id = none := by
  have hnone : ((List.range g.ops.size).filter fun i => id ∈ (g.op ⟨i⟩).outputs) = [] := by
    simp only [List.filter_eq_nil_iff, List.mem_range, decide_eq_true_eq]
    exact fun i hi => h ⟨i⟩ hi
  rw [writer?, hnone]
  rfl

theorem mem_mentions_of_input {op : Op} {id : NodeId} (h : id ∈ op.inputs) : id ∈ op.mentions := by
  simp [Op.mentions, Op.reads, h]

theorem mem_mentions_of_output {op : Op} {id : NodeId} (h : id ∈ op.outputs) :
    id ∈ op.mentions := by
  simp [Op.mentions, h]

/-! ## Adding a node -/

/-- A node behind the graph is read and computed by nothing. -/
theorem Recorded.fresh (h : g.Recorded) {id : NodeId} (hid : g.nodes.size ≤ id.index) :
    g.readers id = [] ∧ g.writer? id = none := by
  constructor
  · apply readers_eq_nil
    intro o ho hmem
    have := h.mentions o ho id (mem_mentions_of_input hmem)
    omega
  · apply writer?_eq_none
    intro o ho hmem
    have := h.mentions o ho id (mem_mentions_of_output hmem)
    omega

theorem Recorded.addNode (h : g.Recorded) (name : Option String) (kind : NodeKind)
    (hdims : ∀ other, .node other ∈ Node.shape ⟨name, kind, none, []⟩ →
      other.index < g.nodes.size) : (g.addNode name kind).2.Recorded where
  nodeItems := by
    simp only [Graph.addNode, Array.toList_push, List.filterMap_append, h.nodeItems, Array.size_push,
      List.range_succ, List.map_append]
    rfl
  opItems := by
    simp only [Graph.addNode, Array.toList_push, List.filterMap_append, h.opItems]
    simp [Item.op?]
  consumers id hid := by
    rw [addNode_node]
    split
    · next heq => exact (h.fresh (Nat.le_of_eq heq.symm)).1.symm
    · next hne =>
      rw [addNode_nodes_size] at hid
      exact h.consumers id (by omega)
  producer id hid := by
    rw [addNode_node]
    split
    · next heq => exact (h.fresh (Nat.le_of_eq heq.symm)).2.symm
    · next hne =>
      rw [addNode_nodes_size] at hid
      exact h.producer id (by omega)
  mentions o ho id hid := by
    have := h.mentions o ho id hid
    rw [addNode_nodes_size]
    omega
  dims id hid other hother := by
    rw [addNode_nodes_size] at hid ⊢
    rw [shape, addNode_node] at hother
    split at hother
    · have := hdims other hother
      omega
    · have := h.dims id (by omega) other hother
      omega

/-! ## Adding an operator -/

theorem foldl_addConsumer_consumers (o : OpId) (ids : List NodeId) (nodes : Array Node) (i : Nat)
    (hi : i < nodes.size) : ((ids.foldl (addConsumer o) nodes).getD i default).consumers =
      (nodes.getD i default).consumers ++ List.replicate (ids.count ⟨i⟩) o := by
  induction ids generalizing nodes with
  | nil => simp
  | cons id ids ih =>
    rw [List.foldl_cons, ih _ (by simpa [addConsumer] using hi)]
    by_cases hid : id = ⟨i⟩
    · subst hid
      simp [addConsumer, Array.getD_eq_getD_getElem?, Array.getElem_modify, hi,
        List.replicate_succ]
    · have hne : id.index ≠ i := fun heq => hid (by cases id; simp_all)
      simp [addConsumer, Array.getD_eq_getD_getElem?, Array.getElem_modify, hi, hid, hne]

/-- The new operator is put behind the others that read a node, once for every time it does. -/
theorem addOp_consumers (kind : OpKind) (inputs outputs : List NodeId) {id : NodeId}
    (hid : id.index < g.nodes.size) : ((g.addOp kind inputs outputs).2.node id).consumers =
      (g.node id).consumers ++ List.replicate (inputs.count id) ⟨g.ops.size⟩ := by
  show (((outputs.foldl (setProducer ⟨g.ops.size⟩)
    (inputs.foldl (addConsumer ⟨g.ops.size⟩) g.nodes))).getD id.index default).consumers = _
  rw [(foldl_setProducer ⟨g.ops.size⟩ outputs _).2 id.index]
  split <;> exact foldl_addConsumer_consumers ⟨g.ops.size⟩ inputs g.nodes id.index hid

theorem addOp_readers (kind : OpKind) (inputs outputs : List NodeId) (id : NodeId) :
    (g.addOp kind inputs outputs).2.readers id =
      g.readers id ++ List.replicate (inputs.count id) ⟨g.ops.size⟩ := by
  have hold : (List.range g.ops.size).flatMap (fun i =>
      List.replicate (((g.addOp kind inputs outputs).2.op ⟨i⟩).inputs.count id) (OpId.mk i)) =
        g.readers id := by
    refine List.flatMap_congr fun i hi => ?_
    rw [addOp_op, if_neg (Nat.ne_of_lt (List.mem_range.mp hi))]
  rw [readers, addOp_ops_size, List.range_succ, List.flatMap_append, hold, List.flatMap_singleton,
    addOp_op, if_pos rfl]

theorem addOp_writer? (kind : OpKind) (inputs outputs : List NodeId) (id : NodeId) :
    (g.addOp kind inputs outputs).2.writer? id =
      if id ∈ outputs then some ⟨g.ops.size⟩ else g.writer? id := by
  have hold : (List.range g.ops.size).filter
      (fun i => id ∈ ((g.addOp kind inputs outputs).2.op ⟨i⟩).outputs) =
        (List.range g.ops.size).filter fun i => id ∈ (g.op ⟨i⟩).outputs := by
    refine List.filter_congr fun i hi => ?_
    rw [addOp_op, if_neg (Nat.ne_of_lt (List.mem_range.mp hi))]
  rw [writer?, addOp_ops_size, List.range_succ, List.filter_append, hold]
  by_cases hid : id ∈ outputs
  · simp [addOp_op, hid]
  · simp [addOp_op, hid, writer?]

theorem Recorded.addOp (h : g.Recorded) (kind : OpKind) (inputs outputs : List NodeId)
    (hop : ∀ id ∈ Op.mentions ⟨kind, inputs, outputs⟩, id.index < g.nodes.size) :
    (g.addOp kind inputs outputs).2.Recorded where
  nodeItems := by
    rw [addOp_nodes_size]
    simp only [Graph.addOp, Array.toList_push, List.filterMap_append, h.nodeItems]
    simp [Item.node?]
  opItems := by
    rw [addOp_ops_size]
    simp only [Graph.addOp, Array.toList_push, List.filterMap_append, h.opItems, List.range_succ,
      List.map_append]
    rfl
  consumers id hid := by
    rw [addOp_nodes_size] at hid
    rw [addOp_consumers kind inputs outputs hid, addOp_readers, h.consumers id hid]
  producer id hid := by
    rw [addOp_nodes_size] at hid
    rw [addOp_producer, addOp_writer?, h.producer id hid]
    simp [hid]
  mentions o ho id hid := by
    rw [addOp_nodes_size]
    rw [addOp_op] at hid
    split at hid
    · exact hop id hid
    · rw [addOp_ops_size] at ho
      exact h.mentions o (by omega) id hid
  dims id hid other hother := by
    rw [addOp_nodes_size] at hid ⊢
    rw [shape, Node.shape, Node.type, addOp_kind] at hother
    exact h.dims id hid other hother

/-! ## Applying operators -/

/-- Adding a scalar, or a node of a type whose dimensions are in the graph. -/
theorem Recorded.addScalar (h : g.Recorded) (name : Option String) (sz : ElemSize) :
    (g.addScalar name sz).2.Recorded :=
  h.addNode name (.scalar sz) (by simp [Node.shape, Node.type, KernelType.shape])

theorem Recorded.addConstant (h : g.Recorded) (v : Literal) (sz : ElemSize) :
    (g.addConstant v sz).2.Recorded :=
  h.addNode none (.constant v sz) (by simp [Node.shape, Node.type, KernelType.shape])

theorem Recorded.addTensor (h : g.Recorded) (name : Option String) (sz : ElemSize) (shape : Shape)
    (hdims : ∀ other, .node other ∈ shape → other.index < g.nodes.size) :
    (g.addTensor name sz shape).2.Recorded :=
  h.addNode name (.tensor sz shape) hdims

theorem Recorded.addOfType (h : g.Recorded) (name : Option String) (ty : KernelType)
    (hdims : ∀ other, .node other ∈ ty.shape → other.index < g.nodes.size) :
    (g.addOfType name ty).2.Recorded := by
  cases ty with
  | scalar sz => exact h.addScalar name sz
  | tensor sz shape => exact h.addTensor name sz shape hdims

/-- A new node with the operator that computes it. -/
theorem Recorded.compute (h : g.Recorded) (name : Option String) (kind : NodeKind) (op : OpKind)
    (inputs : List NodeId)
    (hdims : ∀ other, .node other ∈ Node.shape ⟨name, kind, none, []⟩ →
      other.index < g.nodes.size)
    (hop : ∀ id ∈ Op.mentions ⟨op, inputs, [⟨g.nodes.size⟩]⟩, id.index ≤ g.nodes.size) :
    (g.compute name kind op inputs).2.Recorded := by
  refine (h.addNode name kind hdims).addOp op inputs [⟨g.nodes.size⟩] fun id hid => ?_
  have := hop id hid
  rw [addNode_nodes_size]
  omega

theorem Recorded.scalarUnary (h : g.Recorded) (op : UnOp) {arg : NodeId}
    (harg : arg.index < g.nodes.size) (sz : ElemSize) :
    (g.compute none (.scalar sz) (.unary op) [arg]).2.Recorded := by
  refine h.compute none (.scalar sz) (.unary op) [arg]
    (by simp [Node.shape, Node.type, KernelType.shape]) ?_
  simp [Op.mentions, Op.reads, OpKind.reads, OpKind.results]
  omega

theorem Recorded.scalarBinary (h : g.Recorded) (op : BinOp) {lhs rhs : NodeId}
    (hlhs : lhs.index < g.nodes.size) (hrhs : rhs.index < g.nodes.size) (sz : ElemSize) :
    (g.compute none (.scalar sz) (.binary op) [lhs, rhs]).2.Recorded := by
  refine h.compute none (.scalar sz) (.binary op) [lhs, rhs]
    (by simp [Node.shape, Node.type, KernelType.shape]) ?_
  simp [Op.mentions, Op.reads, OpKind.reads, OpKind.results]
  omega

theorem Recorded.applyUnary (h : g.Recorded) (op : UnOp) {arg : NodeId}
    (harg : arg.index < g.nodes.size) (sz : ElemSize) : (g.applyUnary op arg sz).2.Recorded := by
  cases hscalar : g.isScalar arg with
  | true =>
    rw [Graph.applyUnary, if_pos hscalar]
    exact h.scalarUnary op harg sz
  | false =>
    rw [applyUnary_eq g op sz hscalar]
    dsimp only
    have hx : (g.placeholder arg).2.Recorded := h.addScalar _ _
    refine (hx.scalarUnary op (by simp) sz).compute none _ _ [arg] (fun other hother => ?_) ?_
    · have := h.dims arg harg other hother
      simp only [compute_nodes_size, placeholder_nodes_size]
      omega
    · simp [Op.mentions, Op.reads, OpKind.reads, OpKind.results, Body.reads]
      omega

/-- What a body reads for an operand is in the graph, and so are all its placeholders. -/
theorem Recorded.bindOperand (h : g.Recorded) (pairs : List (NodeId × NodeId)) {id : NodeId}
    (hid : id.index < g.nodes.size)
    (hpairs : ∀ p ∈ pairs, p.1.index < g.nodes.size ∧ p.2.index < g.nodes.size) :
    (g.bindOperand pairs id).2.2.Recorded ∧
      g.nodes.size ≤ (g.bindOperand pairs id).2.2.nodes.size ∧
      (g.bindOperand pairs id).1.index < (g.bindOperand pairs id).2.2.nodes.size ∧
      ∀ p ∈ (g.bindOperand pairs id).2.1, p.1.index < (g.bindOperand pairs id).2.2.nodes.size ∧
        p.2.index < (g.bindOperand pairs id).2.2.nodes.size := by
  unfold Graph.bindOperand
  split
  · exact ⟨h, Nat.le_refl _, hid, hpairs⟩
  · cases hfound : Body.placeholder? ⟨pairs, []⟩ id with
    | some inner =>
      obtain ⟨p, hp, rfl⟩ := Option.map_eq_some_iff.mp hfound
      exact ⟨h, Nat.le_refl _, (hpairs p (List.mem_of_find?_eq_some hp)).2, hpairs⟩
    | none =>
      refine ⟨h.addScalar _ _, by simp, by simp, fun p hp => ?_⟩
      rw [placeholder_nodes_size]
      rcases List.mem_append.mp hp with hp | hp
      · have := hpairs p hp
        omega
      · obtain rfl := List.mem_singleton.mp hp
        simp
        omega

theorem Recorded.applyBinary (h : g.Recorded) (op : BinOp) {lhs rhs : NodeId}
    (hlhs : lhs.index < g.nodes.size) (hrhs : rhs.index < g.nodes.size) (sz : ElemSize)
    {shape : Option Shape}
    (hshape : ∀ s, shape = some s → ∀ other, .node other ∈ s → other.index < g.nodes.size) :
    (g.applyBinary op lhs rhs sz shape).2.Recorded := by
  cases shape with
  | none => exact h.scalarBinary op hlhs hrhs sz
  | some s =>
    obtain ⟨h₁, hle₁, hx, hpairs₁⟩ := h.bindOperand [] hlhs (by simp)
    obtain ⟨h₂, hle₂, hy, hpairs₂⟩ := h₁.bindOperand _ (Nat.lt_of_lt_of_le hrhs hle₁) hpairs₁
    rw [applyBinary_eq]
    dsimp only
    generalize g.bindOperand [] lhs = x at *
    generalize x.2.2.bindOperand x.2.1 rhs = y at *
    have h₃ := h₂.scalarBinary op (Nat.lt_of_lt_of_le hx hle₂) hy sz
    refine h₃.compute none _ _ [lhs, rhs] (fun other hother => ?_) fun id hid => ?_
    · have := hshape s rfl other hother
      simp only [compute_nodes_size]
      omega
    · simp only [Op.mentions, Op.reads, OpKind.reads, OpKind.results, Body.reads, List.mem_append,
        List.mem_cons, List.mem_map, List.map_cons, List.map_nil, List.not_mem_nil, or_false,
        compute_fst, compute_nodes_size] at hid ⊢
      -- The operands, the pairs of the body, its result and the node of the operator itself.
      rcases hid with (((rfl | rfl) | (⟨p, hp, rfl⟩ | ⟨p, hp, rfl⟩) | rfl) | rfl) | rfl
      · omega
      · omega
      · have := hpairs₂ p hp
        omega
      · have := hpairs₂ p hp
        omega
      · exact Nat.le_succ _
      · exact Nat.le_refl _
      · exact Nat.le_refl _

theorem Recorded.applyReduction (h : g.Recorded) (op : BinOp) {arg : NodeId}
    (harg : arg.index < g.nodes.size) (dims : List Nat) (sz : ElemSize) (init : Literal) :
    (g.applyReduction op arg dims sz init).2.Recorded := by
  rw [applyReduction_eq]
  dsimp only
  have hx : ((g.addConstant init sz).2.placeholder arg).2.Recorded :=
    (h.addConstant init sz).addScalar _ _
  refine ((hx.addScalar none sz).scalarBinary op (by simp) (by simp) sz).compute none _ _ _
    (fun other hother => ?_) ?_
  · have hmem : Dim.node other ∈ withoutAxes dims (g.shape arg) := by
      cases hshape : withoutAxes dims (g.shape arg) <;>
        simp_all [reductionKind, Node.shape, Node.type, KernelType.shape]
    have := h.dims arg harg other ((withoutAxes_sublist dims _).subset hmem)
    simp
    omega
  · simp [Op.mentions, Op.reads, OpKind.reads, OpKind.results, Body.reads]
    omega

end

/-! ## Splicing -/

end Graph

namespace Relocation

variable (r : Relocation)

/-- What a copied dimension is computed by is the copy of a node, or comes with a symbol. -/
theorem node_of_dim {d : Dim} {id : NodeId} (h : r.dim d = .node id) :
    (∃ inner, d = .node inner ∧ id = r.node inner) ∨ ∃ name, r.symbol name = .node id := by
  cases d with
  | const n => cases h
  | sym name => exact Or.inr ⟨name, h⟩
  | node inner => exact Or.inl ⟨inner, rfl, (Dim.node.inj h).symm⟩

/-- What a copied operator refers to is the copy of a node, or comes with a symbol. -/
theorem mentions_opData {op : Op} {id : NodeId} (h : id ∈ (r.opData op).mentions) :
    (∃ inner ∈ op.mentions, id = r.node inner) ∨ ∃ name, r.symbol name = .node id := by
  have hcopy (hmem : id ∈ op.mentions.map r.node) :
      (∃ inner ∈ op.mentions, id = r.node inner) ∨ ∃ name, r.symbol name = .node id := by
    obtain ⟨inner, hinner, rfl⟩ := List.mem_map.mp hmem
    exact Or.inl ⟨inner, hinner, rfl⟩
  obtain ⟨kind, inputs, outputs⟩ := op
  cases kind with
  | slice indices sizes =>
    -- The sizes of a region are the only place where a symbol may turn into a node.
    simp only [opData, opKind, Op.mentions, Op.reads, OpKind.reads, OpKind.results, List.append_nil,
      List.flatMap_map, nodes_index, List.mem_append, List.mem_filterMap, List.mem_map] at h
    rcases h with (⟨inner, hinner, rfl⟩ | hnodes | ⟨_, ⟨d, hd, rfl⟩, hnode⟩) | ⟨inner, hinner, rfl⟩
    · exact hcopy (List.mem_map_of_mem (by simp [Op.mentions, Op.reads, hinner]))
    · obtain ⟨i, hi, hid⟩ := List.mem_flatMap.mp hnodes
      obtain ⟨inner, hinner, rfl⟩ := List.mem_map.mp hid
      refine hcopy (List.mem_map_of_mem ?_)
      simp only [Op.mentions, Op.reads, OpKind.reads, List.mem_append, List.mem_flatMap]
      exact Or.inl (Or.inl (Or.inr (Or.inl ⟨i, hi, hinner⟩)))
    · have hdim : r.dim d = .node id := by cases hrd : r.dim d <;> simp_all [Dim.node?]
      rcases r.node_of_dim hdim with ⟨inner, rfl, rfl⟩ | hsymbol
      · refine hcopy (List.mem_map_of_mem ?_)
        simp only [Op.mentions, Op.reads, OpKind.reads, List.mem_append, List.mem_filterMap]
        exact Or.inl (Or.inl (Or.inr (Or.inr ⟨_, hd, rfl⟩)))
      · exact Or.inr hsymbol
    · exact hcopy (List.mem_map_of_mem (by simp [Op.mentions, hinner]))
  | _ =>
    refine hcopy ?_
    simpa [opData, opKind, body, pairs, Op.mentions, Op.reads, OpKind.reads, OpKind.results,
      Body.reads, Function.comp_def] using h

theorem nodes_of_items (items : List Item) :
    (items.map r.item).filterMap Item.node? = (items.filterMap Item.node?).map r.node := by
  induction items with
  | nil => rfl
  | cons entry items ih => cases entry <;> simp [List.filterMap_cons, item, Item.node?, ih]

theorem ops_of_items (items : List Item) :
    (items.map r.item).filterMap Item.op? = (items.filterMap Item.op?).map r.op := by
  induction items with
  | nil => rfl
  | cons entry items ih => cases entry <;> simp [List.filterMap_cons, item, Item.op?, ih]

end Relocation

namespace Graph

variable {g other : Graph} (symbol : String → Dim)

theorem splice_readers (id : NodeId) : (g.splice other symbol).2.readers id = g.readers id ++
    (List.range other.ops.size).flatMap fun i =>
      List.replicate (((other.op ⟨i⟩).inputs.map (g.relocation symbol).node).count id)
        ((g.relocation symbol).op ⟨i⟩) := by
  have hold : (List.range g.ops.size).flatMap (fun i =>
      List.replicate (((g.splice other symbol).2.op ⟨i⟩).inputs.count id) (OpId.mk i)) =
        g.readers id := by
    refine List.flatMap_congr fun i hi => ?_
    rw [splice_op_of_lt g other symbol (List.mem_range.mp hi)]
  rw [readers, splice_ops_size, List.range_add, List.flatMap_append, hold, List.flatMap_map]
  congr 1
  refine List.flatMap_congr fun i hi => ?_
  have hplace : OpId.mk (g.ops.size + i) = (g.relocation symbol).op ⟨i⟩ := by
    simp [Relocation.op, relocation, Nat.add_comm]
  rw [hplace, splice_op_relocated g other symbol (List.mem_range.mp hi)]
  rfl

theorem splice_writer? (id : NodeId) : (g.splice other symbol).2.writer? id =
    ((((List.range other.ops.size).filter fun i =>
      id ∈ (other.op ⟨i⟩).outputs.map (g.relocation symbol).node).getLast?).map fun i =>
        (g.relocation symbol).op ⟨i⟩).or (g.writer? id) := by
  have hold : (List.range g.ops.size).filter
      (fun i => id ∈ ((g.splice other symbol).2.op ⟨i⟩).outputs) =
        (List.range g.ops.size).filter fun i => id ∈ (g.op ⟨i⟩).outputs := by
    refine List.filter_congr fun i hi => ?_
    rw [splice_op_of_lt g other symbol (List.mem_range.mp hi)]
  have hnew : ((List.range other.ops.size).map fun i => g.ops.size + i).filter
      (fun i => id ∈ ((g.splice other symbol).2.op ⟨i⟩).outputs) =
        ((List.range other.ops.size).filter fun i =>
          id ∈ (other.op ⟨i⟩).outputs.map (g.relocation symbol).node).map fun i => g.ops.size + i := by
    rw [List.filter_map]
    congr 1
    refine List.filter_congr fun i hi => ?_
    have hplace : OpId.mk (g.ops.size + i) = (g.relocation symbol).op ⟨i⟩ := by
      simp [Relocation.op, relocation, Nat.add_comm]
    rw [Function.comp_apply, hplace, splice_op_relocated g other symbol (List.mem_range.mp hi)]
    rfl
  rw [writer?, splice_ops_size, List.range_add, List.filter_append, hold, hnew,
    List.getLast?_append, List.getLast?_map, writer?]
  cases (List.filter _ (List.range other.ops.size)).getLast? with
  | none => simp
  | some i => simp [Relocation.op, relocation, Nat.add_comm]

/-- A copied operator refers to no node of the graph that it is put behind. -/
theorem not_mem_map_relocated {id : NodeId} (hid : id.index < g.nodes.size) (ids : List NodeId) :
    id ∉ ids.map (g.relocation symbol).node := by
  intro hmem
  obtain ⟨inner, -, rfl⟩ := List.mem_map.mp hmem
  simp only [Relocation.node, relocation] at hid
  omega

theorem splice_readers_of_lt {id : NodeId} (hid : id.index < g.nodes.size) :
    (g.splice other symbol).2.readers id = g.readers id := by
  rw [splice_readers, List.append_right_eq_self, List.flatMap_eq_nil_iff]
  intro i _
  rw [List.count_eq_zero.mpr (not_mem_map_relocated symbol hid _), List.replicate_zero]

theorem splice_writer?_of_lt {id : NodeId} (hid : id.index < g.nodes.size) :
    (g.splice other symbol).2.writer? id = g.writer? id := by
  have hnone : (List.range other.ops.size).filter (fun i =>
      id ∈ (other.op ⟨i⟩).outputs.map (g.relocation symbol).node) = [] := by
    rw [List.filter_eq_nil_iff]
    intro i _
    simpa using not_mem_map_relocated symbol hid _
  rw [splice_writer?, hnone]
  rfl

/-- The copy of a node is read by the copies of its readers. -/
theorem splice_readers_relocated (h : g.Recorded) (id : NodeId) :
    (g.splice other symbol).2.readers ((g.relocation symbol).node id) =
      (other.readers id).map (g.relocation symbol).op := by
  have hnew : g.nodes.size ≤ ((g.relocation symbol).node id).index := by
    simp [Relocation.node, relocation]
  rw [splice_readers, (h.fresh hnew).1, List.nil_append, readers, List.map_flatMap]
  refine List.flatMap_congr fun i _ => ?_
  rw [List.map_replicate,
    List.count_map_of_injective _ _ (fun _ _ heq => Relocation.node_inj _ heq)]

theorem splice_writer?_relocated (h : g.Recorded) (id : NodeId) :
    (g.splice other symbol).2.writer? ((g.relocation symbol).node id) =
      (other.writer? id).map (g.relocation symbol).op := by
  have hnew : g.nodes.size ≤ ((g.relocation symbol).node id).index := by
    simp [Relocation.node, relocation]
  have hmem (ids : List NodeId) :
      (g.relocation symbol).node id ∈ ids.map (g.relocation symbol).node ↔ id ∈ ids :=
    List.mem_map_of_injective fun _ _ heq => Relocation.node_inj _ heq
  rw [splice_writer?, (h.fresh hnew).2, Option.or_none, writer?, Option.map_map]
  simp only [hmem]
  rfl

/-- A copy of a graph with records is recorded, if its symbols stand for dimensions of this graph. -/
theorem Recorded.splice (h : g.Recorded) (h' : other.Recorded)
    (hsymbol : ∀ name id, symbol name = .node id → id.index < g.nodes.size) :
    (g.splice other symbol).2.Recorded where
  nodeItems := by
    rw [splice_nodes_size, List.range_add, List.map_append]
    simp only [Graph.splice, Array.toList_append, Array.toList_map, List.filterMap_append,
      Relocation.nodes_of_items, h.nodeItems, h'.nodeItems, List.map_map]
    congr 1
    refine List.map_congr_left fun i _ => ?_
    simp [Relocation.node, relocation, Nat.add_comm]
  opItems := by
    rw [splice_ops_size, List.range_add, List.map_append]
    simp only [Graph.splice, Array.toList_append, Array.toList_map, List.filterMap_append,
      Relocation.ops_of_items, h.opItems, h'.opItems, List.map_map]
    congr 1
    refine List.map_congr_left fun i _ => ?_
    simp [Relocation.op, relocation, Nat.add_comm]
  consumers id hid := by
    rcases splice_node_cases hid with hlt | ⟨inner, hinner, rfl⟩
    · rw [splice_node_of_lt g other symbol hlt, splice_readers_of_lt symbol hlt, h.consumers id hlt]
    · rw [splice_node_relocated g other symbol hinner, splice_readers_relocated symbol h,
        ← h'.consumers inner hinner]
      rfl
  producer id hid := by
    rcases splice_node_cases hid with hlt | ⟨inner, hinner, rfl⟩
    · rw [splice_node_of_lt g other symbol hlt, splice_writer?_of_lt symbol hlt, h.producer id hlt]
    · rw [splice_node_relocated g other symbol hinner, splice_writer?_relocated symbol h,
        ← h'.producer inner hinner]
      rfl
  mentions o ho id hid := by
    rw [splice_nodes_size]
    rcases splice_op_cases ho with hlt | ⟨inner, hinner, rfl⟩
    · rw [splice_op_of_lt g other symbol hlt] at hid
      have := h.mentions o hlt id hid
      omega
    · rw [splice_op_relocated g other symbol hinner] at hid
      -- A symbol may have become a node, which is then one of the outer graph.
      rcases (g.relocation symbol).mentions_opData hid with ⟨inner', hinner', rfl⟩ | ⟨name, hname⟩
      · have := h'.mentions inner hinner inner' hinner'
        simp only [Relocation.node, relocation]
        omega
      · have := hsymbol name id hname
        omega
  dims id hid other' hother := by
    rw [splice_nodes_size]
    rcases splice_node_cases hid with hlt | ⟨inner, hinner, rfl⟩
    · rw [shape, splice_node_of_lt g other symbol hlt] at hother
      have := h.dims id hlt other' hother
      omega
    · have hshape : (g.splice other symbol).2.shape ((g.relocation symbol).node inner) =
          (other.shape inner).map (g.relocation symbol).dim := by
        rw [shape, Node.shape, splice_node_relocated g other symbol hinner,
          Relocation.nodeData_type, Relocation.shape_type]
        rfl
      rw [hshape] at hother
      obtain ⟨d, hd, hnode⟩ := List.mem_map.mp hother
      rcases (g.relocation symbol).node_of_dim hnode with ⟨inner', rfl, rfl⟩ | ⟨name, hname⟩
      · have := h'.dims inner hinner inner' hd
        simp only [Relocation.node, relocation]
        omega
      · have := hsymbol name other' hname
        omega

/-! ## Any sequence of additions -/

/-- The graphs that come of the empty one by additions that refer to what is there. -/
inductive Reached : Graph → Prop
  | empty : Reached .empty
  | scalar {g : Graph} (h : Reached g) (name : Option String) (sz : ElemSize) :
      Reached (g.addScalar name sz).2
  | constant {g : Graph} (h : Reached g) (v : Literal) (sz : ElemSize) :
      Reached (g.addConstant v sz).2
  | tensor {g : Graph} (h : Reached g) (name : Option String) (sz : ElemSize) (shape : Shape)
      (hshape : ∀ id, .node id ∈ shape → id.index < g.nodes.size) :
      Reached (g.addTensor name sz shape).2
  | ofType {g : Graph} (h : Reached g) (name : Option String) (ty : KernelType)
      (hshape : ∀ id, .node id ∈ ty.shape → id.index < g.nodes.size) :
      Reached (g.addOfType name ty).2
  | op {g : Graph} (h : Reached g) (kind : OpKind) (inputs outputs : List NodeId)
      (hop : ∀ id ∈ Op.mentions ⟨kind, inputs, outputs⟩, id.index < g.nodes.size) :
      Reached (g.addOp kind inputs outputs).2
  | unary {g : Graph} (h : Reached g) (op : UnOp) (arg : NodeId) (sz : ElemSize)
      (harg : arg.index < g.nodes.size) : Reached (g.applyUnary op arg sz).2
  | binary {g : Graph} (h : Reached g) (op : BinOp) (lhs rhs : NodeId) (sz : ElemSize)
      (shape : Option Shape) (hlhs : lhs.index < g.nodes.size) (hrhs : rhs.index < g.nodes.size)
      (hshape : ∀ s, shape = some s → ∀ id, .node id ∈ s → id.index < g.nodes.size) :
      Reached (g.applyBinary op lhs rhs sz shape).2
  | reduction {g : Graph} (h : Reached g) (op : BinOp) (arg : NodeId) (axes : List Nat)
      (sz : ElemSize) (init : Literal) (harg : arg.index < g.nodes.size) :
      Reached (g.applyReduction op arg axes sz init).2
  | splice {g other : Graph} (h : Reached g) (h' : Reached other) (symbol : String → Dim)
      (hsymbol : ∀ name id, symbol name = .node id → id.index < g.nodes.size) :
      Reached (g.splice other symbol).2

theorem Reached.recorded {g : Graph} (h : g.Reached) : g.Recorded := by
  induction h with
  | empty => exact .empty
  | scalar _ name sz ih => exact ih.addScalar name sz
  | constant _ v sz ih => exact ih.addConstant v sz
  | tensor _ name sz shape hshape ih => exact ih.addTensor name sz shape hshape
  | ofType _ name ty hshape ih => exact ih.addOfType name ty hshape
  | op _ kind inputs outputs hop ih => exact ih.addOp kind inputs outputs hop
  | unary _ op arg sz harg ih => exact ih.applyUnary op harg sz
  | binary _ op lhs rhs sz shape hlhs hrhs hshape ih => exact ih.applyBinary op hlhs hrhs sz hshape
  | reduction _ op arg axes sz init harg ih => exact ih.applyReduction op harg axes sz init
  | splice _ _ symbol hsymbol ih ih' => exact ih.splice symbol ih' hsymbol

/--
The records of every graph that can be reached agree.  A copy that is put behind it leaves it as it
is: the copy has every place of the other graph moved by as many nodes and operators as there were,
and refers to no node of this graph but those that symbols stand for.
-/
theorem Reached.records_agree {g : Graph} (h : g.Reached) :
    g.Recorded ∧ ∀ {other : Graph}, other.Reached → ∀ symbol : String → Dim,
      (∀ name id, symbol name = .node id → id.index < g.nodes.size) →
      let r := g.relocation symbol
      let g' := (g.splice other symbol).2
      g'.Recorded ∧ g'.nodes.size = g.nodes.size + other.nodes.size ∧
        g'.ops.size = g.ops.size + other.ops.size ∧
        g'.items = g.items ++ other.items.map r.item ∧
        (g.splice other symbol).1 = (List.range other.nodes.size).map (fun i => r.node ⟨i⟩) ∧
        (∀ id : NodeId, id.index < g.nodes.size → g'.node id = g.node id) ∧
        (∀ o : OpId, o.index < g.ops.size → g'.op o = g.op o) ∧
        (∀ id : NodeId, id.index < other.nodes.size →
          g'.node (r.node id) = r.nodeData (other.node id)) ∧
        ∀ o : OpId, o.index < other.ops.size → g'.op (r.op o) = r.opData (other.op o) ∧
          ∀ id ∈ (g'.op (r.op o)).mentions, (∃ inner ∈ (other.op o).mentions, id = r.node inner) ∨
            ∃ name, symbol name = .node id := by
  refine ⟨h.recorded, fun {other} hother symbol hsymbol => ?_⟩
  refine ⟨h.recorded.splice symbol hother.recorded hsymbol, splice_nodes_size g other symbol,
    splice_ops_size g other symbol, rfl, rfl, fun id => splice_node_of_lt g other symbol,
    fun o => splice_op_of_lt g other symbol, fun id => splice_node_relocated g other symbol,
    fun o ho => ⟨splice_op_relocated g other symbol ho, fun id hid => ?_⟩⟩
  rw [splice_op_relocated g other symbol ho] at hid
  exact (g.relocation symbol).mentions_opData hid

/-- A vector that is added to itself. -/
def doubledVector : Graph :=
  ((Graph.empty.addTensor (some "x") .i64 [.sym "M"]).2.applyBinary .add ⟨0⟩ ⟨0⟩ .i64
    (some [.sym "M"])).2

theorem reached_doubledVector : doubledVector.Reached := by
  refine .binary (.tensor .empty _ _ _ ?_) .add ⟨0⟩ ⟨0⟩ .i64 (some [.sym "M"]) ?_ ?_ ?_
  · simp
  · decide
  · decide
  · simp

theorem records_agree_doubledVector : doubledVector.Reached ∧ doubledVector.Recorded ∧
    (doubledVector.node ⟨0⟩).consumers = [⟨1⟩, ⟨1⟩] ∧
      ((doubledVector.splice doubledVector fun _ => .node ⟨0⟩).2.node ⟨4⟩).consumers =
        [⟨3⟩, ⟨3⟩] := by
  have hsymbol : ∀ (name : String) id, Dim.node ⟨0⟩ = .node id →
      id.index < doubledVector.nodes.size := by
    rintro - id hid
    obtain rfl := Dim.node.inj hid
    decide
  obtain ⟨hrecorded, hsplice⟩ := reached_doubledVector.records_agree
  have hcopies := (hsplice reached_doubledVector (fun _ => .node ⟨0⟩) hsymbol).2.2.2.2.2.2.2.1
  refine ⟨reached_doubledVector, hrecorded, by decide, ?_⟩
  exact (congrArg Node.consumers (hcopies ⟨0⟩ (by decide))).trans (by decide)

end Graph

end TensorKernel
