import TensorKernel.Proofs.Graph.Bounded
import TensorKernel.Proofs.Graph.Reduction

/-!
# What computes a node

Which nodes of a graph are computed is settled by what they are: no constant is computed, and a node
that nothing computes is a scalar unless the graph is given it.  `Graph.Settles` is a step between
graphs that keeps this, whatever the graph is given, that takes no operator away from a node, and
that adds no constant dimension but sizes.
-/

namespace TensorKernel

/-- An entry that has further nodes, which are still to be computed. -/
def Entry.awaiting (e : Entry) (waiting : NodeId → Prop) : Entry :=
  { e with node := fun id => e.node id ∨ waiting id }

namespace Graph

/--
No constant is computed, and what nothing computes is a scalar or is given.  What is given, and what
takes a declared result, is no constant.  What computes a node is in the graph, and every reduction is
as a call adds it.
-/
structure Settled (g : Graph) (e : Entry) : Prop where
  known : ∀ {id}, e.node id ∨ e.result id →
    id.index < g.nodes.size ∧ (g.node id).constant? = none
  computed : ∀ {id}, (g.node id).producer ≠ none → (g.node id).constant? = none
  idle : ∀ {id : NodeId}, id.index < g.nodes.size → (g.node id).producer = none →
    g.isScalar id = true ∨ e.node id ∨ e.result id
  produced : ∀ {id o}, (g.node id).producer = some o → o.index < g.ops.size
  reductions : ∀ {dst o axes body init}, (g.node dst).producer = some o →
    (g.op o).kind = .reduction axes body init → ∃ b arg inner p,
      g.Reduces b axes arg inner dst o p ∧ ¬ (e.node inner ∨ e.result inner)

/--
A step that keeps what is settled, leaves every computed node computed and every constant dimension
a size.
-/
structure Settles (g g' : Graph) : Prop where
  settled : ∀ {e}, g.Settled e → g'.Settled e
  kept : ∀ {id}, (g.node id).producer ≠ none → (g'.node id).producer ≠ none
  bounded : g.Bounded → g'.Bounded

theorem Settles.refl (g : Graph) : g.Settles g := ⟨id, id, id⟩

theorem Settles.trans {g₁ g₂ g₃ : Graph} (h : g₁.Settles g₂) (h' : g₂.Settles g₃) :
    g₁.Settles g₃ :=
  ⟨fun hs => h'.settled (h.settled hs), fun hp => h'.kept (h.kept hp),
    fun hb => h'.bounded (h.bounded hb)⟩

theorem empty_settled : empty.Settled ⟨fun _ => False, fun _ => False, fun _ => False⟩ where
  known h := h.elim False.elim False.elim
  computed _ := rfl
  idle h := absurd h (Nat.not_lt_zero _)
  produced h := by cases h
  reductions h := by cases h

variable {g : Graph}

/-! ## Nodes and operators -/

/-- Whether a node is a constant depends on its kind. -/
theorem constant?_eq_none_of_kind {node : Node} (h : ∀ v sz, node.kind ≠ .constant v sz) :
    node.constant? = none := by
  unfold Node.constant?
  split
  · next hkind => exact absurd hkind (h _ _)
  · rfl

theorem isScalar_congr {node node' : Node} (h : node'.kind = node.kind) :
    node'.isScalar = node.isScalar := by
  simp only [Node.isScalar, Node.type, h]

/-- It does not matter in which way a node is given or set apart. -/
theorem Settled.retarget {e e' : Entry} (h : g.Settled e)
    (hnew : ∀ id, e'.node id ∨ e'.result id → e.node id ∨ e.result id)
    (hkeep : ∀ id, e.node id ∨ e.result id → e'.node id ∨ e'.result id) : g.Settled e' where
  known hid := h.known (hnew _ hid)
  computed := h.computed
  idle hlt hid := (h.idle hlt hid).imp_right (hkeep _)
  produced := h.produced
  reductions hproducer hkind := by
    obtain ⟨b, arg, inner, p, hreduces, hinner⟩ := h.reductions hproducer hkind
    exact ⟨b, arg, inner, p, hreduces, fun hid => hinner (hnew _ hid)⟩

/-- A new node may be anything as long as it is given or a scalar. -/
theorem Settled.addNode {e : Entry} (h : g.Settled e) (e' : Entry) (name : Option String)
    (kind : NodeKind)
    (hnode : ∀ id, e'.node id ∨ e'.result id →
      e.node id ∨ e.result id ∨ id = ⟨g.nodes.size⟩ ∧ ∀ v sz, kind ≠ .constant v sz)
    (hkeep : ∀ id, e.node id ∨ e.result id → e'.node id ∨ e'.result id)
    (hnew : Node.isScalar ⟨name, kind, none, []⟩ = true ∨
      e'.node ⟨g.nodes.size⟩ ∨ e'.result ⟨g.nodes.size⟩) :
    (g.addNode name kind).2.Settled e' where
  known {id} hid := by
    rw [addNode_nodes_size, addNode_node]
    -- Whatever is given was given before, or is the new node, which is no constant.
    rcases hnode id hid with h' | h' | ⟨rfl, hkind⟩
    · obtain ⟨hlt, hc⟩ := h.known (Or.inl h')
      rw [if_neg (Nat.ne_of_lt hlt)]
      exact ⟨Nat.lt_succ_of_lt hlt, hc⟩
    · obtain ⟨hlt, hc⟩ := h.known (Or.inr h')
      rw [if_neg (Nat.ne_of_lt hlt)]
      exact ⟨Nat.lt_succ_of_lt hlt, hc⟩
    · rw [if_pos rfl]
      exact ⟨Nat.lt_succ_self _, constant?_eq_none_of_kind hkind⟩
  computed {id} hid := by
    rw [addNode_node] at hid ⊢
    split at hid
    · exact absurd rfl hid
    · next hne =>
      rw [if_neg hne]
      exact h.computed hid
  idle {id} hlt hid := by
    rw [addNode_nodes_size] at hlt
    rw [addNode_node] at hid
    rw [isScalar, addNode_node]
    by_cases heq : id.index = g.nodes.size
    · rw [if_pos heq]
      obtain rfl : id = ⟨g.nodes.size⟩ := by cases id; simp_all
      exact hnew
    · rw [if_neg heq] at hid ⊢
      exact (h.idle (by omega) hid).imp_right (hkeep id)
  produced hproducer := by
    rw [addNode_node] at hproducer
    split at hproducer
    · cases hproducer
    · exact h.produced hproducer
  reductions {dst o axes body init} hproducer hkind := by
    rw [addNode_node] at hproducer
    split at hproducer
    · cases hproducer
    · obtain ⟨b, arg, inner, p, hreduces, hinner⟩ := h.reductions hproducer hkind
      refine ⟨b, arg, inner, p, hreduces.addNode name kind, fun hid => ?_⟩
      rcases hnode inner hid with h' | h' | ⟨rfl, -⟩
      · exact hinner (Or.inl h')
      · exact hinner (Or.inr h')
      · exact absurd hreduces.inner_lt (Nat.lt_irrefl _)

theorem addNode_kept (name : Option String) (kind : NodeKind) {id : NodeId}
    (h : (g.node id).producer ≠ none) : ((g.addNode name kind).2.node id).producer ≠ none := by
  rw [addNode_node, if_neg]
  · exact h
  · intro heq
    rw [node_of_size_le heq.ge] at h
    exact h rfl

theorem addOp_kept (kind : OpKind) (inputs : List NodeId) (dst : NodeId) {id : NodeId}
    (h : (g.node id).producer ≠ none) :
    ((g.addOp kind inputs [dst]).2.node id).producer ≠ none := by
  rw [addOp_producer]
  split
  · exact Option.some_ne_none _
  · exact h

/-- Adding a scalar settles. -/
theorem settles_addScalar (g : Graph) (name : Option String) (sz : ElemSize) :
    g.Settles (g.addScalar name sz).2 where
  settled {e} h := h.addNode e name _ (fun _ h => h.imp_right Or.inl) (fun _ => id) (Or.inl rfl)
  kept := addNode_kept name _
  bounded h := h.addNode name (KernelType.bounded_scalar sz)

/-- Adding a constant settles. -/
theorem settles_addConstant (g : Graph) (value : Literal) (sz : ElemSize) :
    g.Settles (g.addConstant value sz).2 where
  settled {e} h := h.addNode e none _ (fun _ h => h.imp_right Or.inl) (fun _ => id) (Or.inl rfl)
  kept := addNode_kept none _
  bounded h := h.addNode none (KernelType.bounded_scalar sz)

/-- Computing a node that is no constant takes it off the list of nodes that wait. -/
theorem Settled.addOp {e e' : Entry} {kind : OpKind} {inputs : List NodeId} {dst : NodeId}
    (h : g.Settled e) (hdst : e.node dst ∨ e.result dst)
    (hkind : ∀ {axes body init}, kind = .reduction axes body init → ∃ b arg inner p,
      (g.addOp kind inputs [dst]).2.Reduces b axes arg inner dst ⟨g.ops.size⟩ p ∧
        ¬ (e'.node inner ∨ e'.result inner))
    (hnode : ∀ id, e'.node id ∨ e'.result id → e.node id ∨ e.result id)
    (hkeep : ∀ id, e.node id ∨ e.result id → e'.node id ∨ e'.result id ∨ id = dst) :
    (g.addOp kind inputs [dst]).2.Settled e' where
  known {id} hid := by
    obtain ⟨hlt, hc⟩ := h.known (hnode id hid)
    exact ⟨by rwa [addOp_nodes_size], (constant?_congr (addOp_kind ..)).trans hc⟩
  computed {id} hid := by
    rw [constant?_congr (addOp_kind ..)]
    rw [addOp_producer] at hid
    by_cases heq : id ∈ [dst] ∧ id.index < g.nodes.size
    · rw [List.mem_singleton.mp heq.1]
      exact (h.known hdst).2
    · rw [if_neg heq] at hid
      exact h.computed hid
  idle {id} hlt hid := by
    rw [addOp_nodes_size] at hlt
    rw [addOp_producer] at hid
    have hscalar : (g.addOp kind inputs [dst]).2.isScalar id = g.isScalar id :=
      isScalar_congr (addOp_kind ..)
    rw [hscalar]
    split at hid
    · cases hid
    · next hne =>
      refine (h.idle hlt hid).imp_right fun hgiven => ?_
      rcases hkeep id hgiven with h' | h' | rfl
      · exact Or.inl h'
      · exact Or.inr h'
      · exact absurd ⟨List.mem_singleton_self _, hlt⟩ hne
  produced hproducer := by
    rw [addOp_ops_size]
    rw [addOp_producer] at hproducer
    split at hproducer
    · obtain rfl := Option.some.inj hproducer
      exact Nat.lt_succ_self _
    · exact Nat.lt_succ_of_lt (h.produced hproducer)
  reductions {dst' o axes body init} hproducer hop := by
    rw [addOp_producer] at hproducer
    split at hproducer
    · next hnew =>
      obtain rfl := List.mem_singleton.mp hnew.1
      obtain rfl := Option.some.inj hproducer
      rw [addOp_op, if_pos rfl] at hop
      exact hkind hop
    · next hold =>
      -- Other nodes keep their producers, so their reductions are what they were.
      have hother (id : NodeId) (hne : id ≠ dst) :
          ((g.addOp kind inputs [dst]).2.node id).producer = (g.node id).producer := by
        rw [addOp_producer, if_neg fun hid => hne (List.mem_singleton.mp hid.1)]
      have hops (o : OpId) (ho : o.index < g.ops.size) :
          (g.addOp kind inputs [dst]).2.op o = g.op o := by
        rw [addOp_op, if_neg (Nat.ne_of_lt ho)]
      rw [hops o (h.produced hproducer)] at hop
      obtain ⟨b, arg, inner, p, hreduces, hinner⟩ := h.reductions hproducer hop
      refine ⟨b, arg, inner, p, hreduces.congr (by simp) (fun _ _ => addOp_kind ..) hops
        (hother _ ?_) (hother _ ?_), fun hid => hinner (hnode inner hid)⟩
      · exact fun heq => hold ⟨List.mem_singleton.mpr heq, lt_of_producer hproducer⟩
      · rintro rfl
        exact hinner hdst

/-- Computing a new node keeps what is settled. -/
theorem Settled.compute {e : Entry} (h : g.Settled e) (name : Option String) {kind : NodeKind}
    {op : OpKind} {inputs : List NodeId} (hkind : ∀ v sz, kind ≠ .constant v sz)
    (hop : ∀ {axes body init}, op = .reduction axes body init → ∃ b arg inner p,
      (g.compute name kind op inputs).2.Reduces b axes arg inner ⟨g.nodes.size⟩ ⟨g.ops.size⟩ p ∧
        ¬ (e.node inner ∨ e.result inner)) :
    (g.compute name kind op inputs).2.Settled e := by
  have hnode := h.addNode (e.awaiting (· = ⟨g.nodes.size⟩)) name kind
    (fun id hid => by
      rcases hid with (hid | rfl) | hid
      · exact Or.inl hid
      · exact Or.inr (Or.inr ⟨rfl, hkind⟩)
      · exact Or.inr (Or.inl hid))
    (fun id hid => hid.imp_left Or.inl) (Or.inr (Or.inl (Or.inr rfl)))
  refine hnode.addOp (Or.inl (Or.inr rfl)) hop (fun id hid => hid.imp_left Or.inl) ?_
  rintro id ((hid | rfl) | hid)
  · exact Or.inl hid
  · exact Or.inr (Or.inr rfl)
  · exact Or.inr (Or.inl hid)

/-- Computing a new node settles, unless it is by a reduction. -/
theorem settles_compute (name : Option String) (kind : NodeKind) (op : OpKind)
    (inputs : List NodeId) (hkind : ∀ v sz, kind ≠ .constant v sz)
    (hop : ∀ axes body init, op ≠ .reduction axes body init)
    (hbounded : (Node.type ⟨name, kind, none, []⟩).Bounded) :
    g.Settles (g.compute name kind op inputs).2 where
  settled h := h.compute name hkind fun hop' => absurd hop' (hop _ _ _)
  kept h := addOp_kept _ _ _ (addNode_kept _ _ h)
  bounded h := h.compute name op inputs hbounded

/-! ## Operators of expressions -/

theorem settles_scalarUnary (g : Graph) (op : UnOp) (arg : NodeId) (sz : ElemSize) :
    g.Settles (g.applyScalarUnary op arg sz).2 :=
  settles_compute none _ (.unary op) [arg] nofun nofun (KernelType.bounded_scalar sz)

theorem settles_unary (hg : g.Bounded) (op : UnOp) (arg : NodeId) (sz : ElemSize) :
    g.Settles (g.applyUnary op arg sz).2 := by
  unfold applyUnary
  split
  · exact settles_scalarUnary g op arg sz
  · exact ((settles_addScalar g _ _).trans (settles_scalarUnary _ op _ sz)).trans
      (settles_compute none (.tensor sz (g.shape arg)) _ [arg] nofun nofun (hg arg))

theorem settles_scalarBinary (g : Graph) (op : BinOp) (lhs rhs : NodeId) (sz : ElemSize) :
    g.Settles (g.applyScalarBinary op lhs rhs sz).2 :=
  settles_compute none _ (.binary op) [lhs, rhs] nofun nofun (KernelType.bounded_scalar sz)

theorem settles_bindOperand (g : Graph) (inputs : List (NodeId × NodeId)) (id : NodeId) :
    g.Settles (g.bindOperand inputs id).2.2 := by
  unfold bindOperand
  split
  · exact .refl g
  · split
    · exact .refl g
    · exact settles_addScalar g _ _

theorem settles_binary (g : Graph) (op : BinOp) (lhs rhs : NodeId) (sz : ElemSize)
    {shape : Option Shape} (hshape : ∀ s, shape = some s → ∀ d ∈ s, d.Bounded) :
    g.Settles (g.applyBinary op lhs rhs sz shape).2 := by
  cases shape with
  | none => exact settles_scalarBinary g op lhs rhs sz
  | some shape =>
    exact (((settles_bindOperand g [] lhs).trans (settles_bindOperand _ _ rhs)).trans
      (settles_scalarBinary _ op _ _ sz)).trans
      (settles_compute none (.tensor sz shape) _ [lhs, rhs] nofun nofun (hshape shape rfl))

/-- The body of a reduction is built first, and then its result is computed. -/
theorem exists_applyReduction (hg : g.Bounded) (b : BinOp) (arg : NodeId) (axes : List Nat)
    (sz : ElemSize) (init : Literal) : ∃ g₁ kind op inputs, g.Settles g₁ ∧
      g.applyReduction b arg axes sz init = g₁.compute none kind op inputs ∧
      (∀ v sz, kind ≠ .constant v sz) ∧ (Node.type ⟨none, kind, none, []⟩).Bounded ∧
      (∃ body init, op = .reduction axes body init) ∧ g₁.nodes.size = g.nodes.size + 4 ∧
      g₁.ops.size = g.ops.size + 1 := by
  have hbody (name : Option String) (size : ElemSize) (x acc : NodeId) :
      g.Settles ((((g.addConstant init sz).2.addScalar name size).2.addScalar none sz).2
        |>.applyScalarBinary b x acc sz).2 :=
    (((settles_addConstant g init sz).trans (settles_addScalar _ name size)).trans
      (settles_addScalar _ none sz)).trans (settles_scalarBinary _ b x acc sz)
  have hrest : ∀ d ∈ withoutAxes axes (g.shape arg), d.Bounded :=
    fun d hd => hg arg d ((withoutAxes_sublist axes _).subset hd)
  unfold applyReduction
  cases hleft : withoutAxes axes (g.shape arg) with
  | nil =>
    exact ⟨_, .scalar sz, _, _, hbody _ _ _ _, rfl, (fun _ _ h => by cases h), KernelType.bounded_scalar sz,
      ⟨_, _, rfl⟩, by simp [applyScalarBinary, addConstant, addScalar], by
        simp [applyScalarBinary, addConstant, addScalar]⟩
  | cons d rest =>
    exact ⟨_, .tensor sz (d :: rest), _, _, hbody _ _ _ _, rfl, (fun _ _ h => by cases h), hleft ▸ hrest,
      ⟨_, _, rfl⟩, by simp [applyScalarBinary, addConstant, addScalar], by
        simp [applyScalarBinary, addConstant, addScalar]⟩

theorem settles_reduction (hg : g.Bounded) {b : BinOp} {arg : NodeId}
    (harg : arg.index < g.nodes.size) (axes : List Nat) {v : Literal}
    (hneutral : b.neutralElement? (b.accumulatorSize (g.elemSize arg)) = some v) :
    g.Settles (g.applyReduction b arg axes (b.accumulatorSize (g.elemSize arg)) v).2 := by
  have hreduces := g.reduces_applyReduction harg axes hneutral
  obtain ⟨g₁, kind, op, inputs, hbody, heq, hkind, hbounded, ⟨body, init, rfl⟩, hnodes, hops⟩ :=
    exists_applyReduction hg b arg axes (b.accumulatorSize (g.elemSize arg)) v
  rw [heq] at hreduces ⊢
  refine ⟨fun h => (hbody.settled h).compute none hkind fun hop => ?_,
    fun h => addOp_kept _ _ _ (addNode_kept _ _ (hbody.kept h)),
    fun h => (hbody.bounded h).compute none _ inputs hbounded⟩
  obtain ⟨rfl, -, -⟩ := OpKind.reduction.inj hop
  refine ⟨b, arg, ⟨g.nodes.size + 3⟩, ⟨g.ops.size⟩, ?_, fun hgiven => ?_⟩
  · rw [hnodes, hops]
    exact hreduces
  · exact absurd (h.known hgiven).1 (by simp)

/-! ## Copies of other graphs -/

/-- Putting a graph behind another one leaves what the inner graph was given to be computed. -/
theorem Settled.splice {h : Graph} {e e' : Entry} (hg : g.Settled e) (hh : h.Settled e')
    (symbol : String → Dim) :
    (g.splice h symbol).2.Settled (e.awaiting fun id =>
      ∃ inner, (e'.node inner ∨ e'.result inner) ∧ id = (g.relocation symbol).node inner) where
  known {id} hid := by
    rw [splice_nodes_size]
    have houter : e.node id ∨ e.result id → id.index < g.nodes.size + h.nodes.size ∧
        ((g.splice h symbol).2.node id).constant? = none := fun hid => by
      obtain ⟨hlt, hc⟩ := hg.known hid
      rw [splice_node_of_lt g h symbol hlt]
      exact ⟨Nat.lt_add_right _ hlt, hc⟩
    rcases hid with (hid | ⟨inner, hinner, rfl⟩) | hid
    · exact houter (Or.inl hid)
    · obtain ⟨hlt, hc⟩ := hh.known hinner
      rw [splice_node_relocated g h symbol hlt]
      refine ⟨?_, (Relocation.nodeData_constant? _ _).trans hc⟩
      simp only [Relocation.node, relocation]
      omega
    · exact houter (Or.inr hid)
  computed {id} hid := by
    obtain ⟨o, ho⟩ := Option.ne_none_iff_exists'.mp hid
    rcases splice_node_cases (lt_of_producer ho) with hlt | ⟨inner, hinner, rfl⟩
    · rw [splice_node_of_lt g h symbol hlt] at hid ⊢
      exact hg.computed hid
    · rw [splice_node_relocated g h symbol hinner] at hid ⊢
      rw [Relocation.nodeData_constant?]
      exact hh.computed fun hnone => hid (by rw [Relocation.nodeData_producer, hnone]; rfl)
  idle {id} hsize hid := by
    rcases splice_node_cases hsize with hlt | ⟨inner, hinner, rfl⟩
    · rw [isScalar, splice_node_of_lt g h symbol hlt] at *
      exact (hg.idle hlt hid).imp_right fun hgiven => hgiven.imp_left Or.inl
    · rw [isScalar, splice_node_relocated g h symbol hinner] at *
      have hnone : (h.node inner).producer = none := by
        simpa using hid
      rcases hh.idle hinner hnone with hscalar | hgiven
      · left
        rw [Node.isScalar, Relocation.nodeData_type, Relocation.isScalar_type]
        exact hscalar
      · exact Or.inr (Or.inl (Or.inr ⟨inner, hgiven, rfl⟩))
  produced hproducer := by
    rw [splice_ops_size]
    rcases producer_splice hproducer with houter | ⟨inner, o', ho', rfl, rfl⟩
    · exact Nat.lt_add_right _ (hg.produced houter)
    · rw [Nat.add_comm]
      exact Nat.add_lt_add_right (hh.produced ho') _
  reductions hproducer hkind := by
    rcases producer_splice hproducer with houter | ⟨dst, o', ho', rfl, rfl⟩
    · rw [splice_op_of_lt g h symbol (hg.produced houter)] at hkind
      obtain ⟨b, arg, inner, p, hreduces, hinner⟩ := hg.reductions houter hkind
      have hext := splice_extends g h symbol
      refine ⟨b, arg, inner, p, hreduces.congr hext.nodes_le hext.kind_eq hext.op_eq
        (hext.producer_eq _ (lt_of_producer houter)) (hext.producer_eq _ hreduces.inner_lt), ?_⟩
      -- Nothing in the outer graph is the copy of a node.
      rintro ((hid | ⟨other, -, rfl⟩) | hid)
      · exact hinner (Or.inl hid)
      · have hlt := hreduces.inner_lt
        simp only [Relocation.node, relocation] at hlt
        omega
      · exact hinner (Or.inr hid)
    · rw [splice_op_relocated g h symbol (hh.produced ho')] at hkind
      obtain ⟨body', init', hkind'⟩ := Relocation.opKind_eq_reduction hkind
      obtain ⟨b, arg, inner, p, hreduces, hinner⟩ := hh.reductions ho' hkind'
      have hnot : ¬ ((g.relocation symbol).node inner).index < g.nodes.size := by
        simp [Relocation.node, relocation]
      refine ⟨b, _, _, _, hreduces.relocated g symbol, ?_⟩
      rintro ((hid | ⟨other, hother, heq⟩) | hid)
      · exact hnot (hg.known (Or.inl hid)).1
      · exact hinner (Relocation.node_inj _ heq ▸ hother)
      · exact hnot (hg.known (Or.inr hid)).1

end Graph

end TensorKernel
