import TensorKernel.Proofs.Broadcast
import TensorKernel.Proofs.Graph.Bodies

/-!
# Shapes of what is computed element by element

A finished graph only says of an operator on elements that its operands can be read along the axes
of its result.  While it was built more was known: the result has the very shape that the operands
broadcast to.  `Graph.Combined` is kept as an invariant, through calls as well, where symbols become
other dimensions and the shapes are not combined anew.
-/

namespace TensorKernel

namespace Graph

/-- What is computed element by element has the shape that the operands broadcast to. -/
def Combines (g : Graph) (op : Op) : Prop :=
  ∀ body, op.kind = .elementwise body → ∃ dst, op.outputs = [dst] ∧ dst.index < g.nodes.size ∧
    (∀ id ∈ op.inputs, id.index < g.nodes.size) ∧
    Combination.chain (op.inputs.map g.shape) (some []) = some (g.shape dst)

/-- Every operator on elements gives the shape that its operands broadcast to. -/
def Combined (g : Graph) : Prop :=
  ∀ o, g.Combines (g.op o)

variable {g g' : Graph}

theorem combines_of_ne {op : Op} (h : ∀ body, op.kind ≠ .elementwise body) : g.Combines op :=
  fun body hkind => absurd hkind (h body)

/-- Whether shapes are combined is seen at the shapes of the nodes that are there. -/
theorem Combines.congr {op : Op} (h : g.Combines op) (hsize : g.nodes.size ≤ g'.nodes.size)
    (hshape : ∀ id : NodeId, id.index < g.nodes.size → g'.shape id = g.shape id) :
    g'.Combines op := by
  intro body hkind
  obtain ⟨dst, houtputs, hdst, hinputs, hcombined⟩ := h body hkind
  have hsame : op.inputs.map g'.shape = op.inputs.map g.shape :=
    List.map_congr_left fun id hid => hshape id (hinputs id hid)
  refine ⟨dst, houtputs, Nat.lt_of_lt_of_le hdst hsize,
    fun id hid => Nat.lt_of_lt_of_le (hinputs id hid) hsize, ?_⟩
  rw [hsame, hshape dst hdst, hcombined]

/-- The operators of a larger graph are those that were there and new ones. -/
theorem Combined.extend (h : g.Combined) (hext : g.Extends g')
    (hnew : ∀ o : OpId, g.ops.size ≤ o.index → o.index < g'.ops.size → g'.Combines (g'.op o)) :
    g'.Combined := by
  intro o
  by_cases hold : o.index < g.ops.size
  · rw [hext.op_eq o hold]
    exact (h o).congr hext.nodes_le fun _ => hext.shape_eq
  · by_cases hlt : o.index < g'.ops.size
    · exact hnew o (Nat.le_of_not_lt hold) hlt
    · rw [op_of_size_le (Nat.le_of_not_lt hlt)]
      exact combines_of_ne fun _ h => by cases h

theorem extends_bindOperand (g : Graph) (inputs : List (NodeId × NodeId)) (id : NodeId) :
    g.Extends (g.bindOperand inputs id).2.2 := by
  unfold bindOperand
  split
  · exact .refl g
  · split
    · exact .refl g
    · exact (Extends.refl g).addNode _ _

/-- A copy of a node has the shape of the node with other dimensions in it. -/
theorem Spliced.shape {inner : Graph} {r : Relocation} {copied : List (NodeId × NodeId)}
    (hs : g.Spliced inner r copied g') {id : NodeId} (hid : id.index < inner.nodes.size) :
    g'.shape (r.node id) = (inner.shape id).map r.dim := by
  rw [Graph.shape, Graph.shape, Node.shape, Node.shape, ← Relocation.shape_type]
  simp only [Node.type, hs.kind hid]
  cases (inner.node id).kind <;> rfl

/-! ## Single nodes -/

theorem combined_of_ops (hops : g.ops.size = 0) : g.Combined := by
  intro o
  rw [op_of_size_le (by omega)]
  exact combines_of_ne fun _ h => by cases h

namespace Combined

variable (h : g.Combined)
include h

theorem addNode (name : Option String) (kind : NodeKind) : (g.addNode name kind).2.Combined :=
  h.extend ((Extends.refl g).addNode name kind) fun _ hge hlt => absurd hlt (Nat.not_lt.mpr hge)

/-- An operator that is not one on elements may compute a node that is there. -/
theorem addOp {kind : OpKind} (hkind : ∀ body, kind ≠ .elementwise body)
    (inputs outputs : List NodeId) : (g.addOp kind inputs outputs).2.Combined := by
  intro o
  rw [addOp_op]
  split
  · exact combines_of_ne hkind
  · refine (h o).congr (Nat.le_of_eq (addOp_nodes_size ..).symm) fun id _ => ?_
    simp only [shape, Node.shape, Node.type, addOp_kind]

/-- A new node whose operator, if it is one on elements, combines the shapes of its operands. -/
theorem compute {name : Option String} {kind : NodeKind} {op : OpKind} {inputs : List NodeId}
    (hop : (g.compute name kind op inputs).2.Combines ⟨op, inputs, [⟨g.nodes.size⟩]⟩) :
    (g.compute name kind op inputs).2.Combined := by
  refine h.extend (compute_extends g name kind op inputs) fun o hge hlt => ?_
  rw [compute_ops_size] at hlt
  obtain rfl : o = ⟨g.ops.size⟩ := by
    cases o
    simp only [OpId.mk.injEq] at *
    omega
  rw [compute_op]
  exact hop

/-- A new tensor that is computed element by element. -/
theorem elementwise {sz : ElemSize} {shape : Shape} {body : Body} {inputs : List NodeId}
    (hinputs : ∀ id ∈ inputs, id.index < g.nodes.size)
    (hshape : Combination.chain (inputs.map g.shape) (some []) = some shape) :
    (g.compute none (.tensor sz shape) (.elementwise body) inputs).2.Combined := by
  have hext := compute_extends g none (.tensor sz shape) (.elementwise body) inputs
  refine h.compute fun _ _ => ⟨⟨g.nodes.size⟩, rfl, by simp,
    fun id hid => Nat.lt_of_lt_of_le (hinputs id hid) hext.nodes_le, ?_⟩
  have hsame : inputs.map (g.compute none (.tensor sz shape) (.elementwise body) inputs).2.shape =
      inputs.map g.shape :=
    List.map_congr_left fun id hid => hext.shape_eq (hinputs id hid)
  rw [shape_of_type (type_compute_tensor ..)]
  exact hsame ▸ hshape

/-! ## Applied operators -/

theorem bindOperand (inputs : List (NodeId × NodeId)) (id : NodeId) :
    (g.bindOperand inputs id).2.2.Combined := by
  unfold Graph.bindOperand
  split
  · exact h
  · split
    · exact h
    · exact h.addNode _ _

theorem applyUnary (op : UnOp) {arg : NodeId} (harg : arg.index < g.nodes.size) (sz : ElemSize) :
    (g.applyUnary op arg sz).2.Combined := by
  cases hscalar : g.isScalar arg with
  | true =>
    rw [Graph.applyUnary, if_pos hscalar]
    exact h.compute (combines_of_ne fun _ h => by cases h)
  | false =>
    rw [applyUnary_eq g op sz hscalar]
    have hext := ((Extends.refl g).addNode (g.node arg).name (.scalar (g.elemSize arg))).trans
      (compute_extends _ none (.scalar sz) (.unary op) [(g.placeholder arg).1])
    have hbody : ((g.placeholder arg).2.compute none (.scalar sz) (.unary op)
        [(g.placeholder arg).1]).2.Combined :=
      (h.addNode _ _).compute (combines_of_ne fun _ h => by cases h)
    refine hbody.elementwise (fun id hid => ?_) ?_
    · rw [List.mem_singleton.mp hid]
      exact Nat.lt_of_lt_of_le harg hext.nodes_le
    · rw [List.map_cons, List.map_nil, Combination.chain_singleton]
      exact congrArg some (hext.shape_eq harg)

theorem applyBinary (op : BinOp) {lhs rhs : NodeId} (hlhs : lhs.index < g.nodes.size)
    (hrhs : rhs.index < g.nodes.size) (sz : ElemSize) {shape : Option Shape}
    (hshape : ∀ s, shape = some s → Shape.broadcast? (g.shape lhs) (g.shape rhs) = some s) :
    (g.applyBinary op lhs rhs sz shape).2.Combined := by
  cases shape with
  | none => exact h.compute (combines_of_ne fun _ h => by cases h)
  | some shape =>
    rw [applyBinary_eq]
    dsimp only
    have hx := h.bindOperand [] lhs
    have hextx := extends_bindOperand g [] lhs
    generalize g.bindOperand [] lhs = x at *
    have hy := hx.bindOperand x.2.1 rhs
    have hexty := hextx.trans (extends_bindOperand x.2.2 x.2.1 rhs)
    generalize x.2.2.bindOperand x.2.1 rhs = y at *
    have hext := hexty.trans (compute_extends y.2.2 none (.scalar sz) (.binary op) [x.1, y.1])
    have hbody : (y.2.2.compute none (.scalar sz) (.binary op) [x.1, y.1]).2.Combined :=
      hy.compute (combines_of_ne fun _ h => by cases h)
    refine hbody.elementwise (fun id hid => ?_) ?_
    · simp only [List.mem_cons, List.not_mem_nil, or_false] at hid
      rcases hid with rfl | rfl
      · exact Nat.lt_of_lt_of_le hlhs hext.nodes_le
      · exact Nat.lt_of_lt_of_le hrhs hext.nodes_le
    · rw [List.map_cons, List.map_cons, List.map_nil, Combination.chain_pair, hext.shape_eq hlhs,
        hext.shape_eq hrhs]
      exact hshape shape rfl

theorem applyReduction (op : BinOp) (arg : NodeId) (axes : List Nat) (sz : ElemSize) (v : Literal) :
    (g.applyReduction op arg axes sz v).2.Combined := by
  rw [applyReduction_eq]
  dsimp only
  refine .compute ?_ (combines_of_ne fun _ h => by cases h)
  refine .compute ?_ (combines_of_ne fun _ h => by cases h)
  exact ((h.addNode _ _).addNode _ _).addNode _ _

/-- A copy of another graph has the shapes of the other graph with other dimensions in them. -/
theorem spliced {inner : Graph} {r : Relocation} {copied : List (NodeId × NodeId)}
    (hinner : inner.Combined) (hs : g.Spliced inner r copied g') : g'.Combined := by
  refine h.extend hs.ext fun o hge hlt => ?_
  rcases hs.newOp o hge hlt with ⟨o', ho', rfl⟩ | ⟨p, hp, -, hcopy⟩
  · rw [(hs.op ho').2]
    intro body hkind
    obtain ⟨body', hkind'⟩ : ∃ body', (inner.op o').kind = .elementwise body' := by
      cases hop : (inner.op o').kind with
      | elementwise body' => exact ⟨body', rfl⟩
      | _ =>
        rw [Relocation.opData, hop] at hkind
        cases hkind
    obtain ⟨dst, houtputs, hdst, hinputs, hcombined⟩ := hinner o' body' hkind'
    have hsame : ((inner.op o').inputs.map r.node).map g'.shape =
        ((inner.op o').inputs.map inner.shape).map (List.map r.dim) := by
      rw [List.map_map, List.map_map]
      exact List.map_congr_left fun id hid => hs.shape (hinputs id hid)
    refine ⟨r.node dst, congrArg (List.map r.node) houtputs, (hs.node_lt hdst).2, fun id hid => ?_, ?_⟩
    · obtain ⟨id', hid', rfl⟩ := List.mem_map.mp hid
      exact (hs.node_lt (hinputs id' hid')).2
    · rw [hs.shape hdst]
      exact hsame ▸ Combination.chain_map rfl hcombined
  · rw [hcopy]
    exact combines_of_ne fun _ h => by cases h

end Combined

end Graph

end TensorKernel
