import TensorKernel.Numeric.Reduction
import TensorKernel.Proofs.Except
import TensorKernel.Proofs.Graph.Records

/-!
# Graphs that are appended to

`Graph.Appends` says of two graphs, whatever they hold, that the second one is the first one with
nodes, operators and items put behind what is there.  Of an earlier node nothing changes but that
operators are put behind those that read it, and no further operator computes one.  Every way of
applying an operator appends, as it only computes nodes that it has added itself.
-/

namespace TensorKernel

namespace Graph

/-- The second graph is the first one with further nodes, operators and items behind. -/
structure Appends (g g' : Graph) : Prop where
  ext : g.Extends g'
  items : g.items.toList <+: g'.items.toList
  consumers : ∀ id : NodeId, id.index < g.nodes.size →
    (g.node id).consumers <+: (g'.node id).consumers
  targets : ∀ o : OpId, g.ops.size ≤ o.index → ∀ id ∈ (g'.op o).outputs, g.nodes.size ≤ id.index

namespace Appends

variable {g g' g'' : Graph}

theorem refl (g : Graph) : Appends g g where
  ext := .refl g
  items := List.prefix_refl _
  consumers _ _ := List.prefix_refl _
  targets o ho id hid := by
    rw [op_of_size_le ho] at hid
    cases hid

theorem trans (h : Appends g g') (h' : Appends g' g'') : Appends g g'' where
  ext := h.ext.trans h'.ext
  items := h.items.trans h'.items
  consumers id hid :=
    (h.consumers id hid).trans (h'.consumers id (Nat.lt_of_lt_of_le hid h.ext.nodes_le))
  targets o ho id hid := by
    by_cases hlt : o.index < g'.ops.size
    · rw [h'.ext.op_eq o hlt] at hid
      exact h.targets o ho id hid
    · exact Nat.le_trans h.ext.nodes_le (h'.targets o (Nat.le_of_not_lt hlt) id hid)

theorem addNode (h : Appends g g') (name : Option String) (kind : NodeKind) :
    Appends g (g'.addNode name kind).2 where
  ext := h.ext.addNode name kind
  items := h.items.trans (by simp [Graph.addNode])
  consumers id hid := by
    have hlt := Nat.lt_of_lt_of_le hid h.ext.nodes_le
    rw [addNode_node, if_neg (Nat.ne_of_lt hlt)]
    exact h.consumers id hid
  targets := h.targets

/-- An operator that computes nodes which were appended. -/
theorem addOp (h : Appends g g') (kind : OpKind) (inputs : List NodeId) {outputs : List NodeId}
    (hout : ∀ id ∈ outputs, g.nodes.size ≤ id.index) :
    Appends g (g'.addOp kind inputs outputs).2 where
  ext := h.ext.addOp kind inputs outputs hout
  items := h.items.trans (by simp [Graph.addOp])
  consumers id hid := by
    rw [addOp_consumers kind inputs outputs (Nat.lt_of_lt_of_le hid h.ext.nodes_le)]
    exact (h.consumers id hid).trans (List.prefix_append _ _)
  targets o ho id hid := by
    rw [addOp_op] at hid
    split at hid
    · exact hout id hid
    · exact h.targets o ho id hid

theorem compute (h : Appends g g') (name : Option String) (kind : NodeKind) (op : OpKind)
    (inputs : List NodeId) : Appends g (g'.compute name kind op inputs).2 :=
  (h.addNode name kind).addOp op inputs fun id hid => by
    rw [List.mem_singleton.mp hid]
    exact h.ext.nodes_le

end Appends

/-! ## Copies -/

theorem appends_splice (g other : Graph) (symbol : String → Dim) :
    g.Appends (g.splice other symbol).2 where
  ext := splice_extends g other symbol
  items := by simp [splice]
  consumers id hid := by rw [splice_node_of_lt g other symbol hid]
  targets o ho id hid := by
    by_cases hlt : o.index < g.ops.size + other.ops.size
    · obtain ⟨inner, hinner, rfl⟩ := exists_relocated_op g other symbol ho hlt
      rw [splice_op_relocated g other symbol hinner] at hid
      obtain ⟨old, -, rfl⟩ := List.mem_map.mp hid
      exact Nat.le_add_left _ _
    · rw [op_of_size_le (by rw [splice_ops_size]; exact Nat.le_of_not_lt hlt)] at hid
      cases hid

/-! ## Operators -/

theorem appends_applyUnary (g : Graph) (op : UnOp) (arg : NodeId) (sz : ElemSize) :
    g.Appends (g.applyUnary op arg sz).2 := by
  unfold applyUnary
  split
  · exact (Appends.refl g).compute none (.scalar sz) (.unary op) [arg]
  · have hbody := ((Appends.refl g).addNode (g.node arg).name (.scalar (g.elemSize arg))).compute none
      (.scalar sz) (.unary op) [⟨g.nodes.size⟩]
    exact hbody.compute none (.tensor sz (g.shape arg)) _ [arg]

theorem appends_bindOperand (g : Graph) (inputs : List (NodeId × NodeId)) (id : NodeId) :
    g.Appends (g.bindOperand inputs id).2.2 := by
  unfold bindOperand
  split
  · exact .refl g
  · split
    · exact .refl g
    · exact (Appends.refl g).addNode _ _

theorem appends_applyBinary (g : Graph) (op : BinOp) (lhs rhs : NodeId) (sz : ElemSize)
    (shape : Option Shape) : g.Appends (g.applyBinary op lhs rhs sz shape).2 := by
  cases shape with
  | none => exact (Appends.refl g).compute none (.scalar sz) (.binary op) [lhs, rhs]
  | some shape =>
    have hoperands := (g.appends_bindOperand [] lhs).trans
      (appends_bindOperand (g.bindOperand [] lhs).2.2 (g.bindOperand [] lhs).2.1 rhs)
    have hbody := hoperands.compute none (.scalar sz) (.binary op) [(g.bindOperand [] lhs).1,
      ((g.bindOperand [] lhs).2.2.bindOperand (g.bindOperand [] lhs).2.1 rhs).1]
    exact hbody.compute none (.tensor sz shape) _ [lhs, rhs]

theorem appends_applyReduction (g : Graph) (op : BinOp) (arg : NodeId) (dims : List Nat)
    (sz : ElemSize) (init : Literal) : g.Appends (g.applyReduction op arg dims sz init).2 := by
  have hplaces := (((Appends.refl g).addNode none (.constant init sz)).addNode
    ((g.addConstant init sz).2.node arg).name
    (.scalar ((g.addConstant init sz).2.elemSize arg))).addNode none (.scalar sz)
  rw [applyReduction_eq]
  exact (hplaces.compute none (.scalar sz) (.binary op) _).compute none _ _ _

end Graph

theorem Reduction.appends_apply {f : Reduction} {g : Graph} {args : List NodeId}
    {keywords : Table String Int64} {result : NodeId × Graph}
    (h : f.apply g args keywords = .ok result) : g.Appends result.2 := by
  unfold apply at h
  split at h
  · dsimp only at h
    split at h
    · cases h
    · obtain ⟨dims, -, h⟩ := exists_of_bind_ok h
      split at h
      · obtain rfl := Except.ok.inj h
        exact g.appends_applyReduction _ _ _ _ _
      · cases h
  · cases h

end TensorKernel
