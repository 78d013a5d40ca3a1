import TensorKernel.Proofs.Graph.Enclosed
import TensorKernel.Proofs.Graph.Operators

/-!
# Operators keep bodies closed

An operator without a body computes a new node from nodes that have a value.  One with a body brings
placeholders along, which belong to no operator while the body is being put together; `Graph.Opens`
says how far that is.
-/

namespace TensorKernel

namespace Graph

variable {g g₁ g' : Graph} {e e' : Entry}

/-! ## Placeholders -/

/-- A new node that nothing gives is a placeholder unless it is a constant. -/
theorem hole_addNode (he : g.EntryValid e) (name : Option String) (kind : NodeKind) {x : NodeId} :
    (g.addNode name kind).2.Hole e x ↔ g.Hole e x ∨
      x = ⟨g.nodes.size⟩ ∧ Node.constant? ⟨name, kind, none, []⟩ = none := by
  have hext := (Extends.refl g).addNode name kind
  by_cases hlt : x.index < g.nodes.size
  · have hne : x ≠ ⟨g.nodes.size⟩ := by
      rintro rfl
      exact Nat.lt_irrefl _ hlt
    simp [hext.hole_iff hlt, hne]
  · have hold : ¬ g.Hole e x := fun h => hlt h.lt
    constructor
    · intro h
      obtain rfl := eq_of_size_le (addNode_nodes_size g name kind) (Nat.le_of_not_lt hlt) h.lt
      have hconstant := h.constant
      rw [addNode_node_self] at hconstant
      exact Or.inr ⟨rfl, hconstant⟩
    · rintro (h | ⟨rfl, hconstant⟩)
      · exact absurd h hold
      · obtain ⟨hgiven, hresult⟩ := he.not_given (Nat.le_of_not_lt hlt)
        exact ⟨by simp, hgiven, hresult, by simp, by simpa using hconstant⟩

/-- A node that is computed at once is no placeholder. -/
theorem hole_compute (name : Option String) (kind : NodeKind) (op : OpKind) (inputs : List NodeId)
    {x : NodeId} : (g.compute name kind op inputs).2.Hole e x ↔ g.Hole e x := by
  by_cases hlt : x.index < g.nodes.size
  · exact (compute_extends g name kind op inputs).hole_iff hlt
  · refine ⟨fun h => ?_, fun h => absurd h.lt hlt⟩
    obtain rfl := eq_of_size_le (compute_nodes_size g name kind op inputs) (Nat.le_of_not_lt hlt) h.lt
    have hproducer := h.producer
    rw [compute_producer] at hproducer
    cases hproducer

/-- A graph with the placeholders of a body that no operator has yet. -/
structure Opens (g : Graph) (e : Entry) (pairs : List (NodeId × NodeId)) (g₁ : Graph) : Prop where
  ext : g.Extends g₁
  entry : g₁.EntryValid e
  ops : g₁.ops = g.ops
  hole : ∀ x, g₁.Hole e x ↔ g.Hole e x ∨ x ∈ pairs.map Prod.snd
  fresh : ∀ x ∈ pairs.map Prod.snd, g.nodes.size ≤ x.index
  nodup : (pairs.map Prod.snd).Nodup

/-- A body's own operator, which computes its result, and then the operator around the body. -/
def closeBody (g : Graph) (sz : ElemSize) (op₁ : OpKind) (ins₁ : List NodeId) (name : Option String)
    (kind : NodeKind) (op₂ : OpKind) (ins₂ : List NodeId) : Graph :=
  ((g.compute none (.scalar sz) op₁ ins₁).2.compute name kind op₂ ins₂).2

theorem closeBody_extends (g : Graph) (sz : ElemSize) (op₁ : OpKind) (ins₁ : List NodeId)
    (name : Option String) (kind : NodeKind) (op₂ : OpKind) (ins₂ : List NodeId) :
    g.Extends (g.closeBody sz op₁ ins₁ name kind op₂ ins₂) :=
  (compute_extends g none (.scalar sz) op₁ ins₁).trans (compute_extends _ name kind op₂ ins₂)

/-- The two operators that close a body, where the second one names the results of both. -/
theorem compute_compute (g : Graph) (sz : ElemSize) (op₁ : OpKind) (ins₁ : List NodeId)
    (name : Option String) (kind : NodeKind) (op₂ : NodeId → NodeId → OpKind) (ins₂ : List NodeId) :
    let inner := g.compute none (.scalar sz) op₁ ins₁
    inner.2.compute name kind (op₂ inner.1 ⟨inner.2.nodes.size⟩) ins₂ =
      (⟨g.nodes.size + 1⟩, g.closeBody sz op₁ ins₁ name kind
        (op₂ ⟨g.nodes.size⟩ ⟨g.nodes.size + 1⟩) ins₂) := by
  intro inner
  have hsize : inner.2.nodes.size = g.nodes.size + 1 := compute_nodes_size ..
  rw [hsize]
  exact Prod.ext (congrArg NodeId.mk hsize) rfl

theorem applyUnary_eq_closeBody (g : Graph) (op : UnOp) {arg : NodeId} (sz : ElemSize)
    (h : g.isScalar arg = false) :
    g.applyUnary op arg sz =
      let x := g.placeholder arg
      (⟨x.2.nodes.size + 1⟩, x.2.closeBody sz (.unary op) [x.1] none (.tensor sz (g.shape arg))
        (.elementwise ⟨[(arg, x.1)], [(⟨x.2.nodes.size⟩, ⟨x.2.nodes.size + 1⟩)]⟩) [arg]) :=
  (applyUnary_eq g op sz h).trans (compute_compute _ _ _ _ _ _
    (fun inner dst => .elementwise ⟨[(arg, (g.placeholder arg).1)], [(inner, dst)]⟩) _)

theorem applyBinary_eq_closeBody (g : Graph) (op : BinOp) (lhs rhs : NodeId) (sz : ElemSize)
    (shape : Shape) :
    g.applyBinary op lhs rhs sz (some shape) =
      let x := g.bindOperand [] lhs
      let y := x.2.2.bindOperand x.2.1 rhs
      (⟨y.2.2.nodes.size + 1⟩, y.2.2.closeBody sz (.binary op) [x.1, y.1] none (.tensor sz shape)
        (.elementwise ⟨y.2.1, [(⟨y.2.2.nodes.size⟩, ⟨y.2.2.nodes.size + 1⟩)]⟩) [lhs, rhs]) := by
  rw [applyBinary_eq]
  generalize g.bindOperand [] lhs = x
  exact compute_compute _ _ _ _ _ _
    (fun inner dst => .elementwise ⟨(x.2.2.bindOperand x.2.1 rhs).2.1, [(inner, dst)]⟩) _

theorem applyReduction_eq_closeBody (g : Graph) (op : BinOp) (arg : NodeId) (axes : List Nat)
    (sz : ElemSize) (v : Literal) :
    g.applyReduction op arg axes sz v =
      let init := g.addConstant v sz
      let x := init.2.placeholder arg
      let acc := x.2.addScalar none sz
      (⟨acc.2.nodes.size + 1⟩, acc.2.closeBody sz (.binary op) [x.1, acc.1] none
        (reductionKind sz (withoutAxes axes (g.shape arg)))
        (.reduction axes ⟨[(arg, x.1), (init.1, acc.1)], [(⟨acc.2.nodes.size⟩,
          ⟨acc.2.nodes.size + 1⟩)]⟩ [init.1]) [arg, init.1]) := by
  rw [applyReduction_eq]
  generalize g.addConstant v sz = init
  dsimp only
  generalize init.2.placeholder arg = x
  exact compute_compute _ _ _ _ _ _ (fun inner dst => .reduction axes
    ⟨[(arg, x.1), (init.1, (x.2.addScalar none sz).1)], [(inner, dst)]⟩ [init.1]) _

namespace Opens

variable {pairs : List (NodeId × NodeId)}

theorem nil (he : g.EntryValid e) : g.Opens e [] g :=
  ⟨.refl g, he, rfl, by simp, by simp, by simp⟩

theorem addScalar (h : g.Opens e pairs g₁) (outer : NodeId) (name : Option String) (sz : ElemSize) :
    g.Opens e (pairs ++ [(outer, ⟨g₁.nodes.size⟩)]) (g₁.addScalar name sz).2 := by
  have hext : g₁.Extends (g₁.addScalar name sz).2 := (Extends.refl g₁).addNode _ _
  refine ⟨h.ext.trans hext, hext.entryValid h.entry, h.ops, fun x => ?_, fun x hx => ?_, ?_⟩
  · show (g₁.addNode name (.scalar sz)).2.Hole e x ↔ _
    rw [hole_addNode h.entry, h.hole]
    simp [Node.constant?, or_assoc]
  · rw [List.map_append, List.mem_append] at hx
    rcases hx with hx | hx
    · exact h.fresh x hx
    · obtain rfl := List.mem_singleton.mp hx
      exact h.ext.nodes_le
  · rw [List.map_append, List.nodup_append]
    refine ⟨h.nodup, List.nodup_singleton _, fun x hx y hy heq => ?_⟩
    obtain rfl := List.mem_singleton.mp hy
    subst heq
    exact Nat.lt_irrefl _ ((h.hole _).mpr (Or.inr hx)).lt

theorem addConstant (h : g.Opens e pairs g₁) (v : Literal) (sz : ElemSize) :
    g.Opens e pairs (g₁.addConstant v sz).2 := by
  have hext : g₁.Extends (g₁.addConstant v sz).2 := (Extends.refl g₁).addNode _ _
  refine ⟨h.ext.trans hext, hext.entryValid h.entry, h.ops, fun x => ?_, h.fresh, h.nodup⟩
  show (g₁.addNode none (.constant v sz)).2.Hole e x ↔ _
  rw [hole_addNode h.entry, h.hole]
  simp [Node.constant?]

/-- Binding an operand opens at most one placeholder, and the body reads it or the operand. -/
theorem bindOperand (h : g.Opens e pairs g₁) (id : NodeId) :
    g.Opens e (g₁.bindOperand pairs id).2.1 (g₁.bindOperand pairs id).2.2 ∧
      pairs ⊆ (g₁.bindOperand pairs id).2.1 ∧
      ((g₁.bindOperand pairs id).1 ∈ (g₁.bindOperand pairs id).2.1.map Prod.snd ∨
        (g₁.bindOperand pairs id).1 = id) := by
  unfold Graph.bindOperand
  split
  · exact ⟨h, fun _ hp => hp, Or.inr rfl⟩
  · cases hfound : Body.placeholder? ⟨pairs, []⟩ id with
    | some inner =>
      obtain ⟨p, hp, rfl⟩ := Option.map_eq_some_iff.mp hfound
      exact ⟨h, fun _ hp => hp, Or.inl (List.mem_map_of_mem (List.mem_of_find?_eq_some hp))⟩
    | none =>
      refine ⟨h.addScalar id _ _, fun _ hp => List.mem_append_left _ hp, Or.inl ?_⟩
      simp

/-- What a valid graph has a value for is no placeholder after some were added either. -/
theorem not_hole (h : g.Opens e pairs g₁) (hv : g.Valid e) {id : NodeId} (hid : g.Available e id) :
    id.index < g₁.nodes.size ∧ ¬ g₁.Hole e id := by
  have hlt := hid.lt hv.entry
  refine ⟨Nat.lt_of_lt_of_le hlt h.ext.nodes_le, fun hhole => ?_⟩
  rcases (h.hole id).mp hhole with hold | hmem
  · exact hold.not_available hv.coherent hid
  · exact Nat.not_lt.mpr (h.fresh id hmem) hlt

/-! ## Closing a body -/

section

variable (h : g.Opens e pairs g₁) (sz : ElemSize) (op₁ : OpKind) (ins₁ : List NodeId)
  (name : Option String) (kind : NodeKind) (op₂ : OpKind) (ins₂ : List NodeId)
include h

theorem closeBody_ops_size :
    (g₁.closeBody sz op₁ ins₁ name kind op₂ ins₂).ops.size = g.ops.size + 2 := by
  rw [closeBody, compute_ops_size, compute_ops_size, h.ops]

theorem closeBody_first : (g₁.closeBody sz op₁ ins₁ name kind op₂ ins₂).op ⟨g.ops.size⟩ =
    ⟨op₁, ins₁, [⟨g₁.nodes.size⟩]⟩ := by
  rw [closeBody, (compute_extends _ name kind op₂ ins₂).op_eq _ (by simp [h.ops]), ← h.ops,
    compute_op]

theorem closeBody_second : (g₁.closeBody sz op₁ ins₁ name kind op₂ ins₂).op ⟨g.ops.size + 1⟩ =
    ⟨op₂, ins₂, [⟨g₁.nodes.size + 1⟩]⟩ := by
  rw [closeBody, ← h.ops, ← compute_ops_size g₁ none (.scalar sz) op₁ ins₁, compute_op,
    compute_nodes_size]

/-- Every operator that closing the body adds. -/
theorem closeBody_op (o : OpId) (hge : g.ops.size ≤ o.index) : o = ⟨g.ops.size⟩ ∨
    o = ⟨g.ops.size + 1⟩ ∨ g.ops.size + 2 ≤ o.index ∧
      (g₁.closeBody sz op₁ ins₁ name kind op₂ ins₂).op o = default := by
  by_cases hlt : o.index < g.ops.size + 2
  · cases o
    simp only [OpId.mk.injEq] at *
    omega
  · have hle := Nat.le_of_not_lt hlt
    exact Or.inr (Or.inr ⟨hle, op_of_size_le (by rw [h.closeBody_ops_size]; exact hle)⟩)

/-- The body's own operator computes its result. -/
theorem closeBody_producer_first :
    ((g₁.closeBody sz op₁ ins₁ name kind op₂ ins₂).node ⟨g₁.nodes.size⟩).producer =
      some ⟨g.ops.size⟩ := by
  rw [closeBody, (compute_extends _ name kind op₂ ins₂).producer_eq _ (by simp), compute_producer,
    h.ops]

theorem closeBody_producer_second :
    ((g₁.closeBody sz op₁ ins₁ name kind op₂ ins₂).node ⟨g₁.nodes.size + 1⟩).producer =
      some ⟨g.ops.size + 1⟩ := by
  rw [closeBody, ← compute_nodes_size g₁ none (.scalar sz) op₁ ins₁, compute_producer,
    compute_ops_size, h.ops]

theorem closeBody_hole (x : NodeId) : (g₁.closeBody sz op₁ ins₁ name kind op₂ ins₂).Hole e x ↔
    g.Hole e x ∨ x ∈ pairs.map Prod.snd := by
  rw [closeBody, hole_compute, hole_compute, h.hole]

/-- The placeholders belong to the operator around the body. -/
theorem closeBody_owner (hop₁ : op₁.placeholders = [])
    (hop₂ : op₂.placeholders = pairs.map Prod.snd) (o : OpId) (x : NodeId)
    (hge : g.ops.size ≤ o.index)
    (hx : x ∈ ((g₁.closeBody sz op₁ ins₁ name kind op₂ ins₂).op o).kind.placeholders) :
    o = ⟨g.ops.size + 1⟩ ∧ x ∈ pairs.map Prod.snd := by
  rcases h.closeBody_op sz op₁ ins₁ name kind op₂ ins₂ o hge with rfl | rfl | ⟨-, hdefault⟩
  · rw [h.closeBody_first, hop₁] at hx
    cases hx
  · rw [h.closeBody_second, hop₂] at hx
    exact ⟨rfl, hx⟩
  · rw [hdefault] at hx
    cases hx

end

/--
A body is closed by two operators: one that computes its result from placeholders and from nodes
outside that are no placeholders, and the one that the body belongs to.
-/
theorem adds (h : g.Opens e pairs g₁) {op₁ op₂ : OpKind} {ins₁ ins₂ : List NodeId}
    (name : Option String) (sz : ElemSize) (kind : NodeKind) (hop₁ : op₁.placeholders = [])
    (hop₂ : op₂.placeholders = pairs.map Prod.snd) (hinner : ⟨g₁.nodes.size⟩ ∈ op₂.inner)
    (hins₁ : ∀ id ∈ ins₁, id.index < g₁.nodes.size ∧ ¬ g.Hole e id)
    (hins₂ : ∀ id ∈ ins₂, id.index < g₁.nodes.size ∧ ¬ g₁.Hole e id) :
    g.Adds e (g₁.closeBody sz op₁ ins₁ name kind op₂ ins₂) e := by
  have hcases := h.closeBody_op sz op₁ ins₁ name kind op₂ ins₂
  have hfirst := h.closeBody_first sz op₁ ins₁ name kind op₂ ins₂
  have hsecond := h.closeBody_second sz op₁ ins₁ name kind op₂ ins₂
  have hproducer := h.closeBody_producer_first sz op₁ ins₁ name kind op₂ ins₂
  have hholes := h.closeBody_hole sz op₁ ins₁ name kind op₂ ins₂
  have howner := h.closeBody_owner sz op₁ ins₁ name kind op₂ ins₂ hop₁ hop₂
  have hext : g.Extends (g₁.closeBody sz op₁ ins₁ name kind op₂ ins₂) :=
    h.ext.trans ((compute_extends ..).trans (compute_extends ..))
  have hnodes : g₁.nodes.size < (g₁.closeBody sz op₁ ins₁ name kind op₂ ins₂).nodes.size := by
    rw [closeBody, compute_nodes_size, compute_nodes_size]
    omega
  constructor
  case nodes_le => exact hext.nodes_le
  case op => exact hext.op_eq
  case producer =>
    intro id o hid
    rw [hext.producer_eq id (lt_of_producer hid), hid]
  case hole =>
    intro x hx
    exact (hholes x).mpr (Or.inl hx)
  case new =>
    intro x hx
    refine ((hholes x).mp hx).imp_right fun hmem => ⟨⟨g.ops.size + 1⟩, Nat.le_succ _, ?_⟩
    rw [hsecond, hop₂]
    exact hmem
  case single =>
    intro o hge hlt
    rcases hcases o hge with rfl | rfl | ⟨hle, -⟩
    · exact ⟨_, by rw [hfirst], hproducer⟩
    · exact ⟨_, by rw [hsecond], h.closeBody_producer_second ..⟩
    · rw [h.closeBody_ops_size] at hlt
      omega
  case inputs =>
    intro o hge id hid
    rcases hcases o hge with rfl | rfl | ⟨-, hdefault⟩
    · rw [hfirst] at hid
      exact Nat.lt_trans (hins₁ id hid).1 hnodes
    · rw [hsecond] at hid
      exact Nat.lt_trans (hins₂ id hid).1 hnodes
    · rw [hdefault] at hid
      cases hid
  case placeholders =>
    intro o hge x hx
    have hmem := (howner o x hge hx).2
    exact ⟨h.fresh x hmem, (hholes x).mpr (Or.inr hmem)⟩
  case unique =>
    intro o o' x hge hge' hx hx'
    rw [(howner o x hge hx).1, (howner o' x hge' hx').1]
  case nodup =>
    intro o hge
    rcases hcases o hge with rfl | rfl | ⟨-, hdefault⟩
    · rw [hfirst, hop₁]
      exact List.nodup_nil
    · rw [hsecond, hop₂]
      exact h.nodup
    · rw [hdefault]
      exact List.nodup_nil
  case reader =>
    -- Only the first one reads a placeholder, and it is one of its own body.
    intro p x hge hread hx
    rcases hcases p hge with rfl | rfl | ⟨-, hdefault⟩
    · rw [hfirst] at hread
      have hmem := ((hholes x).mp hx).resolve_left (hins₁ x hread).2
      refine ⟨⟨g.ops.size + 1⟩, ?_, ⟨g₁.nodes.size⟩, ?_, hproducer⟩
      · rw [hsecond, hop₂]
        exact hmem
      · rw [hsecond]
        exact hinner
    · rw [hsecond] at hread
      exact absurd ((h.hole x).mpr ((hholes x).mp hx)) (hins₂ x hread).2
    · rw [hdefault] at hread
      cases hread

end Opens

/-! ## Applied operators -/

section Applied

variable (h : g.Enclosed e) (hv : g.Valid e)
include h hv

theorem Enclosed.addConstant (v : Literal) (sz : ElemSize) :
    (g.addConstant v sz).2.Enclosed e := by
  have hext : g.Extends (g.addConstant v sz).2 := (Extends.refl g).addNode _ _
  refine h.adds (.of_plain hext.nodes_le hext.op_eq (fun {id o} hid => ?_) (fun x => ?_)
    fun o hge hlt => absurd hlt (Nat.not_lt.mpr hge))
  · rw [hext.producer_eq id (lt_of_producer hid), hid]
  · show (g.addNode none (.constant v sz)).2.Hole e x ↔ _
    rw [hole_addNode hv.entry]
    simp [Node.constant?]

/-- A new node that is computed without a body from available nodes. -/
theorem Enclosed.compute (name : Option String) (kind : NodeKind) {op : OpKind}
    {inputs : List NodeId} (hop : op.placeholders = [])
    (hinputs : ∀ id ∈ inputs, g.Available e id) :
    (g.compute name kind op inputs).2.Enclosed e := by
  have hext := compute_extends g name kind op inputs
  refine h.adds (.of_plain hext.nodes_le hext.op_eq (fun {id o} hid => ?_)
    (fun x => hole_compute name kind op inputs) fun o hge hlt => ?_)
  · rw [hext.producer_eq id (lt_of_producer hid), hid]
  · rw [compute_ops_size] at hlt
    obtain rfl : o = ⟨g.ops.size⟩ := by
      cases o
      simp only [OpId.mk.injEq] at *
      omega
    rw [compute_op]
    refine ⟨⟨_, rfl, compute_producer g name kind op inputs⟩, hop, fun id hid => ?_⟩
    have havailable := hinputs id hid
    refine ⟨Nat.lt_of_lt_of_le (havailable.lt hv.entry) hext.nodes_le, fun hhole => ?_⟩
    exact ((hole_compute name kind op inputs).mp hhole).not_available hv.coherent havailable

theorem Enclosed.applyUnary (op : UnOp) {arg : NodeId} (harg : g.Available e arg) (sz : ElemSize) :
    (g.applyUnary op arg sz).2.Enclosed e := by
  cases hscalar : g.isScalar arg with
  | true =>
    rw [Graph.applyUnary, if_pos hscalar]
    exact h.compute hv none (.scalar sz) rfl (by simpa using harg)
  | false =>
    rw [applyUnary_eq g op sz hscalar]
    have hopen := (Opens.nil hv.entry).addScalar arg (g.node arg).name (g.elemSize arg)
    refine h.adds (hopen.adds none sz _ rfl rfl (by simp [OpKind.inner]) ?_ ?_)
    · have hx : ¬ g.Hole e ⟨g.nodes.size⟩ := fun hhole => Nat.lt_irrefl _ hhole.lt
      simpa using hx
    · intro id hid
      obtain rfl := List.mem_singleton.mp hid
      exact hopen.not_hole hv harg

theorem Enclosed.applyBinary (op : BinOp) {lhs rhs : NodeId} (hlhs : g.Available e lhs)
    (hrhs : g.Available e rhs) (sz : ElemSize) (shape : Option Shape) :
    (g.applyBinary op lhs rhs sz shape).2.Enclosed e := by
  cases shape with
  | none => exact h.compute hv none (.scalar sz) rfl (by simpa using ⟨hlhs, hrhs⟩)
  | some shape =>
    rw [applyBinary_eq]
    dsimp only
    obtain ⟨hx, -, hxread⟩ := (Opens.nil hv.entry).bindOperand lhs
    obtain ⟨hy, hsub, hyread⟩ := hx.bindOperand rhs
    generalize g.bindOperand [] lhs = x at *
    generalize x.2.2.bindOperand x.2.1 rhs = y at *
    -- What the body reads is a placeholder that was just added, or has a value.
    have hread {id outer : NodeId} (hid : id ∈ y.2.1.map Prod.snd ∨ id = outer)
        (houter : g.Available e outer) : id.index < y.2.2.nodes.size ∧ ¬ g.Hole e id := by
      rcases hid with hmem | rfl
      · refine ⟨((hy.hole id).mpr (Or.inr hmem)).lt, fun hold => ?_⟩
        exact Nat.not_lt.mpr (hy.fresh id hmem) hold.lt
      · exact ⟨(hy.not_hole hv houter).1, fun hold => hold.not_available hv.coherent houter⟩
    refine h.adds (hy.adds none sz _ rfl rfl (by simp [OpKind.inner]) ?_ ?_)
    · intro id hid
      simp only [List.mem_cons, List.not_mem_nil, or_false] at hid
      rcases hid with rfl | rfl
      · exact hread (hxread.imp_left fun hmem => List.map_subset _ hsub hmem) hlhs
      · exact hread hyread hrhs
    · intro id hid
      simp only [List.mem_cons, List.not_mem_nil, or_false] at hid
      rcases hid with rfl | rfl
      · exact hy.not_hole hv hlhs
      · exact hy.not_hole hv hrhs

theorem Enclosed.applyReduction (op : BinOp) {arg : NodeId} (harg : g.Available e arg)
    (axes : List Nat) (sz : ElemSize) (v : Literal) :
    (g.applyReduction op arg axes sz v).2.Enclosed e := by
  rw [applyReduction_eq]
  dsimp only
  -- The constant first, then a placeholder for an element and one for the accumulator.
  have hinit := (Opens.nil hv.entry).addConstant v sz
  have hx : g.Opens e [(arg, ⟨g.nodes.size + 1⟩)]
      ((g.addConstant v sz).2.placeholder arg).2 := by
    have hx := hinit.addScalar arg ((g.addConstant v sz).2.node arg).name
      ((g.addConstant v sz).2.elemSize arg)
    rw [addConstant_nodes_size] at hx
    exact hx
  have hacc := hx.addScalar ⟨g.nodes.size⟩ none sz
  refine h.adds (hacc.adds none sz _ rfl ?_ (by simp [OpKind.inner]) ?_ ?_)
  · simp [OpKind.placeholders]
  · have hfresh : ∀ n, ¬ g.Hole e ⟨g.nodes.size + n⟩ := fun n hhole => by
      have : g.nodes.size + n < g.nodes.size := hhole.lt
      omega
    simpa using ⟨hfresh 1, hfresh 2⟩
  · intro id hid
    simp only [List.mem_cons, List.not_mem_nil, or_false] at hid
    rcases hid with rfl | rfl
    · exact hacc.not_hole hv harg
    · -- The constant that the accumulator starts from.
      rw [addConstant_fst, addScalar_nodes_size, placeholder_nodes_size, addConstant_nodes_size]
      refine ⟨by show g.nodes.size < _; omega, fun hhole => ?_⟩
      rcases (hacc.hole _).mp hhole with hold | hmem
      · exact Nat.lt_irrefl _ hold.lt
      · simp at hmem
        omega

end Applied

end Graph

end TensorKernel
