import TensorKernel.Proofs.Eval.Relocation
import TensorKernel.Proofs.Table

/-!
# The meaning of available nodes

An available node has the value that is given to it, that of a constant, or the value of its
operator; how many operators in a row are allowed does not matter once there are enough.  So the
meaning of a node is fixed by its graph, and `agree_meaning` says that it stays the same wherever
the graph is embedded.
-/

namespace TensorKernel

/-- Values are given to the nodes that a graph is given, and to no others. -/
def Entry.GivenBy (e : Entry) (given : GivenValues) : Prop :=
  ∀ id, given.contains id = true ↔ e.node id

theorem Entry.GivenBy.exists_value {e : Entry} {given : GivenValues} (h : e.GivenBy given)
    {id : NodeId} (hid : e.node id) : ∃ v, given.get? id = some v :=
  Table.get?_eq_some_of_contains ((h id).mpr hid)

theorem Entry.GivenBy.get?_eq_none {e : Entry} {given : GivenValues} (h : e.GivenBy given)
    {id : NodeId} (hid : ¬ e.node id) : given.get? id = none := by
  cases hvalue : given.get? id with
  | none => rfl
  | some v => exact absurd ((h id).mp (by simp [Table.contains, hvalue])) hid

/-- A node that has a value before anything is computed was given one, or else is a constant. -/
theorem Entry.GivenBy.source_cases {e : Entry} {given : GivenValues} (h : e.GivenBy given)
    {g : Graph} {id : NodeId} (hid : g.Source e id) :
    (∃ v, given.get? id = some v) ∨
      given.get? id = none ∧ ∃ v, (g.node id).constant? = some v := by
  by_cases hnode : e.node id
  · exact Or.inl (h.exists_value hnode)
  · exact Or.inr ⟨h.get?_eq_none hnode, hid.resolve_left hnode⟩

namespace Meaning

variable {ctx : EvalContext} {e : Entry} {given : GivenValues}

theorem node_of_given {id : NodeId} {v : Value} (h : given.get? id = some v) (n : Nat) :
    node ctx given (n + 1) id = .ok v := by
  simp only [node, h]

theorem node_of_constant {id : NodeId} {v : Literal} (hgiven : given.get? id = none)
    (h : (ctx.graph.node id).constant? = some v) (n : Nat) :
    node ctx given (n + 1) id = .ok (.scalar (v.convert (ctx.graph.elemSize id))) := by
  simp only [node, hgiven, h]

theorem node_of_producer {id : NodeId} {o : OpId} (hgiven : given.get? id = none)
    (hconstant : (ctx.graph.node id).constant? = none)
    (h : (ctx.graph.node id).producer = some o) (n : Nat) :
    node ctx given (n + 1) id = operator ctx (node ctx given n) (ctx.graph.op o) id := by
  simp only [node, hgiven, hconstant, h]

/-- Two valuations of one graph that agree on the nodes that may be read. -/
theorem relates_self {avail : NodeId → Prop} {val val' : Valuation}
    (hlt : ∀ id, avail id → id.index < ctx.graph.nodes.size) (h : ∀ id, avail id → val id = val' id) :
    Relates id .identity e e avail ctx ctx val val' where
  embeds := (Graph.Extends.refl ctx.graph).embeds
  lt := hlt
  val id hid := congrArg _ (h id hid)
  symbol _ _ := rfl
  scalar _ := rfl
  tensor _ := rfl

variable (hc : ctx.graph.Coherent) (he : ctx.graph.EntryValid e) (hgiven : e.GivenBy given)
include hc he hgiven

/-- Enough operators in a row are enough. -/
theorem node_eq {n : Nat} : ∀ {k k' : Nat}, n + 1 ≤ k → n + 1 ≤ k' → ∀ {id : NodeId},
    ctx.graph.AvailableAt e n id → node ctx given k id = node ctx given k' id := by
  have hsource : ∀ {k k' : Nat} {id : NodeId}, 1 ≤ k → 1 ≤ k' → ctx.graph.Source e id →
      node ctx given k id = node ctx given k' id := by
    intro k k' id hk hk' hid
    obtain ⟨k, rfl⟩ := Nat.exists_eq_add_of_le' hk
    obtain ⟨k', rfl⟩ := Nat.exists_eq_add_of_le' hk'
    rcases hgiven.source_cases hid with ⟨v, hv⟩ | ⟨hnone, v, hv⟩
    · rw [node_of_given hv, node_of_given hv]
    · rw [node_of_constant hnone hv, node_of_constant hnone hv]
  induction n with
  | zero =>
    intro k k' hk hk' id hid
    exact hsource (by omega) (by omega) hid
  | succ n ih =>
    intro k k' hk hk' id hid
    by_cases hnode : ctx.graph.Source e id
    · exact hsource (by omega) (by omega) hnode
    · obtain ⟨hnot, hconstant, o, hproducer, hop⟩ := hid.computed hnode
      have hvalue := hgiven.get?_eq_none hnot
      obtain ⟨k, rfl⟩ := Nat.exists_eq_add_of_le' (show 1 ≤ k by omega)
      obtain ⟨k', rfl⟩ := Nat.exists_eq_add_of_le' (show 1 ≤ k' by omega)
      rw [node_of_producer hvalue hconstant hproducer, node_of_producer hvalue hconstant hproducer]
      -- Both evaluations read nodes that agree by induction, so the operator gives the same.
      have hreads := relates_self (e := e) (fun _ h => Graph.AvailableAt.lt he h)
        fun _ h => @ih k k' (by omega) (by omega) _ h
      have hagree := hreads.agree_operator hc hop (Graph.lt_of_producer hproducer)
      rw [Relocation.identity_opData] at hagree
      exact hagree.eq_of_id

end Meaning

section Equations

variable {ctx : EvalContext} {e : Entry} {given : GivenValues}

theorem meaning_of_given {id : NodeId} {v : Value} (h : given.get? id = some v) :
    meaning ctx given id = .ok v :=
  Meaning.node_of_given h _

theorem meaning_of_constant {id : NodeId} {v : Literal} (hgiven : given.get? id = none)
    (h : (ctx.graph.node id).constant? = some v) :
    meaning ctx given id = .ok (.scalar (v.convert (ctx.graph.elemSize id))) :=
  Meaning.node_of_constant hgiven h _

/-- An available node that is neither given nor constant has the value of its operator. -/
theorem meaning_of_producer (hc : ctx.graph.Coherent) (he : ctx.graph.EntryValid e)
    (hgiven : e.GivenBy given) {id : NodeId} (hid : ctx.graph.Available e id) {o : OpId}
    (hvalue : given.get? id = none) (hconstant : (ctx.graph.node id).constant? = none)
    (hproducer : (ctx.graph.node id).producer = some o) :
    meaning ctx given id = Meaning.operator ctx (meaning ctx given) (ctx.graph.op o) id := by
  have hat := hid.at_ops_size hc
  calc meaning ctx given id = Meaning.node ctx given (ctx.graph.ops.size + 2) id :=
        Meaning.node_eq hc he hgiven (Nat.le_refl _) (by omega) hat
    _ = Meaning.operator ctx (meaning ctx given) (ctx.graph.op o) id :=
        Meaning.node_of_producer hvalue hconstant hproducer _

/-- A graph that is embedded in another one means there what it means alone. -/
theorem agree_meaning {ε : Type} {φ : EvalFault → ε} {ctx' : EvalContext} {e' : Entry}
    {given' : GivenValues} {r : Relocation}
    (emb : Graph.Embeds ctx.graph e ctx'.graph e' r)
    (hc : ctx.graph.Coherent) (he : ctx.graph.EntryValid e) (hgiven : e.GivenBy given)
    (hc' : ctx'.graph.Coherent) (he' : ctx'.graph.EntryValid e') (hgiven' : e'.GivenBy given')
    (havailable : ∀ {id}, ctx.graph.Available e id → ctx'.graph.Available e' (r.node id))
    (hfresh : ∀ {id}, ¬ e.node id → ¬ e'.node (r.node id))
    (hvalue : ∀ {id}, e.node id →
      Agree φ (meaning ctx given id) (meaning ctx' given' (r.node id)))
    (hsymbol : ∀ name, e.symbol name → Agree φ (Meaning.dim ctx (meaning ctx given) (.sym name))
      (Meaning.dim ctx' (meaning ctx' given') (r.symbol name)))
    (hscalar : ∀ id, φ (.expectedScalar id) = φ (.expectedScalar (r.node id)))
    (htensor : ∀ id, φ (.expectedTensor id) = φ (.expectedTensor (r.node id)))
    {id : NodeId} (hid : ctx.graph.Available e id) :
    Agree φ (meaning ctx given id) (meaning ctx' given' (r.node id)) := by
  refine hid.induction (P := fun id => Agree φ (meaning ctx given id) (meaning ctx' given' (r.node id)))
    (fun {id} hid => ?_) fun {avail id o} hall hid hnot hconstant hproducer hop => ?_
  · -- A constant of the inner graph is the same constant in the outer one.
    by_cases hnode : e.node id
    · exact hvalue hnode
    · obtain ⟨v, hv⟩ := hid.resolve_left hnode
      have hlt := Graph.lt_of_constant hv
      have hv' : (ctx'.graph.node (r.node id)).constant? = some v := by rw [emb.constant hlt, hv]
      rw [meaning_of_constant (hgiven.get?_eq_none hnode) hv,
        meaning_of_constant (hgiven'.get?_eq_none (hfresh hnode)) hv', emb.elemSize hlt]
      exact .refl _
  · have hlt := Graph.lt_of_producer hproducer
    rw [meaning_of_producer hc he hgiven hid (hgiven.get?_eq_none hnot) hconstant hproducer,
      meaning_of_producer hc' he' hgiven' (havailable hid) (hgiven'.get?_eq_none (hfresh hnot))
        ((emb.constant hlt).trans hconstant) (emb.producer hproducer), emb.op (hc _ _ hproducer).1]
    have hrelates : Meaning.Relates φ r e e' avail ctx ctx' (meaning ctx given)
        (meaning ctx' given') :=
      ⟨emb, fun other h => (hall other h).1.lt he, fun other h => (hall other h).2, hsymbol, hscalar,
        htensor⟩
    exact hrelates.agree_operator hc hop hlt

end Equations

end TensorKernel
