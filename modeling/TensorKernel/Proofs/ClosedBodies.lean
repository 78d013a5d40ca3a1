import TensorKernel.Proofs.Build.Instantiation
import TensorKernel.Proofs.Build.Registry
import TensorKernel.Proofs.Graph.Acyclic

/-!
# Bodies of built graphs are closed

A graph keeps the nodes of all bodies in one place, so that a body is closed has to follow from how
graphs are built: by adding operators with their bodies, and by splicing in graphs that were built
before.  `Graph.Enclosed` holds of every built graph for that reason.  Here it becomes what a reader of
a body relies on: going back from the result of a body (`Graph.Within`) ends at its own placeholders and
at scalars that its operator reads, and nothing outside reads a placeholder.

Nothing is said of the order of the nodes: the operators of a spliced graph stand before the ones that
compute its parameters.
-/

namespace TensorKernel

namespace Graph

/--
The nodes that are reached from the result of the body of an operator by going back from a node to what
its operator reads.  The way ends at the scalars that the operator of the body has as inputs.
-/
inductive Within (g : Graph) (o : OpId) : NodeId → Prop
  | result {id : NodeId} (h : id ∈ (g.op o).kind.inner) : Within g o id
  | back {id other : NodeId} {p : OpId} (h : Within g o id)
      (hinside : ¬ (id ∈ (g.op o).inputs ∧ g.isScalar id = true))
      (hproducer : (g.node id).producer = some p) (hread : other ∈ (g.op p).reads) :
      Within g o other

variable {g : Graph} {e : Entry}

/-- A place outside of the graph has no body. -/
theorem lt_of_inner {o : OpId} {id : NodeId} (h : id ∈ (g.op o).kind.inner) :
    o.index < g.ops.size := by
  by_contra hge
  rw [op_of_size_le (Nat.le_of_not_lt hge)] at h
  cases h

/-- An operator on scalars has no body. -/
theorem ScalarOp.no_body {ok : NodeId → Prop} {op : Op} {dst : NodeId} (h : g.ScalarOp ok op dst) :
    op.kind.reads = [] ∧ op.kind.inner = [] := by
  cases h <;> exact ⟨rfl, rfl⟩

/-- What an operator on scalars reads is a scalar with the condition. -/
theorem ScalarOp.of_reads {ok : NodeId → Prop} {op : Op} {dst : NodeId} (h : g.ScalarOp ok op dst) :
    ∀ other ∈ op.reads, ok other ∧ g.isScalar other = true := by
  intro other hread
  rw [Op.reads, h.no_body.1, List.append_nil] at hread
  cases h with
  | unary harg sarg _ _ => exact List.mem_singleton.mp hread ▸ ⟨harg, sarg⟩
  | binary hlhs hrhs slhs srhs _ _ =>
    rcases List.mem_cons.mp hread with rfl | hread
    · exact ⟨hlhs, slhs⟩
    · exact List.mem_singleton.mp hread ▸ ⟨hrhs, srhs⟩

namespace Enclosed

variable (h : g.Enclosed e) (hv : g.Valid e) (hs : g.Settled e)
include h hv hs

/-- An operator computes its output in a well-formed way, or it belongs to a body. -/
theorem op_cases {o : OpId} (ho : o.index < g.ops.size) :
    ∃ dst, g.Computes e (g.Available e) (g.op o) dst ∨ ∃ ok, g.ScalarOp ok (g.op o) dst := by
  obtain ⟨dst, -, hproducer⟩ := h.single o ho
  exact ⟨dst, (hv.op_cases hs hproducer).imp_left And.right⟩

/-- The operator of a body is of a well-formed kind. -/
theorem opValid_of_inner {o : OpId} {id : NodeId} (hid : id ∈ (g.op o).kind.inner) :
    ∃ dst, g.OpValid e (g.Available e) (g.op o) dst := by
  obtain ⟨dst, hop | ⟨ok, hop⟩⟩ := h.op_cases hv hs (lt_of_inner hid)
  · exact ⟨dst, hop.valid⟩
  · rw [hop.no_body.2] at hid
    cases hid

/--
What is reached inside a body is its result, which an operator on scalars computes, one of its
placeholders, or a scalar that its operator reads.
-/
theorem within_cases {o : OpId} {id : NodeId} (hid : g.Within o id) :
    g.isScalar id = true ∧ (id ∈ (g.op o).kind.inner ∨ id ∈ (g.op o).kind.placeholders ∨
      g.Available e id ∧ id ∈ (g.op o).inputs) := by
  induction hid with
  | @result id hinner =>
    obtain ⟨dst, hop⟩ := h.opValid_of_inner hv hs hinner
    obtain ⟨p, -, hscalar, -⟩ := hop.inner id hinner
    exact ⟨hscalar.isScalar, Or.inl hinner⟩
  | @back id other p hwithin hinside hproducer hread ih =>
    obtain ⟨hid, hinner | hhole | ⟨-, hinput⟩⟩ := ih
    · obtain ⟨dst, hop⟩ := h.opValid_of_inner hv hs hinner
      obtain ⟨p', hproducer', hscalar, -⟩ := hop.inner id hinner
      obtain rfl := Option.some.inj (hproducer.symm.trans hproducer')
      obtain ⟨hother, hisScalar⟩ := hscalar.of_reads other hread
      exact ⟨hisScalar, Or.inr hother⟩
    · -- Nothing computes a placeholder, so the way does not go on there.
      rw [(h.hole hhole).producer] at hproducer
      cases hproducer
    · exact absurd ⟨hinput, hid⟩ hinside

/-- Going back inside a body reaches no placeholder of another one. -/
theorem owner_of_within {o p : OpId} {x : NodeId} (hx : g.Within o x)
    (hp : x ∈ (g.op p).kind.placeholders) : p = o := by
  have hhole := h.hole hp
  obtain ⟨-, hinner | hplaceholder | ⟨havailable, -⟩⟩ := h.within_cases hv hs hx
  · obtain ⟨dst, hop⟩ := h.opValid_of_inner hv hs hinner
    obtain ⟨q, hproducer, -⟩ := hop.inner x hinner
    rw [hhole.producer] at hproducer
    cases hproducer
  · exact h.unique hp hplaceholder
  · exact absurd havailable (hhole.not_available hv.coherent)

/-- Going back inside a body ends at its placeholders and at scalars that its operator reads. -/
theorem end_of_within {o : OpId} {x : NodeId} (hx : g.Within o x)
    (hproducer : (g.node x).producer = none) :
    x ∈ (g.op o).kind.placeholders ∨ x ∈ (g.op o).inputs := by
  obtain ⟨-, hinner | hplaceholder | ⟨-, hinput⟩⟩ := h.within_cases hv hs hx
  · obtain ⟨dst, hop⟩ := h.opValid_of_inner hv hs hinner
    obtain ⟨q, hsome, -⟩ := hop.inner x hinner
    rw [hproducer] at hsome
    cases hsome
  · exact Or.inl hplaceholder
  · exact Or.inr hinput

/--
An operator that asks for a placeholder is the one whose body it belongs to, which does not take it as
an input, or the one that computes the result of that body.
-/
theorem reader_cases {o p : OpId} {x : NodeId} (hx : x ∈ (g.op o).kind.placeholders)
    (hasks : g.Asks (g.op p) x) :
    p = o ∧ x ∉ (g.op p).inputs ∨
      ∃ inner ∈ (g.op o).kind.inner, (g.node inner).producer = some p := by
  have hhole := h.hole hx
  have hblocked := hhole.not_available hv.coherent
  by_cases hp : p.index < g.ops.size
  -- Either the operator computes something available, or it computes the result of some body.
  · obtain ⟨dst, hop | ⟨ok, hop⟩⟩ := h.op_cases hv hs hp
    · left
      have hinputs : x ∉ (g.op p).inputs := fun hmem => hblocked (hop.valid.inputs x hmem)
      refine ⟨?_, hinputs⟩
      rcases hasks with hread | ⟨node, hnode, hdim⟩
      · rcases hop.valid.reads x hread with hid | hid | hid
        · exact absurd hid hblocked
        · exact h.unique hid hx
        · obtain ⟨q, hsome, -⟩ := hop.valid.inner x hid
          rw [hhole.producer] at hsome
          cases hsome
      · -- The dimensions of what is computed are known outside of bodies.
        obtain rfl := hop.valid.eq_of_mem hnode
        exact absurd (hop.dims _ hdim).avail hblocked
    · right
      rcases hasks with hread | ⟨node, hnode, hdim⟩
      · rw [Op.reads, hop.no_body.1, List.append_nil] at hread
        exact h.reader hx hread
      · obtain rfl := (OpValid.scalar (e := e) hop).eq_of_mem hnode
        exact absurd hdim (not_mem_shape_of_isScalar hop.isScalar _)
  · rw [op_of_size_le (Nat.le_of_not_lt hp)] at hasks
    rcases hasks with hread | ⟨node, hnode, -⟩
    · cases hread
    · cases hnode

omit hs in
/-- An operator computes its outputs, and nothing else does. -/
theorem producer_iff {o : OpId} {id : NodeId} : (g.node id).producer = some o ↔
    id ∈ (g.op o).outputs ∧ o.index < g.ops.size := by
  constructor
  · intro hproducer
    obtain ⟨hlt, houtputs⟩ := hv.coherent id o hproducer
    exact ⟨by simp [houtputs], hlt⟩
  · rintro ⟨hmem, hlt⟩
    obtain ⟨dst, houtputs, hproducer⟩ := h.single o hlt
    rw [houtputs] at hmem
    exact List.mem_singleton.mp hmem ▸ hproducer

/-- What nothing computes is given, a constant or a placeholder. -/
theorem idle_iff (hresult : ∀ id, ¬ e.result id) {id : NodeId} (hlt : id.index < g.nodes.size) :
    (g.node id).producer = none ↔ e.node id ∨ (∃ v, (g.node id).constant? = some v) ∨
      ∃ o, id ∈ (g.op o).kind.placeholders := by
  constructor
  · intro hproducer
    by_cases hgiven : e.node id
    · exact Or.inl hgiven
    · right
      cases hconstant : (g.node id).constant? with
      | some v => exact Or.inl ⟨v, rfl⟩
      | none => exact Or.inr (h.owner ⟨hlt, hgiven, hresult id, hproducer, hconstant⟩)
  · rintro (hgiven | ⟨v, hconstant⟩ | ⟨o, hx⟩)
    · exact hv.entry.producer hgiven
    · by_contra hsome
      rw [hs.computed hsome] at hconstant
      cases hconstant
    · exact (h.hole hx).producer

end Enclosed

end Graph

/-! ## Built graphs -/

/-- Nodes are computed once, and the bodies of operators are closed. -/
structure FunctionGraph.BodiesClosed (f : FunctionGraph) : Prop where
  /-- Every operator has one output. -/
  output : ∀ o : OpId, o.index < f.graph.ops.size → ∃ dst, (f.graph.op o).outputs = [dst]
  /-- What computes a node is the only operator with the node as an output. -/
  producer : ∀ (o : OpId) (id : NodeId), (f.graph.node id).producer = some o ↔
    id ∈ (f.graph.op o).outputs ∧ o.index < f.graph.ops.size
  /-- Inputs, shape symbols, constants and placeholders are the nodes that nothing computes. -/
  idle : ∀ id : NodeId, id.index < f.graph.nodes.size → ((f.graph.node id).producer = none ↔
    (id ∈ f.inputs.map Prod.snd ∨ ∃ p ∈ f.symbols.entries, p.2.node = id) ∨
      (∃ v, (f.graph.node id).constant? = some v) ∨
      ∃ o, id ∈ (f.graph.op o).kind.placeholders)
  /-- A placeholder belongs to one body, in one place. -/
  unique : ∀ (o p : OpId) (x : NodeId), x ∈ (f.graph.op o).kind.placeholders →
    x ∈ (f.graph.op p).kind.placeholders → p = o
  nodup : ∀ o : OpId, (f.graph.op o).kind.placeholders.Nodup
  /-- Only scalars are reached inside a body. -/
  scalar : ∀ (o : OpId) (x : NodeId), f.graph.Within o x → f.graph.isScalar x = true
  /-- No placeholder of another body is reached. -/
  own : ∀ (o p : OpId) (x : NodeId), f.graph.Within o x → x ∈ (f.graph.op p).kind.placeholders →
    p = o
  /-- The way back ends at placeholders and at scalars that the operator of the body reads. -/
  ends : ∀ (o : OpId) (x : NodeId), f.graph.Within o x → (f.graph.node x).producer = none →
    x ∈ (f.graph.op o).kind.placeholders ∨ x ∈ (f.graph.op o).inputs
  /-- Outside of its body nothing asks for a placeholder. -/
  reader : ∀ (o p : OpId) (x : NodeId), x ∈ (f.graph.op o).kind.placeholders →
    f.graph.Asks (f.graph.op p) x → p = o ∧ x ∉ (f.graph.op p).inputs ∨
      ∃ inner ∈ (f.graph.op o).kind.inner, (f.graph.node inner).producer = some p

/--
In a graph that was built nodes are computed once, and the bodies of operators are closed.  This
includes the bodies that came with the graphs of other functions, however deep their calls are nested.
-/
theorem buildGraph_bodiesClosed {defs : List FunctionDef} {main : String} {options : Options}
    {f : FunctionGraph} (h : buildGraph defs main options = .ok f) : f.BodiesClosed := by
  have hformed := buildGraph_formed h
  have hv := hformed.wellFormed.valid
  have hs := (buildGraph_settled h).graph
  have henclosed := hformed.enclosed trivial
  refine ⟨fun o ho => ?_, fun o id => henclosed.producer_iff hv,
    fun id hlt => henclosed.idle_iff hv hs (fun _ h => h) hlt, fun o p x ho hp => ?_,
    henclosed.nodup, fun o x hx => (henclosed.within_cases hv hs hx).1,
    fun o p x hx hp => henclosed.owner_of_within hv hs hx hp,
    fun o x hx hproducer => henclosed.end_of_within hv hs hx hproducer,
    fun o p x hx hasks => henclosed.reader_cases hv hs hx hasks⟩
  · obtain ⟨dst, houtputs, -⟩ := henclosed.single o ho
    exact ⟨dst, houtputs⟩
  · exact henclosed.unique hp ho

/--
A kernel that calls another one, which sums up what a third one computes from it.  The body of the third
one multiplies each element by a scalar from outside; it is copied twice.
-/
def nestedCalls : List FunctionDef :=
  let name (id : String) : Expr := .name id .nowhere
  let vector (size : String) : Option Expr :=
    some (.subscript (name "int64") (name size) .nowhere)
  let scalar : Option Expr := some (name "int64")
  let scaled : Expr := .call (name "scale") [name "y", name "k"] [] .nowhere
  [⟨"main", [⟨"x", vector "N", .nowhere⟩, ⟨"w", scalar, .nowhere⟩], .missing,
      [.returns (some (.call (name "total") [name "x", name "w"] [] .nowhere)) .nowhere], .nowhere⟩,
    ⟨"total", [⟨"y", vector "K", .nowhere⟩, ⟨"k", scalar, .nowhere⟩], .missing,
      [.returns (some (.call (.member (name "np") "sum" .nowhere) [scaled] [] .nowhere)) .nowhere],
      .nowhere⟩,
    ⟨"scale", [⟨"z", vector "M", .nowhere⟩, ⟨"c", scalar, .nowhere⟩], .missing,
      [.returns (some (.binary (name "z") .mul (name "c") .nowhere)) .nowhere], .nowhere⟩]

theorem buildGraph_bodiesClosed_nestedCalls :
    ∃ f, buildGraph nestedCalls "main" .default = .ok f ∧
      (f.graph.op ⟨1⟩).kind.placeholders = [⟨9⟩] ∧
      (f.graph.op ⟨6⟩).kind.placeholders = [⟨13⟩, ⟨14⟩] ∧
      f.graph.Within ⟨1⟩ ⟨8⟩ ∧ f.BodiesClosed := by
  have hbuilds : (buildGraph nestedCalls "main" .default).toOption.any (fun f =>
      decide (((f.graph.op ⟨1⟩).kind.placeholders = [⟨9⟩] ∧
        (f.graph.op ⟨6⟩).kind.placeholders = [⟨13⟩, ⟨14⟩]) ∧
        ⟨10⟩ ∈ (f.graph.op ⟨1⟩).kind.inner ∧ ⟨10⟩ ∉ (f.graph.op ⟨1⟩).inputs ∧
        (f.graph.node ⟨10⟩).producer = some ⟨0⟩ ∧ ⟨8⟩ ∈ (f.graph.op ⟨0⟩).reads)) = true := by
    decide +kernel
  obtain ⟨f, hbuild, hchecks⟩ := exists_of_any_toOption hbuilds
  obtain ⟨⟨hscale, hsum⟩, hinner, hinside, hproducer, hread⟩ := of_decide_eq_true hchecks
  have hscalar : f.graph.Within ⟨1⟩ ⟨8⟩ :=
    .back (.result hinner) (fun h => hinside h.1) hproducer hread
  exact ⟨f, hbuild, hscale, hsum, hscalar, buildGraph_bodiesClosed hbuild⟩

end TensorKernel
