import TensorKernel.Eval.Evaluator
import TensorKernel.Proofs.Graph.Acyclic

/-!
# What evaluation asks for

The rules of evaluation are given a function `need` for the values of other nodes.  A rule does not
look at `need` except at the nodes that it asks for, so two functions that agree there make no
difference.  The main statement is `Evaluator.nodeRule_congr`: evaluating a node asks only for nodes
that it needs.
-/

namespace TensorKernel

namespace Evaluator

variable {ctx : EvalContext} {need need' : NodeId → EvalM Value}

/-! ## Operands -/

theorem scalar_congr {id : NodeId} (h : need id = need' id) :
    scalar need id = scalar need' id := by
  simp only [scalar, h]

theorem tensor_congr {id : NodeId} (h : need id = need' id) :
    tensor need id = tensor need' id := by
  simp only [tensor, h]

theorem index_congr {id : NodeId} (h : need id = need' id) (size : Nat) :
    index need id size = index need' id size := by
  simp only [index, scalar_congr h]

theorem indices_congr {ids : List NodeId} (h : ∀ id ∈ ids, need id = need' id) :
    ∀ sizes, indices need ids sizes = indices need' ids sizes := by
  induction ids with
  | nil => exact fun _ => rfl
  | cons id ids ih =>
    obtain ⟨hid, hids⟩ := List.forall_mem_cons.mp h
    intro sizes
    cases sizes with
    | nil => rfl
    | cons size sizes => simp only [indices, index_congr hid, ih hids]

theorem dim_congr {d : Dim} (h : ∀ id, d = .node id → need id = need' id) :
    dim ctx need d = dim ctx need' d := by
  cases d with
  | const n | sym name => rfl
  | node id => simp only [dim, scalar_congr (h id rfl)]

theorem dims_congr {shape : Shape} (h : ∀ id, .node id ∈ shape → need id = need' id) :
    dims ctx need shape = dims ctx need' shape := by
  induction shape with
  | nil => rfl
  | cons d shape ih =>
    have hd : dim ctx need d = dim ctx need' d :=
      dim_congr fun id hid => h id (hid ▸ List.mem_cons_self ..)
    simp only [dims, hd, ih fun id hid => h id (List.mem_cons_of_mem _ hid)]

theorem prepare_congr {ids : List NodeId} (h : ∀ id ∈ ids, need id = need' id) :
    prepare need ids = prepare need' ids := by
  induction ids with
  | nil => rfl
  | cons id ids ih =>
    obtain ⟨hid, hids⟩ := List.forall_mem_cons.mp h
    simp only [prepare, hid, ih hids]

theorem operands_congr {pairs : List (NodeId × NodeId)}
    (h : ∀ id ∈ pairs.map Prod.fst, need id = need' id) :
    operands need pairs = operands need' pairs := by
  induction pairs with
  | nil => rfl
  | cons pair pairs ih =>
    obtain ⟨hpair, hpairs⟩ := List.forall_mem_cons.mp h
    simp only [operands, tensor_congr hpair, ih hpairs]

/-! ## Bodies -/

theorem bodyOutputs_congr {outputs : List (NodeId × NodeId)}
    (h : ∀ id ∈ outputs.map Prod.fst, need id = need' id) :
    bodyOutputs ctx need outputs = bodyOutputs ctx need' outputs := by
  induction outputs with
  | nil => rfl
  | cons output outputs ih =>
    obtain ⟨houtput, houtputs⟩ := List.forall_mem_cons.mp h
    simp only [bodyOutputs, scalar_congr houtput, ih houtputs]

section Body

variable {rule : Body} (h : ∀ id ∈ rule.reads, need id = need' id)
include h

/-- Running a body asks for the nodes that it computes. -/
theorem body_congr : body ctx need rule = body ctx need' rule := by
  have houtputs : bodyOutputs ctx need rule.outputs = bodyOutputs ctx need' rule.outputs :=
    bodyOutputs_congr fun id hid => h id (List.mem_append_right _ hid)
  funext placeholders
  simp only [body, houtputs]

theorem elementwiseRows_congr (inputs : List (NodeId × List Nat × Array Literal))
    (rows : List (List Nat)) :
    elementwiseRows ctx need rule inputs rows = elementwiseRows ctx need' rule inputs rows := by
  induction rows with
  | nil => rfl
  | cons idx rows ih => simp only [elementwiseRows, body_congr h, ih]

theorem reduceElements_congr (x acc : NodeId) (axes outShape : List Nat) (data : Array Literal)
    (rows : List (List Nat)) : ∀ i cells,
    reduceElements ctx need rule x acc axes outShape data rows i cells =
      reduceElements ctx need' rule x acc axes outShape data rows i cells := by
  induction rows with
  | nil => exact fun _ _ => rfl
  | cons idx rows ih => exact fun _ _ => by simp only [reduceElements, body_congr h, ih]

end Body

/-! ## Operators -/

theorem elementwise_congr {op : Op} {rule : Body} (hinputs : ∀ id ∈ op.inputs, need id = need' id)
    (hrule : ∀ id ∈ rule.reads, need id = need' id)
    (hdims : ∀ dst ∈ rule.outputs.map Prod.snd, ∀ id, .node id ∈ ctx.graph.shape dst →
      need id = need' id) :
    elementwise ctx need op rule = elementwise ctx need' op rule := by
  have houter : operands need rule.inputs = operands need' rule.inputs :=
    operands_congr fun id hid => hrule id (List.mem_append_left _ (List.mem_append_left _ hid))
  unfold elementwise
  rw [prepare_congr hinputs, houter]
  cases houtputs : rule.outputs with
  | nil => rfl
  | cons output outputs =>
    have hshape : dims ctx need (ctx.graph.shape output.2) =
        dims ctx need' (ctx.graph.shape output.2) :=
      dims_congr (hdims output.2 (List.mem_map_of_mem (houtputs ▸ List.mem_cons_self ..)))
    simp only [hshape, elementwiseRows_congr hrule]

theorem reduction_congr {op : Op} {axes : List Nat} {rule : Body}
    (hinputs : ∀ id ∈ op.inputs, need id = need' id)
    (hrule : ∀ id ∈ rule.reads, need id = need' id) :
    reduction ctx need op axes rule = reduction ctx need' op axes rule := by
  unfold reduction
  split
  · next arg init _ _ _ _ _ _ heq _ _ =>
    have harg : tensor need arg = tensor need' arg := tensor_congr (hinputs arg (by simp [heq]))
    have hinit : scalar need init = scalar need' init :=
      scalar_congr (hinputs init (by simp [heq]))
    simp only [harg, hinit, reduceElements_congr hrule]
  · rfl

theorem starts_congr {selected : List SliceIndex}
    (h : ∀ i ∈ selected, ∀ id ∈ i.nodes, need id = need' id) (shape : List Nat) :
    starts need selected shape = starts need' selected shape := by
  induction shape generalizing selected with
  | nil => simp only [starts]
  | cons size shape ih =>
    cases selected with
    | nil => simp only [starts, ih h]
    | cons i selected =>
      obtain ⟨hi, hselected⟩ := List.forall_mem_cons.mp h
      cases i with
      | element id =>
        simp only [starts, index_congr (hi id (List.mem_cons_self ..)), ih hselected]
      | range lower upper step =>
        have hlower : scalar need lower = scalar need' lower :=
          scalar_congr (hi lower (by simp [SliceIndex.nodes]))
        have hstep : scalar need step = scalar need' step :=
          scalar_congr (hi step (by simp [SliceIndex.nodes]))
        simp only [starts, hlower, hstep, ih hselected]

theorem slice_congr {op : Op} {selected : List SliceIndex} {sizes : Shape}
    (hinputs : ∀ id ∈ op.inputs, need id = need' id)
    (hselected : ∀ i ∈ selected, ∀ id ∈ i.nodes, need id = need' id)
    (hsizes : ∀ id, .node id ∈ sizes → need id = need' id)
    (hdims : ∀ dst ∈ op.outputs, ∀ id, .node id ∈ ctx.graph.shape dst → need id = need' id) :
    slice ctx need op selected sizes = slice ctx need' op selected sizes := by
  unfold slice
  split
  · next target _ dst _ htarget hdst =>
    have hsource : tensor need target = tensor need' target :=
      tensor_congr (hinputs target (by simp [htarget]))
    have hshape : dims ctx need (ctx.graph.shape dst) = dims ctx need' (ctx.graph.shape dst) :=
      dims_congr (hdims dst (by simp [hdst]))
    simp only [hsource, dims_congr hsizes, starts_congr hselected, hshape]
  · rfl

/-- Evaluating an operator asks for what it reads and for the dimensions of its result. -/
theorem operator_congr {op : Op} (h : ∀ other, ctx.graph.Asks op other → need other = need' other) :
    operator ctx need op = operator ctx need' op := by
  have hinputs : ∀ id ∈ op.inputs, need id = need' id := fun id hid =>
    h id (Or.inl (List.mem_append_left _ hid))
  have hkind : ∀ id ∈ op.kind.reads, need id = need' id := fun id hid =>
    h id (Or.inl (List.mem_append_right _ hid))
  have hdims : ∀ dst ∈ op.outputs ++ op.kind.results, ∀ id, .node id ∈ ctx.graph.shape dst →
      need id = need' id := fun dst hdst id hid => h id (Or.inr ⟨dst, hdst, hid⟩)
  -- Operators with too few operands or without a result ask for nothing and fail.
  obtain ⟨kind, inputs, outputs⟩ := op
  cases outputs with
  | nil => rfl
  | cons dst outputs =>
    cases kind with
    | unary unop =>
      cases inputs with
      | nil => rfl
      | cons arg inputs => simp only [operator, scalar_congr (hinputs arg (by simp))]
    | binary binop =>
      match inputs with
      | [] | [_] => rfl
      | lhs :: rhs :: inputs =>
        simp only [operator, scalar_congr (hinputs lhs (by simp)),
          scalar_congr (hinputs rhs (by simp))]
    | elementwise rule =>
      exact elementwise_congr hinputs hkind fun dst hdst =>
        hdims dst (List.mem_append_right _ hdst)
    | reduction axes rule init =>
      exact reduction_congr hinputs fun id hid => hkind id (List.mem_append_left _ hid)
    | getItem =>
      cases inputs with
      | nil => rfl
      | cons target inputs =>
        obtain ⟨htarget, hindices⟩ := List.forall_mem_cons.mp hinputs
        simp only [operator, tensor_congr htarget, indices_congr hindices]
    | setItem =>
      match inputs with
      | [] | [_] => rfl
      | target :: value :: inputs =>
        obtain ⟨htarget, hrest⟩ := List.forall_mem_cons.mp hinputs
        obtain ⟨hvalue, hindices⟩ := List.forall_mem_cons.mp hrest
        simp only [operator, tensor_congr htarget, scalar_congr hvalue, indices_congr hindices]
    | slice selected sizes =>
      refine slice_congr hinputs (fun i hi id hid => ?_) (fun id hid => ?_) fun dst hdst =>
        hdims dst (List.mem_append_left _ hdst)
      · exact hkind id (List.mem_append_left _ (List.mem_flatMap.mpr ⟨i, hi, hid⟩))
      · exact hkind id (List.mem_append_right _ (List.mem_filterMap.mpr ⟨_, hid, rfl⟩))
    | copy | deepCopy =>
      cases inputs with
      | nil => rfl
      | cons src inputs => simp only [operator, hinputs src (List.mem_cons_self ..)]

/-- Evaluating a node asks only for nodes that it needs. -/
theorem nodeRule_congr {e : Entry} (hv : ctx.graph.Valid e) (hs : ctx.graph.Settled e) {id : NodeId}
    (h : ∀ other, ctx.graph.Needs id other → need other = need' other) :
    nodeRule ctx need id = nodeRule ctx need' id := by
  cases hconstant : (ctx.graph.node id).constant? with
  | some v => simp only [nodeRule, hconstant]
  | none =>
    cases hproducer : (ctx.graph.node id).producer with
    | none => simp only [nodeRule, hconstant, hproducer]
    | some o =>
      have hop : operator ctx need (ctx.graph.op o) = operator ctx need' (ctx.graph.op o) :=
        operator_congr fun other hasks => h other (hv.needs_of_asks hs hproducer hasks)
      simp only [nodeRule, hconstant, hproducer, hop]

end Evaluator

end TensorKernel
