import TensorKernel.Proofs.Eval.Memory

/-!
# Steps of evaluation

Every step of evaluation has the result that the meaning of the nodes it needs gives, as long as
the scopes are a memory of meanings.  The body of an operator runs in a scope of its own, which is
dropped, so it leaves the memory as it was.

The steps are taken for any function that gives the values of other nodes, of which `Answers` is
asked.
-/

namespace TensorKernel

namespace Evaluator

variable {ctx : EvalContext} {given : GivenValues} {e : Entry} {s : List EvalScope}

/-! ## Steps that do not touch the scopes -/

section Pure

variable {α β γ : Type}

theorem run_bind_of_run {m : EvalM α} {x : Except EvalFault γ} {g : γ → α} (f : α → EvalM β) :
    run m s = (x.map g, s) → run (m >>= f) s =
      match x with
      | .ok c => run (f (g c)) s
      | .error fault => (.error fault, s) := by
  intro h
  rw [run_bind, h]
  cases x <;> rfl

theorem run_element (data : Array Literal) (i : Nat) :
    run (element data i) s = (Meaning.element data i, s) := by
  unfold element Meaning.element
  cases data[i]? <;> rfl

theorem run_ofArithmetic (x : Except ArithmeticFault α) :
    run (ofArithmetic x) s = (Meaning.ofArithmetic x, s) := by
  cases x <;> rfl

theorem run_elements (idx : List Nat) {holes : List NodeId} :
    ∀ {ops : List (List Nat × Array Literal)}, holes.length = ops.length →
      run (elements idx (holes.zip ops)) s =
        ((Meaning.elements ops idx).map fun elems => holes.zip elems, s) := by
  induction holes with
  | nil =>
    intro ops hlength
    obtain rfl := List.length_eq_zero_iff.mp hlength.symm
    rfl
  | cons hole holes ih =>
    intro ops hlength
    cases ops with
    | nil => cases hlength
    | cons op ops =>
      obtain ⟨shape, data⟩ := op
      have hrest := ih (Nat.succ.inj hlength)
      unfold Meaning.elements at hrest ⊢
      rw [List.mapM_cons]
      show run (element data _ >>= _) s = _
      rw [run_bind, run_element]
      cases Meaning.element data (Index.place shape (Index.broadcast shape idx)) with
      | error fault => rfl
      | ok v =>
        refine (run_bind_of_run _ hrest).trans ?_
        cases hops : ops.mapM fun op =>
          Meaning.element op.2 (Index.place op.1 (Index.broadcast op.1 idx)) with
        | error fault => rfl
        | ok elems => rfl

theorem run_sourceIndex {idx : List Nat} : ∀ {steps : List (Int64 × Int64)} {sizes : List Nat},
    run (sourceIndex idx steps sizes) s = (Meaning.sourceIndex idx steps sizes, s) := by
  induction idx with
  | nil => exact rfl
  | cons i idx ih =>
    intro steps sizes
    cases steps with
    | nil => rfl
    | cons step steps =>
      cases sizes with
      | nil => rfl
      | cons size sizes =>
        obtain ⟨start, stride⟩ := step
        unfold sourceIndex Meaning.sourceIndex
        dsimp only
        split
        · rw [run_bind, ih]
          cases Meaning.sourceIndex idx steps sizes <;> rfl
        · rfl

theorem run_sliceElements (steps : List (Int64 × Int64)) (shape : List Nat) (data : Array Literal)
    (idxs : List (List Nat)) :
    run (sliceElements steps shape data idxs) s =
      (idxs.mapM (Meaning.sliceElement steps shape data), s) := by
  induction idxs with
  | nil => rfl
  | cons idx rest ih =>
    rw [List.mapM_cons]
    unfold sliceElements Meaning.sliceElement
    rw [run_bind, run_sourceIndex]
    cases Meaning.sourceIndex idx steps shape with
    | error fault => rfl
    | ok source =>
      show run (element data _ >>= _) s = _
      rw [run_bind, run_element]
      show _ = ((Meaning.element data _ >>= _), s)
      cases Meaning.element data (Index.place shape source) with
      | error fault => rfl
      | ok v =>
        show run (sliceElements steps shape data rest >>= _) s = _
        rw [run_bind, ih]
        show _ = ((rest.mapM (Meaning.sliceElement steps shape data) >>= _), s)
        cases rest.mapM (Meaning.sliceElement steps shape data) <;> rfl

/-- The only column of rows of one element each. -/
theorem filterMap_singletons (data : List Literal) :
    (data.map ([·])).filterMap (fun row => row[0]?) = data := by
  induction data with
  | nil => rfl
  | cons v data ih => exact congrArg (v :: ·) ih

end Pure

/-! ## Bodies -/

/-- A scope in which placeholders stand for elements. -/
def bodyScope (holes : List NodeId) (elems : List Literal) : EvalScope :=
  .ofList ((holes.zip elems).map fun entry => (entry.1, .scalar entry.2))

theorem get?_bodyScope (holes : List NodeId) (elems : List Literal) (id : NodeId) :
    (bodyScope holes elems).get? id =
      ((Scope.ofList (holes.zip elems)).get? id).map Value.scalar := by
  have hlookup : ∀ pairs : List (NodeId × Literal),
      Table.lookup id (pairs.map fun p => (p.1, Value.scalar p.2)) =
        (Table.lookup id pairs).map Value.scalar := by
    intro pairs
    induction pairs with
    | nil => rfl
    | cons pair rest ih =>
      simp only [List.map_cons, Table.lookup, ih]
      split <;> rfl
  simp only [bodyScope, Scope.get?, Scope.ofList, ← List.map_reverse, hlookup]

/-- The function that gives the values of other nodes has their meaning as its result. -/
structure Answers (ctx : EvalContext) (given : GivenValues) (e : Entry) (n : Nat)
    (need : NodeId → EvalM Value) : Prop where
  available : ∀ {s id}, Memory ctx given e s → ctx.graph.AvailableAt e n id →
    Follows ctx given e (need id) s (meaning ctx given id) fun v s' => lookup s' id = some v
  body : ∀ {s outer pairs inner elems}, Memory ctx given e s →
    ctx.graph.BodyValid e (ctx.graph.AvailableAt e n) outer pairs inner →
    (∀ id ∈ outer, (lookup s id).isSome) → pairs.length = elems.length →
    ∃ scope, run (need inner) (bodyScope (pairs.map Prod.snd) elems :: s) =
      ((Meaning.innerValue ctx (meaning ctx given) (pairs.map Prod.snd) inner elems).map .scalar,
        scope :: s)

section Rules

variable {n : Nat} {need : NodeId → EvalM Value} (h : Answers ctx given e n need)
  (hs : Memory ctx given e s)
include h hs

theorem run_body {outer : List NodeId} {pairs : List (NodeId × NodeId)} {inner dst : NodeId}
    (elems : List Literal)
    (hbody : ctx.graph.BodyValid e (ctx.graph.AvailableAt e n) outer pairs inner)
    (houter : ∀ id ∈ outer, (lookup s id).isSome) (hlength : pairs.length = elems.length) :
    run (body ctx need ⟨pairs, [(inner, dst)]⟩ ((pairs.map Prod.snd).zip elems)) s =
      ((Meaning.body ctx (meaning ctx given) (pairs.map Prod.snd) inner dst elems).map ([·]),
        s) := by
  obtain ⟨scope, hrun⟩ := h.body hs hbody houter hlength
  have hsteps : run (bodyOutputs ctx need [(inner, dst)])
      (bodyScope (pairs.map Prod.snd) elems :: s) =
      ((Meaning.body ctx (meaning ctx given) (pairs.map Prod.snd) inner dst elems).map ([·]),
        scope :: s) := by
    unfold bodyOutputs scalar Meaning.body
    rw [run_bind, run_bind, hrun]
    cases Meaning.innerValue ctx (meaning ctx given) (pairs.map Prod.snd) inner elems <;> rfl
  have hscope : run (body ctx need ⟨pairs, [(inner, dst)]⟩ ((pairs.map Prod.snd).zip elems)) s =
      ((run (bodyOutputs ctx need [(inner, dst)]) (bodyScope (pairs.map Prod.snd) elems :: s)).1,
        (run (bodyOutputs ctx need [(inner, dst)])
          (bodyScope (pairs.map Prod.snd) elems :: s)).2.tail) := rfl
  rw [hscope, hsteps]
  rfl

theorem follows_need {id : NodeId} (hid : ctx.graph.AvailableAt e n id) :
    Follows ctx given e (need id) s (meaning ctx given id) fun _ s' => (lookup s' id).isSome :=
  (h.available hs hid).mono fun v s' hv => by rw [hv]; rfl

theorem follows_scalar {id : NodeId} (hid : ctx.graph.AvailableAt e n id) :
    Follows ctx given e (scalar need id) s (Meaning.scalar (meaning ctx given) id)
      fun _ _ => True := by
  refine (follows_need h hs hid).bind fun v s' _ hs' _ _ => ?_
  cases v with
  | scalar v => exact follows_pure hs' trivial
  | tensor shape data => exact follows_throw hs' _

theorem follows_tensor {id : NodeId} (hid : ctx.graph.AvailableAt e n id) :
    Follows ctx given e (tensor need id) s (Meaning.tensor (meaning ctx given) id)
      fun _ _ => True := by
  refine (follows_need h hs hid).bind fun v s' _ hs' _ _ => ?_
  cases v with
  | scalar v => exact follows_throw hs' _
  | tensor shape data => exact follows_pure hs' trivial

theorem follows_index {id : NodeId} (hid : ctx.graph.AvailableAt e n id) (size : Nat) :
    Follows ctx given e (index need id size) s (Meaning.index (meaning ctx given) id size)
      fun _ _ => True := by
  refine (follows_scalar h hs hid).bind fun v s' _ hs' _ _ => ?_
  exact follows_ite (fun _ => follows_pure hs' trivial) fun _ => follows_throw hs' _

omit hs in
theorem follows_indices {ids : List NodeId} : ∀ {sizes : List Nat} {s : List EvalScope},
    Memory ctx given e s → (∀ id ∈ ids, ctx.graph.AvailableAt e n id) →
    Follows ctx given e (indices need ids sizes) s (Meaning.indices (meaning ctx given) ids sizes)
      fun _ _ => True := by
  induction ids with
  | nil => exact fun hs _ => follows_pure hs trivial
  | cons id ids ih =>
    intro sizes s hs hids
    cases sizes with
    | nil => exact follows_pure hs trivial
    | cons size sizes =>
      refine (follows_index h hs (hids id (List.mem_cons_self ..)) size).bind
        fun i s₁ _ hs₁ _ _ => ?_
      refine (ih hs₁ fun id hid => hids id (List.mem_cons_of_mem _ hid)).bind
        fun is s₂ _ hs₂ _ _ => ?_
      exact follows_pure hs₂ trivial

theorem follows_dim {d : Dim} (hd : ctx.graph.DimValid e (ctx.graph.AvailableAt e n) d) :
    Follows ctx given e (dim ctx need d) s (Meaning.dim ctx (meaning ctx given) d)
      fun _ _ => True := by
  cases d with
  | const k => exact follows_pure hs trivial
  | sym name =>
    simp only [dim, Meaning.dim]
    cases ctx.sizes.get? name with
    | none => exact follows_throw hs _
    | some k => exact follows_pure hs trivial
  | node id =>
    refine (follows_scalar h hs hd.avail).bind fun v s' _ hs' _ _ => ?_
    exact follows_pure hs' trivial

omit hs in
theorem follows_dims {shape : Shape} : ∀ {s : List EvalScope}, Memory ctx given e s →
    (∀ d ∈ shape, ctx.graph.DimValid e (ctx.graph.AvailableAt e n) d) →
    Follows ctx given e (dims ctx need shape) s (Meaning.dims ctx (meaning ctx given) shape)
      fun _ _ => True := by
  induction shape with
  | nil => exact fun hs _ => follows_pure hs trivial
  | cons d shape ih =>
    intro s hs hshape
    unfold Meaning.dims
    rw [List.mapM_cons]
    refine (follows_dim h hs (hshape d (List.mem_cons_self ..))).bind fun k s₁ _ hs₁ _ _ => ?_
    refine (ih hs₁ fun d hd => hshape d (List.mem_cons_of_mem _ hd)).bind
      fun ks s₂ _ hs₂ _ _ => ?_
    exact follows_pure hs₂ trivial

omit hs in
/-- The operands of a body are the tensors that its pairs name. -/
theorem follows_operands {pairs : List (NodeId × NodeId)} : ∀ {s : List EvalScope},
    Memory ctx given e s → (∀ p ∈ pairs, ctx.graph.AvailableAt e n p.1) →
    Follows ctx given e (operands need pairs) s
      ((pairs.mapM fun p => Meaning.tensor (meaning ctx given) p.1).map fun ops =>
        (pairs.map Prod.snd).zip ops) fun _ _ => True := by
  induction pairs with
  | nil => exact fun hs _ => follows_pure hs trivial
  | cons p pairs ih =>
    intro s hs hpairs
    have hmap : ((p :: pairs).mapM fun p => Meaning.tensor (meaning ctx given) p.1).map (fun ops =>
        ((p :: pairs).map Prod.snd).zip ops) = (do
          let op ← Meaning.tensor (meaning ctx given) p.1
          let ops ← (pairs.mapM fun p => Meaning.tensor (meaning ctx given) p.1).map fun ops =>
            (pairs.map Prod.snd).zip ops
          .ok ((p.2, op) :: ops)) := by
      rw [List.mapM_cons]
      cases Meaning.tensor (meaning ctx given) p.1 with
      | error fault => rfl
      | ok op => cases pairs.mapM fun p => Meaning.tensor (meaning ctx given) p.1 <;> rfl
    rw [hmap]
    refine (follows_tensor h hs (hpairs p (List.mem_cons_self ..))).bind fun op s₁ _ hs₁ _ _ => ?_
    refine (ih hs₁ fun q hq => hpairs q (List.mem_cons_of_mem _ hq)).bind
      fun ops s₂ _ hs₂ _ _ => ?_
    exact follows_pure hs₂ trivial

omit hs in
/-- Evaluating nodes for the sake of their values leaves them in the scopes. -/
theorem follows_prepare {ids : List NodeId} : ∀ {s : List EvalScope}, Memory ctx given e s →
    (∀ id ∈ ids, ctx.graph.AvailableAt e n id) →
    Follows ctx given e (prepare need ids) s ((ids.mapM (meaning ctx given)).map fun _ => ())
      fun _ s' => ∀ id ∈ ids, (lookup s' id).isSome := by
  induction ids with
  | nil => exact fun hs _ => follows_pure hs (by simp)
  | cons id ids ih =>
    intro s hs hids
    have hmap : ((id :: ids).mapM (meaning ctx given)).map (fun _ => ()) = (do
        let _ ← meaning ctx given id
        (ids.mapM (meaning ctx given)).map fun _ => ()) := by
      rw [List.mapM_cons]
      cases meaning ctx given id with
      | error fault => rfl
      | ok v => cases ids.mapM (meaning ctx given) <;> rfl
    rw [hmap]
    refine (follows_need h hs (hids id (List.mem_cons_self ..))).bind
      fun v s₁ _ hs₁ _ hid => ?_
    have hrest := ih hs₁ fun id' hid' => hids id' (List.mem_cons_of_mem _ hid')
    refine { hrest with holds := fun a ha id' hid' => ?_ }
    rcases List.mem_cons.mp hid' with rfl | hid'
    · exact hrest.remembers.bound hid
    · exact hrest.holds a ha id' hid'

omit hs in
theorem follows_starts {selected : List SliceIndex} : ∀ {sizes : List Nat} {s : List EvalScope},
    Memory ctx given e s → (∀ i ∈ selected, ∀ id ∈ i.nodes, ctx.graph.AvailableAt e n id) →
    Follows ctx given e (starts need selected sizes) s
      (Meaning.starts (meaning ctx given) selected sizes) fun _ _ => True := by
  induction selected with
  | nil =>
    intro sizes s hs _
    induction sizes with
    | nil => exact follows_pure hs trivial
    | cons size sizes ih =>
      exact ih.bind fun rest s₁ _ hs₁ _ _ => follows_pure hs₁ trivial
  | cons i selected ih =>
    intro sizes s hs hselected
    have hrest := fun j hj => hselected j (List.mem_cons_of_mem _ hj)
    have hhead := hselected i (List.mem_cons_self ..)
    cases sizes with
    | nil => exact follows_pure hs trivial
    | cons size sizes =>
      cases i with
      | element id =>
        refine (follows_index h hs (hhead id (by simp [SliceIndex.nodes])) size).bind
          fun start s₁ _ hs₁ _ _ => ?_
        exact (ih hs₁ hrest).bind fun rest s₂ _ hs₂ _ _ => follows_pure hs₂ trivial
      | range lower upper step =>
        refine (follows_scalar h hs (hhead lower (by simp [SliceIndex.nodes]))).bind
          fun start s₁ _ hs₁ _ _ => ?_
        refine (follows_scalar h hs₁ (hhead step (by simp [SliceIndex.nodes]))).bind
          fun stride s₂ _ hs₂ _ _ => ?_
        exact (ih hs₂ hrest).bind fun rest s₃ _ hs₃ _ _ => follows_pure hs₃ trivial

/-! ## Operators -/

theorem run_elementwiseRows {inputs : List NodeId} {pairs : List (NodeId × NodeId)}
    {inner dst : NodeId} {ops : List (List Nat × Array Literal)}
    (hbody : ctx.graph.BodyValid e (ctx.graph.AvailableAt e n) inputs pairs inner)
    (hinputs : ∀ id ∈ inputs, (lookup s id).isSome) (hlength : ops.length = pairs.length)
    (idxs : List (List Nat)) :
    run (elementwiseRows ctx need ⟨pairs, [(inner, dst)]⟩ ((pairs.map Prod.snd).zip ops) idxs) s =
      ((idxs.mapM fun idx => do
        let elems ← Meaning.elements ops idx
        Meaning.body ctx (meaning ctx given) (pairs.map Prod.snd) inner dst elems).map
          (List.map ([·])), s) := by
  induction idxs with
  | nil => rfl
  | cons idx rest ih =>
    rw [List.mapM_cons]
    unfold elementwiseRows
    rw [run_bind_of_run _ (run_elements idx (by simpa using hlength.symm))]
    cases helems : Meaning.elements ops idx with
    | error fault => rfl
    | ok elems =>
      have hcount := length_of_mapM_ok helems
      dsimp only
      -- The body runs in a scope of its own, so the memory is the same for the next row.
      rw [run_bind_of_run _ (run_body h hs elems hbody hinputs (hlength.symm.trans hcount.symm))]
      show _ = (Except.map _ (Meaning.body ctx (meaning ctx given) (pairs.map Prod.snd) inner dst
        elems >>= _), s)
      cases Meaning.body ctx (meaning ctx given) (pairs.map Prod.snd) inner dst elems with
      | error fault => rfl
      | ok v =>
        refine (run_bind_of_run _ ih).trans ?_
        cases rest.mapM fun idx => do
            let elems ← Meaning.elements ops idx
            Meaning.body ctx (meaning ctx given) (pairs.map Prod.snd) inner dst elems <;> rfl

theorem delivers_elementwise {inputs : List NodeId} {pairs : List (NodeId × NodeId)}
    {inner dst : NodeId} (hdst : ctx.graph.Available e dst)
    (hinputs : ∀ id ∈ inputs, ctx.graph.AvailableAt e n id)
    (houter : ∀ p ∈ pairs, p.1 ∈ inputs)
    (hdims : ∀ d ∈ ctx.graph.shape dst, ctx.graph.DimValid e (ctx.graph.AvailableAt e n) d)
    (hbody : ctx.graph.BodyValid e (ctx.graph.AvailableAt e n) inputs pairs inner) :
    Delivers ctx given e dst
      (elementwise ctx need ⟨.elementwise ⟨pairs, [(inner, dst)]⟩, inputs, [dst]⟩
        ⟨pairs, [(inner, dst)]⟩) s
      (Meaning.elementwise ctx (meaning ctx given) inputs ⟨pairs, [(inner, dst)]⟩) := by
  refine Delivers.bind_map (g := fun _ => ()) (follows_prepare h hs hinputs)
    fun _ s₁ _ hs₁ _ hbound => ?_
  refine Delivers.bind (follows_dims h hs₁ hdims) fun shape s₂ _ hs₂ h₁₂ _ => ?_
  refine Delivers.bind_map (follows_operands h hs₂ fun p hp => hinputs _ (houter p hp))
    fun ops s₃ hops hs₃ h₂₃ _ => ?_
  have hbound₃ : ∀ id ∈ inputs, (lookup s₃ id).isSome := fun id hid =>
    h₂₃.bound (h₁₂.bound (hbound id hid))
  have hrows : run (elementwiseRows ctx need ⟨pairs, [(inner, dst)]⟩ ((pairs.map Prod.snd).zip ops)
      (Index.rowMajor shape)) s₃ = _ :=
    run_elementwiseRows h hs₃ hbody hbound₃ (length_of_mapM_ok hops) (Index.rowMajor shape)
  refine Delivers.bind_map (follows_of_run (R := fun _ _ => True) hs₃ hrows fun _ _ => trivial)
    fun data s₄ _ hs₄ _ _ => ?_
  have hdata : (data.map ([·])).filterMap (fun row => row[0]?) = data := filterMap_singletons data
  intro hmeaning
  have hbind := delivers_bind hs₄ hdst (.tensor shape data.toArray) hmeaning
  unfold bindColumns
  rw [hdata]
  exact hbind

theorem run_reduceElements {arg init x acc inner dst : NodeId} {axes outShape : List Nat}
    {data : Array Literal}
    (hbody : ctx.graph.BodyValid e (ctx.graph.AvailableAt e n) [] [(arg, x), (init, acc)] inner)
    (idxs : List (List Nat)) : ∀ (i : Nat) (cells : Array Literal),
    run (reduceElements ctx need ⟨[(arg, x), (init, acc)], [(inner, dst)]⟩ x acc axes outShape data
        idxs i cells) s =
      (Meaning.fold (fun v cell => Meaning.body ctx (meaning ctx given) [x, acc] inner dst [v, cell])
        axes outShape data idxs i cells, s) := by
  induction idxs with
  | nil => exact fun _ _ => rfl
  | cons idx rest ih =>
    intro i cells
    unfold reduceElements Meaning.fold
    dsimp only
    rw [run_bind, run_element]
    cases Meaning.element data i with
    | error fault => rfl
    | ok v =>
      show run (element cells _ >>= _) s = ((Meaning.element cells _ >>= _), s)
      rw [run_bind, run_element]
      cases Meaning.element cells (Index.place outShape (Graph.withoutAxes axes idx)) with
      | error fault => rfl
      | ok cell =>
        have hstep : run (body ctx need ⟨[(arg, x), (init, acc)], [(inner, dst)]⟩
            [(x, v), (acc, cell)]) s = _ := run_body h hs [v, cell] hbody (by simp) rfl
        refine (run_bind_of_run _ hstep).trans ?_
        show _ = ((Meaning.body ctx (meaning ctx given) [x, acc] inner dst [v, cell] >>= _), s)
        simp only [List.map_cons, List.map_nil]
        cases Meaning.body ctx (meaning ctx given) [x, acc] inner dst [v, cell] with
        | error fault => rfl
        | ok next => exact ih (i + 1) _

theorem delivers_reduction {axes : List Nat} {arg init x acc inner dst : NodeId}
    (hdst : ctx.graph.Available e dst) (harg : ctx.graph.AvailableAt e n arg)
    (hinit : ctx.graph.AvailableAt e n init)
    (hbody : ctx.graph.BodyValid e (ctx.graph.AvailableAt e n) [] [(arg, x), (init, acc)] inner) :
    Delivers ctx given e dst
      (reduction ctx need
        ⟨.reduction axes ⟨[(arg, x), (init, acc)], [(inner, dst)]⟩ [init], [arg, init], [dst]⟩ axes
        ⟨[(arg, x), (init, acc)], [(inner, dst)]⟩) s
      (Meaning.reduction ctx (meaning ctx given) axes arg init [x, acc] inner dst) := by
  refine Delivers.bind (follows_tensor h hs harg) fun operand s₁ _ hs₁ _ _ => ?_
  refine Delivers.bind (follows_scalar h hs₁ hinit) fun start s₂ _ hs₂ _ _ => ?_
  obtain ⟨shape, data⟩ := operand
  refine Delivers.bind (follows_of_run (R := fun _ _ => True) hs₂
    (run_reduceElements h hs₂ hbody _ _ _) fun _ _ => trivial) fun cells s₃ _ hs₃ _ _ => ?_
  intro hmeaning
  split at hmeaning
  · next hscalar =>
    rw [if_pos hscalar, if_pos hscalar]
    refine Delivers.bind (R := fun _ _ => True)
      (follows_of_run hs₃ (run_element cells 0) fun _ _ => trivial)
      (fun v s₄ _ hs₄ _ _ => delivers_bind hs₄ hdst _) hmeaning
  · next hscalar =>
    rw [if_neg hscalar, if_neg hscalar]
    exact delivers_bind hs₃ hdst _ hmeaning

theorem delivers_slice {target dst : NodeId} {selected : List SliceIndex} {sizes : Shape}
    (hdst : ctx.graph.Available e dst) (htarget : ctx.graph.AvailableAt e n target)
    (hselected : ∀ i ∈ selected, ∀ id ∈ i.nodes, ctx.graph.AvailableAt e n id)
    (hsizes : ∀ d ∈ sizes, ctx.graph.DimValid e (ctx.graph.AvailableAt e n) d)
    (hdims : ∀ d ∈ ctx.graph.shape dst, ctx.graph.DimValid e (ctx.graph.AvailableAt e n) d) :
    Delivers ctx given e dst
      (slice ctx need
        ⟨.slice selected sizes, target :: selected.flatMap SliceIndex.nodes, [dst]⟩ selected sizes) s
      (Meaning.slice ctx (meaning ctx given) target selected sizes dst) := by
  refine Delivers.bind (follows_tensor h hs htarget) fun operand s₁ _ hs₁ _ _ => ?_
  obtain ⟨shape, data⟩ := operand
  refine Delivers.bind (follows_dims h hs₁ hsizes) fun counts s₂ _ hs₂ _ _ => ?_
  refine Delivers.bind (follows_starts h hs₂ hselected) fun steps s₃ _ hs₃ _ _ => ?_
  refine Delivers.bind (R := fun _ _ => True) (follows_of_run hs₃
    (run_sliceElements steps shape data _) fun _ _ => trivial) fun out s₄ _ hs₄ _ _ => ?_
  refine Delivers.bind (follows_dims h hs₄ hdims) fun outShape s₅ _ hs₅ _ _ => ?_
  exact delivers_bind hs₅ hdst _

/-- An operator gives the node that it computes the value it means. -/
theorem delivers_operator {op : Op} {dst : NodeId}
    (hdst : ctx.graph.Available e dst)
    (hop : ctx.graph.Computes e (ctx.graph.AvailableAt e n) op dst) :
    Delivers ctx given e dst (operator ctx need op) s
      (Meaning.operator ctx (meaning ctx given) op dst) := by
  obtain ⟨hdims, hvalid⟩ := hop
  cases hvalid with
  | scalar hop =>
    cases hop with
    -- Each operand is delivered by the memory that the previous one left.
    | unary harg _ _ _ =>
      intro hmeaning
      rw [Meaning.operator, Meaning.scalarOp, bind_assoc] at hmeaning ⊢
      refine Delivers.bind (follows_scalar h hs harg) (fun v s₁ _ hs₁ _ _ => ?_) hmeaning
      refine Delivers.bind (R := fun _ _ => True)
        (follows_of_run hs₁ (run_ofArithmetic _) fun _ _ => trivial) fun r s₂ _ hs₂ _ _ => ?_
      exact delivers_bind hs₂ hdst _
    | binary hlhs hrhs _ _ _ _ =>
      intro hmeaning
      rw [Meaning.operator, Meaning.scalarOp, bind_assoc] at hmeaning ⊢
      refine Delivers.bind (follows_scalar h hs hlhs) (fun l s₁ _ hs₁ _ _ => ?_) hmeaning
      rw [bind_assoc]
      refine Delivers.bind (follows_scalar h hs₁ hrhs) fun r s₂ _ hs₂ _ _ => ?_
      refine Delivers.bind (R := fun _ _ => True)
        (follows_of_run hs₂ (run_ofArithmetic _) fun _ _ => trivial) fun v s₃ _ hs₃ _ _ => ?_
      exact delivers_bind hs₃ hdst _
  | elementwise hinputs houter _ _ body =>
    exact delivers_elementwise h hs hdst hinputs (fun p hp => (houter p hp).1) hdims body
  | reduction harg hinit _ _ _ _ _ _ body => exact delivers_reduction h hs hdst harg hinit body
  | getItem htarget _ hindices _ _ _ =>
    refine Delivers.bind (follows_tensor h hs htarget) fun operand s₁ _ hs₁ _ _ => ?_
    obtain ⟨shape, data⟩ := operand
    refine Delivers.bind (follows_indices h hs₁ fun id hid => (hindices id hid).avail)
      fun idx s₂ _ hs₂ _ _ => ?_
    refine Delivers.bind (R := fun _ _ => True)
      (follows_of_run hs₂ (run_element data _) fun _ _ => trivial) fun v s₃ _ hs₃ _ _ => ?_
    exact delivers_bind hs₃ hdst _
  | setItem htarget _ hvalue _ hindices _ _ =>
    refine Delivers.bind (follows_tensor h hs htarget) fun operand s₁ _ hs₁ _ _ => ?_
    obtain ⟨shape, data⟩ := operand
    refine Delivers.bind (follows_scalar h hs₁ hvalue) fun v s₂ _ hs₂ _ _ => ?_
    refine Delivers.bind (follows_indices h hs₂ fun id hid => (hindices id hid).avail)
      fun idx s₃ _ hs₃ _ _ => ?_
    refine Delivers.bind (R := fun _ _ => True)
      (follows_of_run hs₃ (run_element data _) fun _ _ => trivial) fun _ s₄ _ hs₄ _ _ => ?_
    exact delivers_bind hs₄ hdst _
  | slice htarget _ hselected _ _ hsizes _ _ _ =>
    exact delivers_slice h hs hdst htarget (fun i hi id hid => (hselected i hi id hid).avail) hsizes
      hdims
  | copy hkind hsrc _ =>
    rcases hkind with rfl | rfl <;>
    · refine Delivers.bind (follows_need h hs hsrc) fun v s₁ _ hs₁ _ _ => ?_
      exact delivers_bind hs₁ hdst _

end Rules

end Evaluator

end TensorKernel
