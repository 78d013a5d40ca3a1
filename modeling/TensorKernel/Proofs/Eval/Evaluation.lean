import TensorKernel.Proofs.Eval.Steps

/-!
# Evaluation gives nodes their meaning

The recursion over nodes is closed here: `answers_node` says that evaluating a node gives what it
means if it may go down far enough, and evaluation is given enough depth for every available node.
A node that is not available has no value, and evaluating it fails.
-/

namespace TensorKernel

namespace Evaluator

variable {ctx : EvalContext} {given : GivenValues} {e : Entry} {s : List EvalScope}

/-! ## Nodes -/

section Nodes

variable {need : NodeId → EvalM Value} {id : NodeId}

theorem run_nodeRule_of_lookup {v : Value} (h : lookup s id = some v) :
    run (nodeRule ctx need id) s = (.ok v, s) := by
  simp only [nodeRule, run_bind, run_get, h]
  rfl

theorem run_nodeRule_of_constant (h : lookup s id = none) {v : Literal}
    (hconstant : (ctx.graph.node id).constant? = some v) :
    run (nodeRule ctx need id) s =
      run (do
        bind id (.scalar (v.convert (ctx.graph.elemSize id)))
        pure (.scalar (v.convert (ctx.graph.elemSize id)))) s := by
  simp only [nodeRule, run_bind, run_get, h, hconstant]
  rfl

/-- The value that a node was given by the last step. -/
def answer (id : NodeId) : EvalM Value := do
  match lookup (← get) id with
  | some v => pure v
  | none => throw (.notProduced id)

theorem run_answer {v : Value} (h : lookup s id = some v) : run (answer id) s = (.ok v, s) := by
  simp only [answer, run_bind, run_get, h]
  rfl

theorem run_nodeRule_of_producer (h : lookup s id = none) {o : OpId}
    (hconstant : (ctx.graph.node id).constant? = none)
    (hproducer : (ctx.graph.node id).producer = some o) :
    run (nodeRule ctx need id) s =
      run (operator ctx need (ctx.graph.op o) >>= fun _ => answer id) s := by
  simp only [nodeRule, run_bind, run_get, h, hconstant, hproducer]
  rfl

/-- What is remembered about a node is what it means. -/
theorem follows_nodeRule_of_lookup (hs : Memory ctx given e s) {v : Value}
    (h : lookup s id = some v) :
    Follows ctx given e (nodeRule ctx need id) s (meaning ctx given id)
      fun v s' => lookup s' id = some v := by
  rw [(hs.remembered h).2]
  refine follows_of_run hs (run_nodeRule_of_lookup h) fun w hw => ?_
  obtain rfl := Except.ok.inj hw
  exact h

theorem Delivers.answer {m : EvalM Unit} {x : Except EvalFault Value}
    (h : Delivers ctx given e id m s x) (hx : meaning ctx given id = x) :
    Follows ctx given e (m >>= fun _ => Evaluator.answer id) s (meaning ctx given id)
      fun v s' => lookup s' id = some v := by
  rw [hx]
  cases x with
  | error fault => exact (h hx).bind (y := fun _ => .error fault) fun _ _ ha => by cases ha
  | ok v =>
    refine (h hx).bind (y := fun _ => .ok v) fun _ s' _ hs' _ hvalue => ?_
    exact follows_of_run hs' (run_answer (hvalue v rfl)) fun w hw => Except.ok.inj hw ▸ hvalue v rfl

theorem follows_nodeRule_of_constant (hs : Memory ctx given e s) {v : Literal}
    (hgiven : given.get? id = none) (hconstant : (ctx.graph.node id).constant? = some v) :
    Follows ctx given e (nodeRule ctx need id) s (meaning ctx given id)
      fun v s' => lookup s' id = some v := by
  cases hvalue : lookup s id with
  | some v => exact follows_nodeRule_of_lookup hs hvalue
  | none =>
    have hmeaning : meaning ctx given id = _ := meaning_of_constant hgiven hconstant
    have hdst : ctx.graph.Available e id := Graph.Source.available (Or.inr ⟨v, hconstant⟩)
    have hbind := delivers_bind hs hdst _ hmeaning
    rw [hmeaning]
    refine follows_of_run_eq (run_nodeRule_of_constant hvalue hconstant) hbind.memory hbind.remembers
      fun w hw => hbind.holds () rfl w hw

/-- An operator on scalars whose operands are all known takes one step of its own. -/
theorem run_operator_scalar {ok : NodeId → Prop} {op : Op} {dst : NodeId} {val : Valuation}
    (hop : ctx.graph.ScalarOp ok op dst) (hneed : ∀ arg, ok arg → run (need arg) s = (val arg, s)) :
    run (operator ctx need op) s =
      match Meaning.scalarOp val op (ctx.graph.elemSize dst) with
      | .ok v => run (bind dst (.scalar v)) s
      | .error fault => (.error fault, s) := by
  -- Reading an operand leaves the memory as it is, so both sides go through the same failures.
  have hscalar : ∀ arg, ok arg → run (scalar need arg) s = (Meaning.scalar val arg, s) := by
    intro arg harg
    unfold scalar Meaning.scalar
    rw [run_bind, hneed arg harg]
    cases val arg with
    | error fault => rfl
    | ok v => cases v <;> rfl
  cases hop with
  | @unary op arg dst harg _ _ _ =>
    show run (scalar need arg >>= _) s = _
    rw [run_bind, hscalar arg harg, Meaning.scalarOp_unary]
    cases Meaning.scalar val arg with
    | error fault => rfl
    | ok v =>
      show run (ofArithmetic _ >>= _) s = _
      rw [run_bind, run_ofArithmetic]
      show _ = match Meaning.ofArithmetic (v.unary op (ctx.graph.elemSize dst)) with
        | .ok v => run (bind dst (.scalar v)) s
        | .error fault => (.error fault, s)
      cases Meaning.ofArithmetic (v.unary op (ctx.graph.elemSize dst)) <;> rfl
  | @binary op lhs rhs dst hlhs hrhs _ _ _ _ =>
    show run (scalar need lhs >>= _) s = _
    rw [run_bind, hscalar lhs hlhs, Meaning.scalarOp_binary]
    cases Meaning.scalar val lhs with
    | error fault => rfl
    | ok l =>
      show run (scalar need rhs >>= _) s = match (Meaning.scalar val rhs >>= fun r =>
          Meaning.ofArithmetic (l.binary op r (ctx.graph.elemSize dst))) with
        | .ok v => run (bind dst (.scalar v)) s
        | .error fault => (.error fault, s)
      rw [run_bind, hscalar rhs hrhs]
      cases Meaning.scalar val rhs with
      | error fault => rfl
      | ok v =>
        show run (ofArithmetic _ >>= _) s = match Meaning.ofArithmetic
            (l.binary op v (ctx.graph.elemSize dst)) with
          | .ok v => run (bind dst (.scalar v)) s
          | .error fault => (.error fault, s)
        rw [run_bind, run_ofArithmetic]
        cases Meaning.ofArithmetic (l.binary op v (ctx.graph.elemSize dst)) <;> rfl

end Nodes

/-! ## The scope of a body -/

section BodyScope

variable {ids : List NodeId} {elems : List Literal} (hlength : ids.length = elems.length)

theorem lookup_bodyScope (ids : List NodeId) (elems : List Literal) (s : List EvalScope)
    (id : NodeId) :
    lookup (bodyScope ids elems :: s) id =
      (((Scope.ofList (ids.zip elems)).get? id).map .scalar).or (lookup s id) := by
  rw [lookup_cons, get?_bodyScope]

include hlength

/-- What is no placeholder of the body is looked up around it. -/
theorem lookup_bodyScope_of_notMem {id : NodeId} (hid : id ∉ ids) :
    lookup (bodyScope ids elems :: s) id = lookup s id := by
  rw [← Scope.get?_ofList_zip hlength] at hid
  rw [lookup_bodyScope, Option.not_isSome_iff_eq_none.mp hid]
  rfl

/-- What the operator of a body reads has a value: its element, or the one that it has outside. -/
theorem run_node_inside (hs : Memory ctx given e s) {id : NodeId}
    (hid : id ∈ ids ∨ (lookup s id).isSome) (k : Nat) :
    run (node ctx (k + 1) id) (bodyScope ids elems :: s) =
      (Meaning.inside (meaning ctx given) ids elems id, bodyScope ids elems :: s) := by
  unfold Meaning.inside
  cases hfound : (Scope.ofList (ids.zip elems)).get? id with
  | some v =>
    refine run_nodeRule_of_lookup ?_
    rw [lookup_bodyScope, hfound]
    rfl
  | none =>
    have hmem : id ∉ ids := by
      intro hmem
      have hsome := (Scope.get?_ofList_zip hlength id).mpr hmem
      rw [hfound] at hsome
      cases hsome
    obtain ⟨w, hw⟩ := Option.isSome_iff_exists.mp (hid.resolve_left hmem)
    rw [(hs.remembered hw).2]
    refine run_nodeRule_of_lookup ?_
    rw [lookup_bodyScope_of_notMem hlength hmem, hw]

end BodyScope

section Answers

variable (hc : ctx.graph.Coherent) (he : ctx.graph.EntryValid e) (hgiven : e.GivenBy given)
include hc he

/-- A body computes its value from the elements and from nodes that have values already. -/
theorem run_node_body (hs : Memory ctx given e s) {n k : Nat} {outer : List NodeId}
    {pairs : List (NodeId × NodeId)} {inner : NodeId} {elems : List Literal}
    (hgiven : e.GivenBy given)
    (hbody : ctx.graph.BodyValid e (ctx.graph.AvailableAt e n) outer pairs inner)
    (houter : ∀ id ∈ outer, (lookup s id).isSome) (hlength : pairs.length = elems.length) :
    ∃ scope, run (node ctx (k + 2) inner) (bodyScope (pairs.map Prod.snd) elems :: s) =
      ((Meaning.innerValue ctx (meaning ctx given) (pairs.map Prod.snd) inner elems).map .scalar,
        scope :: s) := by
  obtain ⟨o, hproducer, hop, arg, harg, hhole⟩ := hbody.inner
  have hholes : ∀ id ∈ pairs.map Prod.snd, ctx.graph.Hole e id := by
    intro id hid
    obtain ⟨p, hp, rfl⟩ := List.mem_map.mp hid
    exact hbody.hole p hp
  have hlengths : (pairs.map Prod.snd).length = elems.length := by simpa using hlength
  -- The node of the body is no placeholder, so only the outer scopes can have a value for it.
  have hinner : inner ∉ pairs.map Prod.snd := by
    intro hmem
    rw [(hholes inner hmem).producer] at hproducer
    cases hproducer
  have hlookupInner : lookup (bodyScope (pairs.map Prod.snd) elems :: s) inner =
      lookup s inner := lookup_bodyScope_of_notMem hlengths hinner
  have hnotGiven : given.get? inner = none := hgiven.get?_eq_none fun hmem => by
    rw [he.producer hmem] at hproducer
    cases hproducer
  unfold Meaning.innerValue
  show ∃ scope, run (nodeRule ctx (node ctx (k + 1)) inner) _ = _
  cases hconstant : (ctx.graph.node inner).constant? with
  | some v =>
    cases hvalue : lookup s inner with
    | some w =>
      have hmeaning := (hs.remembered hvalue).2
      rw [meaning_of_constant hnotGiven hconstant] at hmeaning
      obtain rfl := Except.ok.inj hmeaning
      exact ⟨_, run_nodeRule_of_lookup (hlookupInner.trans hvalue)⟩
    | none =>
      rw [run_nodeRule_of_constant (hlookupInner.trans hvalue) hconstant]
      exact ⟨_, rfl⟩
  | none =>
    have hvalue : lookup s inner = none := by
      by_contra hsome
      obtain ⟨w, hw⟩ := Option.ne_none_iff_exists'.mp hsome
      exact hop.not_available hc he hproducer hconstant ⟨arg, harg, hholes arg hhole⟩
        (hs.remembered hw).1
    have hneed : ∀ id, id ∈ pairs.map Prod.snd ∨ ctx.graph.AvailableAt e n id ∧ id ∈ outer →
        run (node ctx (k + 1) id) (bodyScope (pairs.map Prod.snd) elems :: s) =
          (Meaning.inside (meaning ctx given) (pairs.map Prod.snd) elems id,
            bodyScope (pairs.map Prod.snd) elems :: s) := fun id hid =>
      run_node_inside hlengths hs (hid.imp_right fun h => houter id h.2) k
    rw [run_nodeRule_of_producer (hlookupInner.trans hvalue) hconstant hproducer, run_bind,
      run_operator_scalar hop hneed]
    simp only [hproducer]
    cases Meaning.scalarOp (Meaning.inside (meaning ctx given) (pairs.map Prod.snd) elems)
        (ctx.graph.op o) (ctx.graph.elemSize inner) with
    | error fault => exact ⟨_, rfl⟩
    | ok v =>
      refine ⟨(bodyScope (pairs.map Prod.snd) elems).bind inner (.scalar v), ?_⟩
      refine run_answer ?_
      rw [lookup_cons, Scope.get?_bind, if_pos rfl]
      rfl

include hgiven

/-- The evaluation of nodes gives their meanings if it may go down far enough. -/
theorem answers_node (n : Nat) : ∀ {k}, n + 2 ≤ k → Answers ctx given e n (node ctx k) := by
  -- A body may be evaluated with any number of operators in a row: its operands have values.
  have hbody : ∀ {n k : Nat} {s : List EvalScope} {outer : List NodeId}
      {pairs : List (NodeId × NodeId)} {inner : NodeId} {elems : List Literal}, 2 ≤ k →
      Memory ctx given e s →
      ctx.graph.BodyValid e (ctx.graph.AvailableAt e n) outer pairs inner →
      (∀ id ∈ outer, (lookup s id).isSome) → pairs.length = elems.length →
      ∃ scope, run (node ctx k inner) (bodyScope (pairs.map Prod.snd) elems :: s) =
        ((Meaning.innerValue ctx (meaning ctx given) (pairs.map Prod.snd) inner elems).map .scalar,
          scope :: s) := by
    intro n k s outer pairs inner elems hk hs hbody houter hlength
    obtain ⟨k, rfl⟩ := Nat.exists_eq_add_of_le' hk
    exact run_node_body hc he hs hgiven hbody houter hlength
  have hsource : ∀ {k : Nat} {s : List EvalScope} {id : NodeId}, 1 ≤ k → Memory ctx given e s →
      ctx.graph.Source e id → Follows ctx given e (node ctx k id) s (meaning ctx given id)
        fun v s' => lookup s' id = some v := by
    intro k s id hk hs hid
    obtain ⟨k, rfl⟩ := Nat.exists_eq_add_of_le' hk
    rcases hgiven.source_cases hid with ⟨v, hv⟩ | ⟨hnone, v, hv⟩
    · exact follows_nodeRule_of_lookup hs (hs.holds hv)
    · exact follows_nodeRule_of_constant hs hnone hv
  -- Two more steps than operators in a row: one for the node itself and one for a body.
  induction n with
  | zero => exact fun {k} hk => ⟨fun hs hid => hsource (by omega) hs hid, hbody (by omega)⟩
  | succ n ih =>
    intro k hk
    refine ⟨fun {s id} hs hid => ?_, hbody (by omega)⟩
    by_cases hnode : ctx.graph.Source e id
    · exact hsource (by omega) hs hnode
    · obtain ⟨hnot, hconstant, o, hproducer, hop⟩ := hid.computed hnode
      obtain ⟨k, rfl⟩ := Nat.exists_eq_add_of_le' (show 1 ≤ k by omega)
      cases hvalue : lookup s id with
      | some v => exact follows_nodeRule_of_lookup hs hvalue
      | none =>
        have hmeaning := meaning_of_producer hc he hgiven ⟨_, hid⟩ (hgiven.get?_eq_none hnot)
          hconstant hproducer
        have hdelivers := delivers_operator (ih (k := k) (by omega)) hs ⟨_, hid⟩ hop
        have hfollows := hdelivers.answer hmeaning
        exact follows_of_run_eq ((run_nodeRule_of_producer hvalue hconstant hproducer).trans
          (Prod.ext hfollows.result rfl)) hfollows.memory hfollows.remembers hfollows.holds

/-- Evaluating an available node gives its meaning, whatever was evaluated before. -/
theorem follows_node {id : NodeId} (hs : Memory ctx given e s) (hid : ctx.graph.Available e id) :
    Follows ctx given e (node ctx (depth ctx) id) s (meaning ctx given id)
      fun v s' => lookup s' id = some v :=
  (answers_node hc he hgiven _ (Nat.le_refl _)).available hs (hid.at_ops_size hc)

/-- Evaluating available nodes one after another gives their meanings. -/
theorem follows_nodes {ids : List NodeId} : ∀ {s : List EvalScope}, Memory ctx given e s →
    (∀ id ∈ ids, ctx.graph.Available e id) →
    Follows ctx given e (nodes ctx ids) s (ids.mapM (meaning ctx given)) fun _ _ => True := by
  induction ids with
  | nil => exact fun hs _ => follows_pure hs trivial
  | cons id ids ih =>
    intro s hs hids
    rw [List.mapM_cons]
    refine (follows_node hc he hgiven hs (hids id (List.mem_cons_self ..))).bind
      fun v s₁ _ hs₁ _ _ => ?_
    refine (ih hs₁ fun id hid => hids id (List.mem_cons_of_mem _ hid)).bind
      fun vs s₂ _ hs₂ _ _ => ?_
    exact follows_pure hs₂ trivial

end Answers

/-! ## Nodes without values -/

/-- A step that fails. -/
def Fails {α : Type} (m : EvalM α) (s : List EvalScope) : Prop :=
  ∃ fault, (run m s).1 = .error fault

section Fails

variable {α β : Type} {m : EvalM α}

theorem Fails.bind (h : Fails m s) (f : α → EvalM β) : Fails (m >>= f) s := by
  obtain ⟨fault, hfault⟩ := h
  refine ⟨fault, ?_⟩
  rw [run_bind]
  generalize run m s = result at hfault
  obtain ⟨outcome, s'⟩ := result
  obtain rfl : outcome = .error fault := hfault
  rfl

theorem Follows.fails_bind {x : Except EvalFault α} {R : α → List EvalScope → Prop}
    (h : Follows ctx given e m s x R) {f : α → EvalM β}
    (hf : ∀ a s', Memory ctx given e s' → Fails (f a) s') : Fails (m >>= f) s := by
  obtain ⟨hresult, hmemory, -, -⟩ := h
  unfold Fails
  rw [run_bind]
  generalize run m s = result at hresult hmemory
  obtain ⟨outcome, s'⟩ := result
  obtain rfl : outcome = x := hresult
  cases outcome with
  | error fault => exact ⟨fault, rfl⟩
  | ok a => exact hf a s' hmemory

theorem fails_node_of_no_value {k : Nat} {id : NodeId} (h : lookup s id = none)
    (hconstant : (ctx.graph.node id).constant? = none)
    (hproducer : (ctx.graph.node id).producer = none) : Fails (node ctx k id) s := by
  cases k with
  | zero => exact ⟨_, rfl⟩
  | succ k =>
    have hrun : run (node ctx (k + 1) id) s = run (match lookup s id with
      | some v => pure v
      | none => _) s := rfl
    refine ⟨.withoutValue id, ?_⟩
    rw [hrun, h]
    simp only [hconstant, hproducer]
    rfl

/-- Memories have no value for what is not available. -/
theorem Memory.lookup_eq_none (hs : Memory ctx given e s) {id : NodeId}
    (h : ¬ ctx.graph.Available e id) : lookup s id = none := by
  cases hvalue : lookup s id with
  | none => rfl
  | some v => exact absurd (hs.remembered hvalue).1 h

/-- A placeholder has no value outside of its body. -/
theorem fails_scalar_hole (hc : ctx.graph.Coherent) (hs : Memory ctx given e s) {k : Nat}
    {id : NodeId} (h : ctx.graph.Hole e id) : Fails (scalar (node ctx k) id) s :=
  (fails_node_of_no_value (hs.lookup_eq_none (h.not_available hc)) h.constant h.producer).bind _

/-- What belongs to a body cannot be evaluated outside of it. -/
theorem fails_blocked (hc : ctx.graph.Coherent) (he : ctx.graph.EntryValid e)
    (hgiven : e.GivenBy given) (hs : Memory ctx given e s) {id : NodeId}
    (hconstant : (ctx.graph.node id).constant? = none) (h : ctx.graph.Blocked e id) :
    Fails (node ctx (depth ctx) id) s := by
  have hnot := h.not_available hc he hconstant
  rcases h with hhole | ⟨o, hproducer, hop, arg, harg, hhole⟩
  · exact fails_node_of_no_value (hs.lookup_eq_none hnot) hconstant hhole.producer
  · -- The operator of a body computes nothing available, so one operator less is enough for the rest.
    have havailable : ∀ {id : NodeId}, ctx.graph.Available e id →
        ctx.graph.AvailableAt e (ctx.graph.ops.size - 1) id := fun hid =>
      hid.at_ops_size_sub_one hc (hc id o hproducer).1 fun other hother _ => by
        have hsame := (hc id o hproducer).2.symm.trans (hc other o hother).2
        rw [← List.singleton_inj.mp hsame]
        exact hnot
    have hsize : 0 < ctx.graph.ops.size := Nat.lt_of_le_of_lt (Nat.zero_le _) (hc id o hproducer).1
    have hanswers : Answers ctx given e (ctx.graph.ops.size - 1)
        (node ctx (ctx.graph.ops.size + 1)) := answers_node hc he hgiven _ (by omega)
    have hoperator : Fails (operator ctx (node ctx (ctx.graph.ops.size + 1)) (ctx.graph.op o)) s := by
      generalize ctx.graph.op o = op at hop harg
      -- Operands are read from the left: the first placeholder stops the evaluation.
      cases hop with
      | unary _ _ _ _ =>
        obtain rfl := List.mem_singleton.mp harg
        exact (fails_scalar_hole hc hs hhole).bind _
      | binary hlhs _ _ _ _ _ =>
        rcases hlhs with hlhs | hlhs
        · exact (fails_scalar_hole hc hs hlhs).bind _
        · refine (follows_scalar hanswers hs (havailable hlhs)).fails_bind fun l s' hs' => ?_
          rcases List.mem_cons.mp harg with rfl | harg
          · exact absurd hlhs (hhole.not_available hc)
          · obtain rfl := List.mem_singleton.mp harg
            exact (fails_scalar_hole hc hs' hhole).bind _
    unfold Fails
    show ∃ fault, (run (nodeRule ctx (node ctx (ctx.graph.ops.size + 1)) id) s).1 = .error fault
    rw [run_nodeRule_of_producer (hs.lookup_eq_none hnot) hconstant hproducer]
    exact hoperator.bind _

/-- A node of a valid graph can be evaluated only if it is available. -/
theorem fails_of_not_available (hv : ctx.graph.Valid e) (hgiven : e.GivenBy given)
    (hs : Memory ctx given e s) {id : NodeId} (h : ¬ ctx.graph.Available e id) :
    Fails (node ctx (depth ctx) id) s := by
  have hlookup := hs.lookup_eq_none h
  have hconstant : (ctx.graph.node id).constant? = none := by
    by_contra hsome
    obtain ⟨v, hv⟩ := Option.ne_none_iff_exists'.mp hsome
    exact h (Graph.Source.available (Or.inr ⟨v, hv⟩))
  by_cases hlt : id.index < ctx.graph.nodes.size
  · rcases hv.classified id hlt with hid | hid | hid
    · exact absurd hid h
    · exact fails_node_of_no_value hlookup hconstant hid.2
    · exact fails_blocked hv.coherent hv.entry hgiven hs hconstant hid
  · refine fails_node_of_no_value hlookup hconstant ?_
    rw [Graph.node_of_size_le (Nat.le_of_not_lt hlt)]
    rfl

/-- Evaluating nodes one after another fails if one of them is not available. -/
theorem fails_nodes (hv : ctx.graph.Valid e) (hgiven : e.GivenBy given) {ids : List NodeId} :
    ∀ {s : List EvalScope}, Memory ctx given e s → (¬ ∀ id ∈ ids, ctx.graph.Available e id) →
      Fails (nodes ctx ids) s := by
  induction ids with
  | nil => exact fun _ hids => absurd (List.forall_mem_nil _) hids
  | cons id ids ih =>
    intro s hs hids
    by_cases hid : ctx.graph.Available e id
    · refine (follows_node hv.coherent hv.entry hgiven hs hid).fails_bind fun v s' hs' => ?_
      exact (ih hs' fun hrest => hids (List.forall_mem_cons.mpr ⟨hid, hrest⟩)).bind _
    · exact (fails_of_not_available hv hgiven hs hid).bind _

end Fails

end Evaluator

end TensorKernel
