import TensorKernel.Proofs.Agreement
import TensorKernel.Proofs.Eval.Values
import TensorKernel.Proofs.Execution.Sizes

/-!
# Scalars that are found by asking

A scalar that has no name yet is computed where it is needed first: its operator is visited, the
operands are asked for, and the number that is computed gets the name.  `LowerM.Supplies` says of a
scalar that this succeeds, and holds of the results of integer operators if it holds of their operands.

`FunctionGraph.Reaches` says what can be computed in this way.  The operands are reached where the
operator was visited, since an operator that is still at work is not visited again.
-/

namespace TensorKernel

/-! ## States in which an operator is at work -/

theorem LowerState.Grows.visit {g : Graph} {s s' : LowerState} (hs : Grows g s s')
    (hopen : s.scopes ≠ []) (o : OpId) : Grows g (s.visit o) (s'.visit o) where
  isOpen _ := onScope_open (hs.isOpen hopen) _
  outer := by
    rw [LowerState.visit, LowerState.visit, onScope_tail, onScope_tail]
    exact hs.outer
  known {name} h := by
    rw [LowerState.visit, Known, onScope_symbols] at h ⊢
    exact hs.known h
  bound {id} h := by
    rw [Bound, lookup_visit] at h ⊢
    exact hs.bound h
  visited {other} h := by
    rw [isVisited_visit (hs.isOpen hopen), Bool.or_eq_true] at h
    rw [isVisited_visit hopen, Bool.or_eq_true]
    rcases h with same | h
    · exact Or.inl (Or.inl same)
    · exact (hs.visited h).imp Or.inr fun hbound id hid => bound_visit (hbound id hid)

/-- A scalar that is a boolean or a signed integer, and holds a value of its type. -/
def Meaning.IsNumber (ctx : EvalContext) (val : Valuation) (id : NodeId) : Prop :=
  (ctx.graph.elemSize id).isFloatingPoint = false ∧ ∀ v, val id = .ok v → Types ctx val id v

namespace LowerM

open LowerState (Grows Executed)

variable {ctx : EvalContext} {val : Valuation} {s : LowerState} {M : Buffer.Store} {id : NodeId}
  {need : NodeId → LowerM Name} {k : Nat} {α β : Type}

/-- A step that succeeds performs what its statements compute. -/
theorem Lowers.performs {m : LowerM α} {R : α → LowerState → Prop} {R' : Buffer.Store → α → Prop}
    (hlowers : Lowers ctx.graph m s R) (hexecutes : Executes ctx val m s M R') :
    Performs (·.isNumeric) ctx val m s M fun s' M' a => R a s' ∧ R' M' a := by
  intro hs
  obtain ⟨a, s', hrun, hgrows, hR⟩ := hlowers
  obtain ⟨stmts, M', hstmts, hnumeric, hR'⟩ := hexecutes hs a s' hrun
  exact ⟨a, s', stmts, M', hrun, hgrows, hstmts, hnumeric, hR, hR'⟩

/-- An operator may be visited if the steps that follow name its result. -/
theorem performs_visit {kind : Buffer.Stmt → Prop} {o : OpId} {f : Unit → LowerM β}
    {T : LowerState → Buffer.Store → β → Prop}
    (h : Performs kind ctx val (f ()) (s.visit o) M T)
    (hresult : ∀ s' M' b, T s' M' b → ∀ id, (ctx.graph.node id).producer = some o → s'.Bound id) :
    Performs kind ctx val (LowerM.visit o >>= f) s M T := by
  intro hs
  obtain ⟨b, s', stmts, M', hrun, hgrows, hstmts, hkind, hT⟩ := h (hs.visit o)
  have hvisit : Executed ctx val [] s (s.visit o) M M := .silent (LowerState.onScope_blocks s _)
    (Nat.le_of_eq (LowerState.onScope_counter s _).symm) (hs.visit o)
  exact ⟨b, s', stmts, M', hrun, .of_visit hs.scopes hgrows (hresult s' M' b hT),
    hvisit.trans hstmts, hkind, hT⟩

/-! ## Operators -/

theorem performs_typedName (h : Supplies ctx val need s id) (hnumber : Meaning.IsNumber ctx val id)
    {w : Literal} (hw : val id = .ok (.scalar w)) :
    Performs (·.isNumeric) ctx val (typedName ctx.graph need id) s M fun _ M' v =>
      M'.Shows v w ∧ v.size = ctx.graph.elemSize id := by
  refine (h (.refl s)).bind fun n s₁ M₁ _ _ hn => performs_pure ⟨⟨hnumber.1, (hnumber.2 _ hw).2, ?_⟩, rfl⟩
  obtain ⟨v, hv, hkey⟩ := hn
  obtain rfl := Except.ok.inj (hv.symm.trans hw)
  exact hkey

/-- The name of a scalar is given to the result of an operator. -/
theorem performs_result {dst : NodeId} {n : Name} {w : Literal} (hdst : val dst = .ok (.scalar w))
    (hn : M.Shows ⟨n, ctx.graph.elemSize dst⟩ w) :
    Performs (·.isNumeric) ctx val (LowerM.bind dst n) s M fun s' _ _ => s'.Bound dst :=
  (performs_name hdst hn.number).mono fun _ _ _ _ _ h => Option.isSome_iff_exists.mpr ⟨n, h.1⟩

/-- An operator on integers computes its result if its operands are found. -/
theorem performs_scalarOp {ok : NodeId → Prop} {op : Op} {dst : NodeId}
    (hop : ctx.graph.ScalarOp ok op dst)
    (hneed : ∀ arg ∈ op.inputs, ok arg → ∀ {x : Literal}, val arg = .ok (.scalar x) →
      Supplies ctx val need s arg ∧ Meaning.IsNumber ctx val arg)
    {w : Literal} (hw : Meaning.scalarOp val op (ctx.graph.elemSize dst) = .ok w)
    (hdst : val dst = .ok (.scalar w)) (hinteger : ctx.graph.isIntegerOp op = true)
    (hdefined : ∀ b lhs rhs l r, op = ⟨.binary b, [lhs, rhs], [dst]⟩ → b = .floorDiv ∨ b = .rem →
      ok lhs → ok rhs → val lhs = .ok (.scalar l) → val rhs = .ok (.scalar r) →
      ¬ (l.asInt.toInt = (ctx.graph.elemSize dst).least ∧ r.asInt.toInt = -1)) :
    Performs (·.isNumeric) ctx val (operator ctx.graph need op) s M fun s' _ _ => s'.Bound dst := by
  cases hop with
  | @unary op arg dst harg sarg sdst typed =>
    rw [Meaning.scalarOp_unary] at hw
    obtain ⟨x, hx, hw⟩ := exists_of_bind_ok hw
    obtain ⟨hsupplied, hnumber⟩ := hneed arg (List.mem_singleton_self arg) harg (eq_of_scalar hx)
    refine (performs_typedName hsupplied hnumber (eq_of_scalar hx)).bind
      fun v s₁ M₁ _ _ ⟨hv, hsize⟩ => ?_
    rw [← hsize] at typed
    refine ((lowers_unary typed).performs (executes_unary hv typed (eq_of_ofArithmetic hw))).bind
      fun n s₂ M₂ _ _ hn => performs_result hdst hn.2
  | @binary op lhs rhs dst hlhs hrhs slhs srhs sdst typed =>
    rw [Meaning.scalarOp_binary] at hw
    obtain ⟨x, hx, hw⟩ := exists_of_bind_ok hw
    obtain ⟨y, hy, hw⟩ := exists_of_bind_ok hw
    obtain ⟨hdiv, hpow, hnumeric⟩ := of_decide_eq_true hinteger
    obtain ⟨hl, hlnumber⟩ := hneed lhs (List.mem_cons_self ..) hlhs (eq_of_scalar hx)
    obtain ⟨hr, hrnumber⟩ := hneed rhs (List.mem_cons_of_mem _ (List.mem_singleton_self rhs)) hrhs
      (eq_of_scalar hy)
    refine (performs_typedName hl hlnumber (eq_of_scalar hx)).bind
      fun l s₁ M₁ h₁ _ ⟨hl, hlsize⟩ => ?_
    refine (performs_typedName (hr.grow h₁) hrnumber (eq_of_scalar hy)).bind
      fun r s₂ M₂ _ hext ⟨hr, hrsize⟩ => ?_
    rw [← hlsize, ← hrsize] at typed hnumeric
    refine ((lowers_binary typed).performs (executes_binary (hl.extend hext) hr hnumeric typed hdiv
      hpow (eq_of_ofArithmetic hw) fun hdivides => hdefined op lhs rhs x y rfl hdivides hlhs hrhs
        (eq_of_scalar hx) (eq_of_scalar hy))).bind fun n s₃ M₃ _ _ hn => performs_result hdst hn.2

theorem performs_copy {src dst : NodeId} (hsrc : Supplies ctx val need s src)
    (hnumber : Meaning.IsNumber ctx val src) (sdst : ctx.graph.isScalar dst = true)
    (hsize : (ctx.graph.elemSize dst).isFloatingPoint = false) {w : Literal}
    (hw : val src = .ok (.scalar w))
    (hdst : val dst = .ok (.scalar (w.convert (ctx.graph.elemSize dst)))) (deep : Bool) :
    Performs (·.isNumeric) ctx val (copy ctx.graph need src dst deep) s M
      fun s' _ _ => s'.Bound dst := by
  rw [copy, if_pos sdst]
  refine (performs_typedName hsrc hnumber hw).bind fun v s₁ M₁ _ _ hv => ?_
  exact ((lowers_cast v _).performs (executes_cast hv.1 hsize)).bind
    fun n s₂ M₂ _ _ hn => performs_result hdst hn.2

/-! ## Nodes -/

/-- A scalar is found if its operator, when it is visited, computes it. -/
theorem supplies_of_producer {o : OpId} (hc : ctx.graph.Coherent)
    (hconstant : (ctx.graph.node id).constant? = none)
    (hproducer : (ctx.graph.node id).producer = some o) (hopen : s.scopes ≠ [])
    (hnew : s.isVisited o = false)
    (hop : ∀ s' M, Grows ctx.graph (s.visit o) s' → Performs (·.isNumeric) ctx val
      (operator ctx.graph (node ctx.graph k) (ctx.graph.op o)) s' M fun s'' _ _ => s''.Bound id) :
    Supplies ctx val (node ctx.graph (k + 1)) s id := by
  intro s' M hs'
  -- A later state either has the name already or has not visited the operator yet.
  by_cases hbound : s'.Bound id
  · exact performs_node hbound
  · have hnew' : s'.isVisited o = false := by
      refine Bool.eq_false_of_not_eq_true fun hvisited => ?_
      rcases hs'.visited hvisited with hvisited | hall
      · rw [hnew] at hvisited
        cases hvisited
      · exact hbound (hall id hproducer)
    have hrule : Performs (·.isNumeric) ctx val (nodeRule ctx.graph (node ctx.graph k) id) s' M
        fun s'' M' n => s''.Bound id ∧ ∃ v, val id = .ok v ∧
          M' n.key = some (.ofValue (ctx.graph.elemSize id) v) := by
      refine performs_get_bind fun _ => ?_
      rw [Option.not_isSome_iff_eq_none.mp hbound]
      simp only [hconstant, hproducer]
      refine performs_get_bind fun _ => ?_
      rw [hnew']
      refine performs_visit ((hop _ _ (hs'.visit hopen o)).bind fun _ s₁ M₁ _ _ hresult => ?_)
        fun s'' _ _ hresult other hother => ?_
      · refine performs_get_bind fun hs => ?_
        obtain ⟨n, hn⟩ := Option.isSome_iff_exists.mp hresult
        rw [hn]
        exact performs_pure ⟨hresult, hs.node hn⟩
      · have houtputs := (hc id o hproducer).2.symm.trans (hc other o hother).2
        rw [← List.singleton_inj.mp houtputs]
        exact hresult.1
    exact hrule.mono fun _ _ _ _ _ h => h.2

end LowerM

/-! ## Chains of operators -/

namespace FunctionGraph

/-- An operator on booleans and signed integers, which does not divide the least value by minus one. -/
structure ComputesInteger (f : FunctionGraph) (args : List Value) (op : Op) : Prop where
  integer : f.graph.isIntegerOp op = true
  safe : f.dividesLeast args op = false
  scalar : ∀ arg ∈ op.inputs, f.graph.isScalar arg = true ∧
    (f.graph.elemSize arg).isFloatingPoint = false

instance (f : FunctionGraph) (args : List Value) (op : Op) : Decidable (f.ComputesInteger args op) :=
  decidable_of_iff (f.graph.isIntegerOp op = true ∧ f.dividesLeast args op = false ∧
    ∀ arg ∈ op.inputs, f.graph.isScalar arg = true ∧ (f.graph.elemSize arg).isFloatingPoint = false)
    ⟨fun h => ⟨h.1, h.2.1, h.2.2⟩, fun h => ⟨h.integer, h.safe, h.scalar⟩⟩

/--
The scalars that lowering finds from a state with at most `k` operators in a row: those that have a
name, constants, and what operators compute from booleans and signed integers that are found.
-/
def Reaches (f : FunctionGraph) (args : List Value) : Nat → LowerState → NodeId → Prop
  | 0, s, id => s.Bound id ∨ (f.graph.node id).constant?.isSome = true
  | k + 1, s, id => s.Bound id ∨ (f.graph.node id).constant?.isSome = true ∨
      ∃ o ∈ (f.graph.node id).producer, s.isVisited o = false ∧ f.ComputesInteger args (f.graph.op o) ∧
        ∀ arg ∈ (f.graph.op o).inputs, Reaches f args k (s.visit o) arg

instance Reaches.decidable (f : FunctionGraph) (args : List Value) :
    ∀ k s id, Decidable (f.Reaches args k s id)
  | 0, s, id => inferInstanceAs
    (Decidable ((s.lookup id).isSome = true ∨ (f.graph.node id).constant?.isSome = true))
  | k + 1, s, id =>
    have := Reaches.decidable f args k
    inferInstanceAs (Decidable ((s.lookup id).isSome = true ∨
      (f.graph.node id).constant?.isSome = true ∨ ∃ o ∈ (f.graph.node id).producer,
        s.isVisited o = false ∧ f.ComputesInteger args (f.graph.op o) ∧
          ∀ arg ∈ (f.graph.op o).inputs, f.Reaches args k (s.visit o) arg))

variable {f : FunctionGraph} {sz : ElemSize} {args : List Value} {given : GivenValues}
  {symbols : Table String Nat}

section Reached

variable (hf : f.WellFormed sz) (hs : f.graph.Settled f.entry)
  (hbind : f.bindAll args = .ok (given, symbols))
include hf hs hbind

/-- The result of an operator on integers is found if the operands that have values are. -/
theorem ComputesInteger.supplies {k : Nat} {s : LowerState} {id : NodeId} {o : OpId}
    (h : f.ComputesInteger args (f.graph.op o)) (hopen : s.scopes ≠ [])
    (hproducer : (f.graph.node id).producer = some o) (hnew : s.isVisited o = false)
    (hid : f.graph.Available f.entry id) (sid : f.graph.isScalar id = true)
    (hsize : (f.graph.elemSize id).isFloatingPoint = false) {w : Literal}
    (hw : meaning ⟨f.graph, symbols⟩ given id = .ok (.scalar w))
    (hneed : ∀ arg ∈ (f.graph.op o).inputs, f.graph.Available f.entry arg → ∀ {x : Literal},
      meaning ⟨f.graph, symbols⟩ given arg = .ok (.scalar x) →
      LowerM.Supplies ⟨f.graph, symbols⟩ (meaning ⟨f.graph, symbols⟩ given) (LowerM.node f.graph k)
        (s.visit o) arg) :
    LowerM.Supplies ⟨f.graph, symbols⟩ (meaning ⟨f.graph, symbols⟩ given) (LowerM.node f.graph (k + 1))
      s id := by
  have hconstant := hs.computed (show (f.graph.node id).producer ≠ none by simp [hproducer])
  have hop : f.graph.Computes f.entry (f.graph.Available f.entry) (f.graph.op o) id := by
    rcases hid.cases hf.valid.coherent with (hgiven | ⟨v, hv⟩) | ⟨o', hproducer', hop⟩
    · rw [hf.valid.entry.producer hgiven] at hproducer
      cases hproducer
    · rw [hconstant] at hv
      cases hv
    · obtain rfl := Option.some.inj (hproducer.symm.trans hproducer')
      exact hop
  have hvalue := (hf.meaning_of_bind hbind hs hid hproducer).symm.trans hw
  refine LowerM.supplies_of_producer hf.valid.coherent hconstant hproducer hopen hnew
    fun s' M hgrows => ?_
  have hoperand : ∀ arg ∈ (f.graph.op o).inputs, f.graph.Available f.entry arg → ∀ {x : Literal},
      meaning ⟨f.graph, symbols⟩ given arg = .ok (.scalar x) →
      LowerM.Supplies ⟨f.graph, symbols⟩ (meaning ⟨f.graph, symbols⟩ given) (LowerM.node f.graph k)
          s' arg ∧
        Meaning.IsNumber ⟨f.graph, symbols⟩ (meaning ⟨f.graph, symbols⟩ given) arg :=
    fun arg harg havail x hx => ⟨(hneed arg harg havail hx).grow hgrows, (h.scalar arg harg).2,
      fun v hv => hf.types_of_bind hbind havail hv⟩
  -- Scalars are computed from scalars by an operator on scalars or by a copy.
  rcases LowerM.scalar_cases hop.valid (fun arg harg _ => (h.scalar arg harg).1) sid hvalue with
    ⟨hscalar, hresult⟩ | ⟨kind, src, x, hkind, heq, hsrc, hx, rfl⟩
  · exact LowerM.performs_scalarOp hscalar hoperand hresult hw h.integer
      fun b lhs rhs l r heq hb hlhs hrhs hl hr => hf.divides hbind h.safe heq hb hlhs hrhs hl hr
  · have hmem : src ∈ (f.graph.op o).inputs := by
      rw [heq]
      exact List.mem_singleton_self src
    obtain ⟨hsupplied, hnumber⟩ := hoperand src hmem hsrc hx
    rw [heq]
    rcases hkind with rfl | rfl
    · exact LowerM.performs_copy hsupplied hnumber sid hsize hx hw false
    · exact LowerM.performs_copy hsupplied hnumber sid hsize hx hw true

/-- A scalar with a value is found if it is reached. -/
theorem supplies_of_reaches {k : Nat} : ∀ {s : LowerState} {id : NodeId} {w : Literal},
    f.Reaches args k s id → s.scopes ≠ [] → f.graph.Available f.entry id →
    f.graph.isScalar id = true → (f.graph.elemSize id).isFloatingPoint = false →
    meaning ⟨f.graph, symbols⟩ given id = .ok (.scalar w) →
    LowerM.Supplies ⟨f.graph, symbols⟩ (meaning ⟨f.graph, symbols⟩ given) (LowerM.node f.graph (k + 1))
      s id := by
  have hfound : ∀ {k s id}, s.Bound id ∨ (f.graph.node id).constant?.isSome = true →
      (f.graph.elemSize id).isFloatingPoint = false → LowerM.Supplies ⟨f.graph, symbols⟩
        (meaning ⟨f.graph, symbols⟩ given) (LowerM.node f.graph (k + 1)) s id := by
    rintro k s id (hbound | hconstant) hsize
    · exact LowerM.supplies_of_bound hbound
    · obtain ⟨c, hc⟩ := Option.isSome_iff_exists.mp hconstant
      exact LowerM.supplies_of_constant hc (hf.meaning_constant_of_bind hbind hc) hsize
  induction k with
  | zero => exact fun h _ _ _ hsize _ => hfound h hsize
  | succ k ih =>
    intro s id w h hopen hid sid hsize hw
    rcases h with hbound | hconstant | ⟨o, hproducer, hnew, hop, hreads⟩
    · exact hfound (Or.inl hbound) hsize
    · exact hfound (Or.inr hconstant) hsize
    · refine hop.supplies hf hs hbind hopen hproducer hnew hid sid hsize hw
        fun arg harg havail x hx => ?_
      obtain ⟨sarg, hargSize⟩ := hop.scalar arg harg
      exact ih (hreads arg harg) (LowerState.onScope_open hopen _) havail sarg hargSize hx

/-- An index with a value is found if it is reached. -/
theorem Reaches.supplies {k : Nat} {s : LowerState} {id : NodeId} (h : f.Reaches args k s id)
    (hopen : s.scopes ≠ []) (hid : f.graph.IsIndex (f.graph.Available f.entry) id) {w : Literal}
    (hw : Meaning.scalar (meaning ⟨f.graph, symbols⟩ given) id = .ok w) :
    LowerM.Supplies ⟨f.graph, symbols⟩ (meaning ⟨f.graph, symbols⟩ given) (LowerM.node f.graph (k + 1))
      s id :=
  supplies_of_reaches hf hs hbind h hopen hid.avail hid.scalar
    (ElemSize.isFloatingPoint_of_isSignedInteger hid.size) (LowerM.eq_of_scalar hw)

end Reached

/-- What a dimension is read from has a name or is reached. -/
def ReachesDim (f : FunctionGraph) (args : List Value) (k : Nat) (s : LowerState) : Dim → Prop
  | .const _ => True
  | .sym name => s.Known name
  | .node id => f.Reaches args k s id

end FunctionGraph

end TensorKernel
