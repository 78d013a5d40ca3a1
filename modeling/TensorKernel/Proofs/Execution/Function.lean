import TensorKernel.Proofs.Eval.Given
import TensorKernel.Proofs.Execution.Scalar
import TensorKernel.Proofs.WellTyped

/-!
# What functions on scalars compute

The statements of a function whose nodes are all scalars are executed one after another, and what
they return are the numbers of the values that evaluation gives.  The induction is over the nodes on
the way down; every node is lowered where it is needed first, and its name holds its number from
there on.
-/

namespace TensorKernel

open Buffer (Datum Operand)

/-! ## Integer arithmetic -/

/-- Whether the machine has an operator on integers, and reads its operands as evaluation does. -/
def Graph.isIntegerOp (g : Graph) (op : Op) : Bool :=
  match op.kind, op.inputs with
  | .binary b, [lhs, rhs] =>
    b ≠ .div ∧ b ≠ .pow ∧ (b.isNumeric = true → g.elemSize lhs ≠ .bool ∨ g.elemSize rhs ≠ .bool)
  | _, _ => true

/-- All nodes are scalars that are booleans or signed integers. -/
structure Graph.IsIntegral (g : Graph) : Prop where
  nodes : ∀ node ∈ g.nodes, node.isScalar = true ∧ node.elemSize.isFloatingPoint = false
  ops : ∀ op ∈ g.ops, g.isIntegerOp op = true

instance (g : Graph) : Decidable g.IsIntegral :=
  decidable_of_iff ((∀ node ∈ g.nodes, node.isScalar = true ∧ node.elemSize.isFloatingPoint = false) ∧
    ∀ op ∈ g.ops, g.isIntegerOp op = true) ⟨fun h => ⟨h.1, h.2⟩, fun h => ⟨h.nodes, h.ops⟩⟩

namespace FunctionGraph

/-- The nodes that the results depend on. -/
inductive Needs (f : FunctionGraph) : NodeId → Prop
  | output {id : NodeId} (h : id ∈ f.outputs) : Needs f id
  | operand {id arg : NodeId} {o : OpId} (h : Needs f id)
    (hproducer : (f.graph.node id).producer = some o) (harg : arg ∈ (f.graph.op o).inputs) :
    Needs f arg

/-- The scalar that a node evaluates to. -/
def scalar? (f : FunctionGraph) (args : List Value) (id : NodeId) : Option Literal :=
  match { f with outputs := [id] }.eval args with
  | .ok [.scalar v] => some v
  | _ => none

/-- Whether an operator divides the least value of its type by minus one. -/
def dividesLeast (f : FunctionGraph) (args : List Value) (op : Op) : Bool :=
  match op.kind, op.inputs, op.outputs with
  | .binary b, [lhs, rhs], [dst] =>
    (b = .floorDiv ∨ b = .rem) ∧
      ((f.scalar? args lhs).map fun l => l.asInt.toInt) = some (f.graph.elemSize dst).least ∧
      ((f.scalar? args rhs).map fun r => r.asInt.toInt) = some (-1)
  | _, _, _ => false

/-- No division that the results depend on divides the least value of its type by minus one. -/
def DividesSafely (f : FunctionGraph) (args : List Value) : Prop :=
  ∀ id o, f.Needs id → (f.graph.node id).producer = some o →
    f.dividesLeast args (f.graph.op o) = false

/-- The data of the parameters: the arguments in the types of the parameters. -/
def parameterData (f : FunctionGraph) (args : List Value) : List Datum :=
  (f.inputs.zip args).map fun p =>
    .ofValue (f.graph.elemSize p.1.2) (p.2.convert (f.graph.elemSize p.1.2))

/-- The data of the results. -/
def resultData (f : FunctionGraph) (vs : List Value) : List Datum :=
  (f.outputs.zip vs).map fun p => .ofValue (f.graph.elemSize p.1) p.2

end FunctionGraph

/-- An operator on scalars reads what it lists. -/
theorem Graph.ScalarOp.of_inputs {g : Graph} {ok ok' : NodeId → Prop} {op : Op} {dst : NodeId}
    (h : g.ScalarOp ok op dst) (himp : ∀ arg ∈ op.inputs, ok arg → ok' arg) :
    g.ScalarOp ok' op dst := by
  cases h with
  | unary harg sarg sdst typed => exact .unary (himp _ (by simp) harg) sarg sdst typed
  | binary hlhs hrhs slhs srhs sdst typed =>
    exact .binary (himp _ (by simp) hlhs) (himp _ (by simp) hrhs) slhs srhs sdst typed

namespace LowerM

variable {ctx : EvalContext} {val : Valuation} {s : LowerState} {M : Buffer.Store}
  {need : NodeId → LowerM Name} {ok : NodeId → Prop}

/-! ## Operators -/

/-- Asking for a scalar gives a name that holds its number. -/
def Finds (ctx : EvalContext) (val : Valuation) (need : NodeId → LowerM Name)
    (ok : NodeId → Prop) : Prop :=
  ∀ {id : NodeId} {w : Literal} {s : LowerState} {M : Buffer.Store}, ok id → val id = .ok (.scalar w) →
    Executes ctx val (need id) s M fun M' n => M'.Shows ⟨n, ctx.graph.elemSize id⟩ w

theorem eq_of_scalar {id : NodeId} {w : Literal} (h : Meaning.scalar val id = .ok w) :
    val id = .ok (.scalar w) := by
  obtain ⟨v, hv, h⟩ := exists_of_bind_ok h
  cases v with
  | scalar x =>
    obtain rfl := Except.ok.inj h
    exact hv
  | tensor shape data => cases h

theorem eq_of_ofArithmetic {x : Except ArithmeticFault Literal} {w : Literal}
    (h : Meaning.ofArithmetic x = .ok w) : x = .ok w := by
  cases x with
  | error fault => cases h
  | ok v => exact congrArg Except.ok (Except.ok.inj h)

section Operators

variable (hneed : Finds ctx val need ok)
include hneed

theorem executes_typedName {id : NodeId} (hid : ok id) {w : Literal}
    (hw : val id = .ok (.scalar w)) :
    Executes ctx val (typedName ctx.graph need id) s M fun M' v =>
      M'.Shows v w ∧ v.size = ctx.graph.elemSize id :=
  (hneed hid hw).bind fun _ _ _ _ hn => executes_pure ⟨hn, rfl⟩

theorem executes_scalarOp {op : Op} {dst : NodeId} (hop : ctx.graph.ScalarOp ok op dst)
    {w : Literal} (hw : Meaning.scalarOp val op (ctx.graph.elemSize dst) = .ok w)
    (hdst : val dst = .ok (.scalar w)) (hinteger : ctx.graph.isIntegerOp op = true)
    (hdefined : ∀ b lhs rhs l r, op = ⟨.binary b, [lhs, rhs], [dst]⟩ → b = .floorDiv ∨ b = .rem →
      val lhs = .ok (.scalar l) → val rhs = .ok (.scalar r) →
      ¬ (l.asInt.toInt = (ctx.graph.elemSize dst).least ∧ r.asInt.toInt = -1)) :
    Executes ctx val (operator ctx.graph need op) s M fun _ _ => True := by
  cases hop with
  | @unary op arg dst harg sarg sdst typed =>
    rw [Meaning.scalarOp_unary] at hw
    obtain ⟨x, hx, hw⟩ := exists_of_bind_ok hw
    refine (executes_typedName hneed harg (eq_of_scalar hx)).bind fun v s₁ M₁ _ ⟨hv, hsize⟩ => ?_
    rw [← hsize] at typed
    refine (executes_unary hv typed (eq_of_ofArithmetic hw)).bind fun n s₂ M₂ _ hn => ?_
    exact executes_name hdst hn.number
  | @binary op lhs rhs dst hlhs hrhs slhs srhs sdst typed =>
    rw [Meaning.scalarOp_binary] at hw
    obtain ⟨x, hx, hw⟩ := exists_of_bind_ok hw
    obtain ⟨y, hy, hw⟩ := exists_of_bind_ok hw
    obtain ⟨hdiv, hpow, hnumeric⟩ := of_decide_eq_true hinteger
    refine (executes_typedName hneed hlhs (eq_of_scalar hx)).bind fun l s₁ M₁ _ ⟨hl, hlsize⟩ => ?_
    refine (executes_typedName hneed hrhs (eq_of_scalar hy)).bind fun r s₂ M₂ h₂ ⟨hr, hrsize⟩ => ?_
    rw [← hlsize, ← hrsize] at typed hnumeric
    refine (executes_binary (hl.extend h₂) hr hnumeric typed hdiv hpow (eq_of_ofArithmetic hw)
      fun hdivides => hdefined op lhs rhs x y rfl hdivides (eq_of_scalar hx)
        (eq_of_scalar hy)).bind fun n s₃ M₃ _ hn => ?_
    exact executes_name hdst hn.number

theorem executes_copy {src dst : NodeId} (hsrc : ok src) (sdst : ctx.graph.isScalar dst = true)
    (hsize : (ctx.graph.elemSize dst).isFloatingPoint = false) {w : Literal}
    (hw : val src = .ok (.scalar w))
    (hdst : val dst = .ok (.scalar (w.convert (ctx.graph.elemSize dst)))) (deep : Bool) :
    Executes ctx val (copy ctx.graph need src dst deep) s M fun _ _ => True := by
  rw [copy, if_pos sdst]
  refine (executes_typedName hneed hsrc hw).bind fun v s₁ M₁ _ ⟨hv, _⟩ => ?_
  exact (executes_cast hv hsize).bind fun n s₂ M₂ _ hn => executes_name hdst hn.number

end Operators

/-- Only operators on scalars and copies compute scalars from scalars. -/
theorem scalar_cases {e : Entry} {op : Op} {dst : NodeId} (hvalid : ctx.graph.OpValid e ok op dst)
    (hscalar : ∀ arg ∈ op.inputs, ok arg → ctx.graph.isScalar arg = true)
    (sdst : ctx.graph.isScalar dst = true) {w : Literal}
    (hw : Meaning.operator ctx val op dst = .ok (.scalar w)) :
    ctx.graph.ScalarOp ok op dst ∧ Meaning.scalarOp val op (ctx.graph.elemSize dst) = .ok w ∨
      ∃ kind src x, (kind = .copy ∨ kind = .deepCopy) ∧ op = ⟨kind, [src], [dst]⟩ ∧ ok src ∧
        val src = .ok (.scalar x) ∧ w = x.convert (ctx.graph.elemSize dst) := by
  have hnot : ∀ {arg}, arg ∈ op.inputs → ok arg → ctx.graph.isScalar arg ≠ false := fun hmem harg => by
    rw [hscalar _ hmem harg]
    decide
  cases hvalid with
  | scalar hop =>
    have hresult : (do
        let x ← Meaning.scalarOp val op (ctx.graph.elemSize dst)
        .ok (.scalar x)) = Except.ok (Value.scalar w) := by
      cases hop <;> exact hw
    obtain ⟨x, hx, hresult⟩ := exists_of_bind_ok hresult
    obtain rfl := Value.scalar.inj (Except.ok.inj hresult)
    exact Or.inl ⟨hop, hx⟩
  | elementwise _ _ sfalse _ _ => exact absurd sdst (by rw [sfalse]; decide)
  | reduction harg _ sarg _ _ _ _ _ _ => exact absurd sarg (hnot (List.mem_cons_self ..) harg)
  | getItem harg starget _ _ _ _ => exact absurd starget (hnot (List.mem_cons_self ..) harg)
  | setItem harg starget _ _ _ _ _ => exact absurd starget (hnot (List.mem_cons_self ..) harg)
  | slice harg starget _ _ _ _ _ _ _ => exact absurd starget (hnot (List.mem_cons_self ..) harg)
  | @copy kind src dst hkind hsrc same =>
    have hresult : (do
        let v ← val src
        .ok (v.convert (ctx.graph.elemSize dst))) = Except.ok (Value.scalar w) := by
      rcases hkind with rfl | rfl <;> exact hw
    obtain ⟨v, hv, hresult⟩ := exists_of_bind_ok hresult
    cases v with
    | tensor shape data => cases Except.ok.inj hresult
    | scalar x =>
      exact Or.inr ⟨kind, src, x, hkind, rfl, hsrc, hv, (Value.scalar.inj (Except.ok.inj hresult)).symm⟩

/-! ## Nodes -/

/-- What is known of the values of scalars that evaluation gives. -/
structure ScalarValues (f : FunctionGraph) (sizes : Table String Nat) (given : GivenValues) : Prop where
  coherent : f.graph.Coherent
  entryValid : f.graph.EntryValid f.entry
  givenBy : f.entry.GivenBy given
  integral : f.graph.IsIntegral
  types : ∀ {id v}, f.graph.Available f.entry id → meaning ⟨f.graph, sizes⟩ given id = .ok v →
    Meaning.Types ⟨f.graph, sizes⟩ (meaning ⟨f.graph, sizes⟩ given) id v
  defined : ∀ {id o b lhs rhs l r}, f.Needs id → (f.graph.node id).producer = some o →
    f.graph.op o = ⟨.binary b, [lhs, rhs], [id]⟩ → b = .floorDiv ∨ b = .rem →
    f.graph.Available f.entry lhs → f.graph.Available f.entry rhs →
    meaning ⟨f.graph, sizes⟩ given lhs = .ok (.scalar l) →
    meaning ⟨f.graph, sizes⟩ given rhs = .ok (.scalar r) →
    ¬ (l.asInt.toInt = (f.graph.elemSize id).least ∧ r.asInt.toInt = -1)

/-- A node that has a value and is needed. -/
def Wanted (f : FunctionGraph) (id : NodeId) : Prop :=
  f.graph.Available f.entry id ∧ f.Needs id

section Nodes

variable {f : FunctionGraph} {sizes : Table String Nat} {given : GivenValues}
  (hf : ScalarValues f sizes given)
include hf

theorem ScalarValues.isScalar {id : NodeId} (hid : f.graph.Available f.entry id) :
    f.graph.isScalar id = true ∧ (f.graph.elemSize id).isFloatingPoint = false := by
  have hlt := hid.lt hf.entryValid
  have hnode : f.graph.node id = f.graph.nodes[id.index] := by
    simp [Graph.node, Array.getD, hlt]
  rw [Graph.isScalar, Graph.elemSize, hnode]
  exact hf.integral.nodes _ (Array.getElem_mem hlt)

theorem ScalarValues.isIntegerOp {id : NodeId} {o : OpId}
    (hproducer : (f.graph.node id).producer = some o) :
    f.graph.isIntegerOp (f.graph.op o) = true := by
  have hlt := (hf.coherent id o hproducer).1
  have hop : f.graph.op o = f.graph.ops[o.index] := by
    simp [Graph.op, Array.getD, hlt]
  rw [hop]
  exact hf.integral.ops _ (Array.getElem_mem hlt)

/-- Where a name holds what represents a value of a node, it shows the value. -/
theorem ScalarValues.shows {id : NodeId} (hid : f.graph.Available f.entry id) {w : Literal}
    (hw : meaning ⟨f.graph, sizes⟩ given id = .ok (.scalar w)) {n : Name} {M : Buffer.Store}
    (hn : M n.key = some (.ofValue (f.graph.elemSize id) (.scalar w))) :
    M.Shows ⟨n, f.graph.elemSize id⟩ w :=
  ⟨(hf.isScalar hid).2, (hf.types hid hw).2, hn⟩

theorem executes_answer {id : NodeId} (hid : f.graph.Available f.entry id) {w : Literal}
    (hw : meaning ⟨f.graph, sizes⟩ given id = .ok (.scalar w)) :
    Executes ⟨f.graph, sizes⟩ (meaning ⟨f.graph, sizes⟩ given) (answer id) s M
      fun M' n => M'.Shows ⟨n, f.graph.elemSize id⟩ w := by
  refine executes_get_bind fun hs => ?_
  cases hfound : s.lookup id with
  | none => exact executes_throw
  | some n =>
    obtain ⟨v, hv, hn⟩ := hs.node hfound
    obtain rfl := Except.ok.inj (hv.symm.trans hw)
    exact executes_pure (hf.shows hid hw hn)

theorem executes_computes (hneed : Finds ⟨f.graph, sizes⟩ (meaning ⟨f.graph, sizes⟩ given) need
    (Wanted f)) {op : Op} {dst : NodeId}
    (hop : f.graph.Computes f.entry (f.graph.Available f.entry) op dst)
    (hreads : ∀ arg ∈ op.inputs, f.Needs arg) (hdst : f.graph.Available f.entry dst)
    (hinteger : f.graph.isIntegerOp op = true)
    (hdefined : ∀ b lhs rhs l r, op = ⟨.binary b, [lhs, rhs], [dst]⟩ → b = .floorDiv ∨ b = .rem →
      f.graph.Available f.entry lhs → f.graph.Available f.entry rhs →
      meaning ⟨f.graph, sizes⟩ given lhs = .ok (.scalar l) →
      meaning ⟨f.graph, sizes⟩ given rhs = .ok (.scalar r) →
      ¬ (l.asInt.toInt = (f.graph.elemSize dst).least ∧ r.asInt.toInt = -1))
    {w : Literal} (hw : meaning ⟨f.graph, sizes⟩ given dst = .ok (.scalar w))
    (hmeaning : meaning ⟨f.graph, sizes⟩ given dst =
      Meaning.operator ⟨f.graph, sizes⟩ (meaning ⟨f.graph, sizes⟩ given) op dst) :
    Executes ⟨f.graph, sizes⟩ (meaning ⟨f.graph, sizes⟩ given) (operator f.graph need op) s M
      fun _ _ => True := by
  obtain ⟨sdst, hsize⟩ := hf.isScalar hdst
  rcases scalar_cases hop.valid (fun _ _ harg => (hf.isScalar harg).1) sdst (hmeaning.symm.trans hw)
    with ⟨hscalar, hvalue⟩ | ⟨kind, src, x, hkind, rfl, hsrc, hx, rfl⟩
  · have hwanted : f.graph.ScalarOp (Wanted f) op dst := hscalar.of_inputs fun arg harg havail =>
      ⟨havail, hreads arg harg⟩
    refine executes_scalarOp hneed hwanted hvalue hw hinteger fun b lhs rhs l r heq hb hl hr => ?_
    subst heq
    cases hscalar with
    | binary hlhs hrhs _ _ _ _ => exact hdefined b lhs rhs l r rfl hb hlhs hrhs hl hr
  · have hwanted : Wanted f src := ⟨hsrc, hreads src (List.mem_singleton_self src)⟩
    rcases hkind with rfl | rfl
    · exact executes_copy hneed hwanted sdst hsize hx hw false
    · exact executes_copy hneed hwanted sdst hsize hx hw true

theorem executes_nodeRule (hneed : Finds ⟨f.graph, sizes⟩ (meaning ⟨f.graph, sizes⟩ given) need
    (Wanted f)) {id : NodeId} (hid : Wanted f id) {w : Literal}
    (hw : meaning ⟨f.graph, sizes⟩ given id = .ok (.scalar w)) :
    Executes ⟨f.graph, sizes⟩ (meaning ⟨f.graph, sizes⟩ given) (nodeRule f.graph need id) s M
      fun M' n => M'.Shows ⟨n, f.graph.elemSize id⟩ w := by
  refine executes_get_bind fun hs => ?_
  cases hfound : s.lookup id with
  | some n =>
    obtain ⟨v, hv, hn⟩ := hs.node hfound
    obtain rfl := Except.ok.inj (hv.symm.trans hw)
    exact executes_pure (hf.shows hid.1 hw hn)
  -- A node without a name is a constant, or the result of an operator that is lowered now.
  | none =>
    cases hconstant : (f.graph.node id).constant? with
    | some v =>
      have hgiven : given.get? id = none := hf.givenBy.get?_eq_none fun hmem => by
        rw [hf.entryValid.constant hmem] at hconstant
        cases hconstant
      have hvalue : v.convert (f.graph.elemSize id) = w := by
        rw [meaning_of_constant hgiven hconstant] at hw
        exact Value.scalar.inj (Except.ok.inj hw)
      simp only [hconstant]
      refine (executes_constant v (hf.isScalar hid.1).2).bind fun n s₁ M₁ _ hn => ?_
      rw [hvalue] at hn
      refine Executes.bind (executes_name hw hn) fun _ s₂ M₂ h₂ _ => executes_pure ?_
      exact hf.shows hid.1 hw (h₂ hn)
    | none =>
      cases hproducer : (f.graph.node id).producer with
      | none =>
        simp only [hconstant, hproducer]
        exact executes_throw
      | some o =>
        simp only [hconstant, hproducer]
        refine executes_get_bind fun _ => executes_ite (fun _ => executes_answer hf hid.1 hw)
          fun _ => ?_
        refine (executes_visit o).bind fun _ s₁ M₁ _ _ => ?_
        have hgiven : ¬ f.entry.node id := fun hmem => by
          rw [hf.entryValid.producer hmem] at hproducer
          cases hproducer
        -- The producer of an available node computes it.
        have hop : f.graph.Computes f.entry (f.graph.Available f.entry) (f.graph.op o) id := by
          rcases hid.1.cases hf.coherent with (hmem | ⟨v, hv⟩) | ⟨o', hproducer', hop⟩
          · exact absurd hmem hgiven
          · rw [hconstant] at hv
            cases hv
          · obtain rfl := Option.some.inj (hproducer.symm.trans hproducer')
            exact hop
        refine (executes_computes hf hneed hop (fun arg harg => .operand hid.2 hproducer harg) hid.1
          (hf.isIntegerOp hproducer) (fun b lhs rhs l r => hf.defined hid.2 hproducer) hw ?_).bind
          fun _ s₂ M₂ _ _ => executes_answer hf hid.1 hw
        exact meaning_of_producer hf.coherent hf.entryValid hf.givenBy hid.1
          (hf.givenBy.get?_eq_none hgiven) hconstant hproducer

theorem finds_node (k : Nat) :
    Finds ⟨f.graph, sizes⟩ (meaning ⟨f.graph, sizes⟩ given) (node f.graph k) (Wanted f) := by
  induction k with
  | zero => exact fun _ _ => executes_throw
  | succ k ih => exact fun hid hw => executes_nodeRule hf ih hid hw

/-- Asking for results gives names that hold what represents their values. -/
theorem executes_operands {ids : List NodeId} : ∀ {vs : List Value} {s : LowerState} {M : Buffer.Store},
    (∀ id ∈ ids, Wanted f id) → ids.mapM (meaning ⟨f.graph, sizes⟩ given) = .ok vs →
    Executes ⟨f.graph, sizes⟩ (meaning ⟨f.graph, sizes⟩ given)
      (operands f.graph (node f.graph (depth f.graph)) ids) s M fun M' os =>
        os.mapM (fun o => M' o.name.key) =
          some ((ids.zip vs).map fun p => .ofValue (f.graph.elemSize p.1) p.2) := by
  induction ids with
  | nil =>
    intro vs s M _ hvs
    obtain rfl := Except.ok.inj hvs
    exact executes_pure rfl
  | cons id ids ih =>
    intro vs s M hids hvs
    rw [List.mapM_cons] at hvs
    obtain ⟨v, hv, hvs⟩ := exists_of_bind_ok hvs
    obtain ⟨rest, hrest, hvs⟩ := exists_of_bind_ok hvs
    obtain rfl := Except.ok.inj hvs
    obtain ⟨hid, hids⟩ := List.forall_mem_cons.mp hids
    cases v with
    | tensor shape data =>
      have hnot := (hf.types hid.1 hv).1
      rw [(hf.isScalar hid.1).1] at hnot
      cases hnot
    | scalar w =>
      refine Executes.bind (R := fun M' o => M' o.name.key =
        some (.ofValue (f.graph.elemSize id) (.scalar w))) ?_ fun o s₁ M₁ _ ho => ?_
      · refine (finds_node hf _ hid hv).bind fun n s₁ M₁ _ hn => executes_pure ?_
        exact hn.number
      -- What was stored for the first result is still there after the others.
      · refine (ih hids hrest).bind fun os s₂ M₂ h₂ hos => executes_pure ?_
        rw [List.mapM_cons, h₂ ho, hos]
        rfl

end Nodes

/-! ## Functions -/

theorem executes_bindParams {inputs : List (String × NodeId)} : ∀ {s : LowerState} {M : Buffer.Store},
    (∀ p ∈ inputs, ∃ v, val p.2 = .ok v ∧ M (Name.plain (sanitize p.1)).key =
      some (.ofValue (ctx.graph.elemSize p.2) v)) →
    Executes ctx val (bindParams ctx.graph inputs) s M fun _ params =>
      params = inputs.map (paramOperand ctx.graph) := by
  induction inputs with
  | nil => exact fun _ => executes_pure rfl
  | cons input inputs ih =>
    intro s M h
    obtain ⟨⟨v, hv, hn⟩, h⟩ := List.forall_mem_cons.mp h
    refine (executes_name hv hn).bind fun _ s₁ M₁ h₁ _ => ?_
    have hrest : ∀ p ∈ inputs, ∃ v, val p.2 = .ok v ∧ M₁ (Name.plain (sanitize p.1)).key =
        some (.ofValue (ctx.graph.elemSize p.2) v) := fun p hp => by
      obtain ⟨v, hv, hn⟩ := h p hp
      exact ⟨v, hv, h₁ hn⟩
    exact (ih hrest).bind fun params _ _ _ hparams => executes_pure (by rw [hparams]; rfl)

/-- A function without tensors has no shape symbols. -/
theorem ScalarValues.symbols_eq {f : FunctionGraph} {sizes : Table String Nat} {given : GivenValues}
    {sz : ElemSize} (hf : ScalarValues f sizes given)
    (hinterface : f.graph.Interface sz f.inputs f.symbols) : f.symbols.entries = [] := by
  refine List.eq_nil_iff_forall_not_mem.mpr fun p hp => ?_
  obtain ⟨harg, haxis⟩ := hinterface.symbolArg p hp
  have hscalar := hf.isScalar (Graph.Source.available (Or.inl (Or.inl harg)))
  rw [Graph.shape_of_isScalar hscalar.1] at haxis
  cases haxis

/-- The data of the parameters under their names. -/
def parameterEntries (f : FunctionGraph) (args : List Value) : List (Name × Datum) :=
  ((f.inputs.map (paramOperand f.graph)).map Operand.name).zip (f.parameterData args)

theorem parameterEntries_eq (f : FunctionGraph) (args : List Value) :
    parameterEntries f args = (f.inputs.zip args).map fun p =>
      (Name.plain (sanitize p.1.1), .ofValue (f.graph.elemSize p.1.2)
        (p.2.convert (f.graph.elemSize p.1.2))) := by
  rw [parameterEntries, FunctionGraph.parameterData]
  generalize f.inputs = inputs
  induction inputs generalizing args with
  | nil => rfl
  | cons input inputs ih =>
    cases args with
    | nil => rfl
    | cons arg args => exact congrArg (_ :: ·) (ih args)

/-- A function is emitted in three steps, and returns the values of the last one. -/
theorem exists_of_function {f : FunctionGraph} {options : Options} {fn : Buffer.Function}
    {s' : LowerState} (hrun : function f options .start = .ok (fn, s')) :
    ∃ params s₁ s₂ values s₃, bindParams f.graph f.inputs .start = .ok (params, s₁) ∧
      bindSymbols f.graph f.symbols.entries s₁ = .ok ((), s₂) ∧
      operands f.graph (node f.graph (depth f.graph)) f.outputs s₂ = .ok (values, s₃) ∧
      fn.params = params ∧ fn.body = (s₃.push (.returns values)).block := by
  obtain ⟨params, s₁, hparams, hrun⟩ := exists_of_bind hrun
  obtain ⟨⟨⟩, s₂, hsymbols, hrun⟩ := exists_of_bind hrun
  obtain ⟨values, s₃, hvalues, hrun⟩ := exists_of_bind hrun
  cases hrun
  exact ⟨params, s₁, s₂, values, s₃, hparams, hsymbols, hvalues, rfl, rfl⟩

section Function

variable {f : FunctionGraph} {args : List Value} {given : GivenValues} {sizes : Table String Nat}
  (hadmits : f.Admits args given sizes)
include hadmits

theorem parameterEntries_nodup (hnodup : (f.inputs.map Prod.fst).Nodup)
    (hascii : ∀ p ∈ f.inputs, IsAsciiIdentifier p.1) :
    ((parameterEntries f args).map fun entry => entry.1.key).Nodup := by
  have hkeys : (parameterEntries f args).map (fun entry => entry.1.key) =
      (f.inputs.map (paramOperand f.graph)).map Operand.key := by
    rw [parameterEntries_eq, List.map_map, List.map_map]
    conv_rhs => rw [← List.map_fst_zip (Nat.le_of_eq hadmits.length), List.map_map]
    rfl
  rw [hkeys]
  exact nodup_paramOperands hnodup hascii

/-- A parameter holds what represents its value. -/
theorem parameter_holds (hnodup : (f.inputs.map Prod.fst).Nodup)
    (hascii : ∀ p ∈ f.inputs, IsAsciiIdentifier p.1) : ∀ p ∈ f.inputs, ∃ v,
      meaning ⟨f.graph, sizes⟩ given p.2 = .ok v ∧
        Buffer.Store.ofList (parameterEntries f args) (Name.plain (sanitize p.1)).key =
          some (.ofValue (f.graph.elemSize p.2) v) := by
  intro p hp
  rw [← List.map_fst_zip (Nat.le_of_eq hadmits.length)] at hp
  obtain ⟨⟨p, arg⟩, hmem, rfl⟩ := List.mem_map.mp hp
  obtain ⟨v, hv, hget⟩ := hadmits.input _ hmem
  obtain ⟨rfl, -, -⟩ := FunctionGraph.bindArgument_spec hv
  have hentry : (Name.plain (sanitize p.1), Datum.ofValue (f.graph.elemSize p.2)
      (arg.convert (f.graph.elemSize p.2))) ∈ parameterEntries f args := by
    rw [parameterEntries_eq]
    exact List.mem_map.mpr ⟨_, hmem, rfl⟩
  exact ⟨_, meaning_of_given hget,
    Buffer.Store.ofList_of_mem (parameterEntries_nodup hadmits hnodup hascii) hentry⟩

omit hadmits in
/-- Before anything is emitted, only parameters are in the store. -/
theorem agrees_start :
    LowerState.start.Agrees ctx val (Buffer.Store.ofList (parameterEntries f args)) where
  scopes := by simp [LowerState.start]
  blocks := by simp [LowerState.start]
  unset k _ := by
    refine Buffer.Store.ofList_of_not_mem fun hmem => ?_
    rw [parameterEntries_eq, List.map_map] at hmem
    obtain ⟨p, -, hp⟩ := List.mem_map.mp hmem
    cases hp
  node h := by simp [LowerState.lookup, LowerState.start, LowerScope.empty] at h
  index h := by simp [LowerState.indexConstant?, LowerState.start, LowerScope.empty] at h
  symbol h := by simp [LowerState.start] at h

/-- The statements of a function compute the values of its results. -/
theorem run_function {sz : ElemSize} (hf : ScalarValues f sizes given)
    (hinterface : f.graph.Interface sz f.inputs f.symbols)
    (houtputs : ∀ id ∈ f.outputs, f.graph.Available f.entry id)
    (hnodup : (f.inputs.map Prod.fst).Nodup) (hascii : ∀ p ∈ f.inputs, IsAsciiIdentifier p.1)
    {vs : List Value} (hvs : f.outputs.mapM (meaning ⟨f.graph, sizes⟩ given) = .ok vs)
    {options : Options} {fn : Buffer.Function} {s' : LowerState}
    (hrun : function f options .start = .ok (fn, s')) :
    fn.run (f.parameterData args) = some (f.resultData vs) := by
  obtain ⟨params, s₁, s₂, values, s₃, hparams, hsymbols, hvalues, hfnParams, hfnBody⟩ :=
    exists_of_function hrun
  rw [hf.symbols_eq hinterface] at hsymbols
  cases hsymbols
  have hbind : Executes ⟨f.graph, sizes⟩ (meaning ⟨f.graph, sizes⟩ given)
      (bindParams f.graph f.inputs) .start (.ofList (parameterEntries f args)) fun _ params =>
        params = f.inputs.map (paramOperand f.graph) :=
    executes_bindParams (parameter_holds hadmits hnodup hascii)
  obtain ⟨stmts₁, M₁, h₁, -, hnames⟩ := hbind agrees_start params s₁ hparams
  obtain ⟨stmts₂, M₂, h₂, -, hM₂⟩ := executes_operands hf
    (fun id hid => ⟨houtputs id hid, .output hid⟩) hvs h₁.agrees values s₃ hvalues
  have h := h₁.trans h₂
  have hbody : fn.body = stmts₁ ++ stmts₂ ++ [.returns values] := by
    rw [hfnBody, LowerState.block_push h.agrees.blocks, h.block]
    rfl
  rw [Buffer.Function.run, hfnParams, hnames, hbody]
  exact (Buffer.run_append h.exec).trans hM₂

end Function

end LowerM

end TensorKernel
