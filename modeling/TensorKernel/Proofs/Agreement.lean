import TensorKernel.Proofs.Execution.Function

/-!
# Lowered functions on scalars compute what evaluation gives

Evaluation computes in 64 bits and wraps what it gets; the emitted statements convert the operands
first and compute at the width of the result.  Both agree wherever evaluation gives a value, except
for the one quotient that no signed type can hold.
-/

namespace TensorKernel

namespace FunctionGraph

variable {f : FunctionGraph} {sz : ElemSize} {args : List Value} {given : GivenValues}
  {sizes : Table String Nat}

/-- The scalar of an available node is what the node means. -/
theorem WellFormed.scalar?_eq (hf : f.WellFormed sz) (hbind : f.bindAll args = .ok (given, sizes))
    {id : NodeId} (hid : f.graph.Available f.entry id) {w : Literal}
    (hw : meaning ⟨f.graph, sizes⟩ given id = .ok (.scalar w)) : f.scalar? args id = some w := by
  have hviewed : ({ f with outputs := [id] } : FunctionGraph).Evaluable sz f.entry :=
    ⟨hf.valid.coherent, hf.valid.entry, fun _ => Iff.rfl, fun _ => Iff.rfl, hf.interface⟩
  have heval : ({ f with outputs := [id] } : FunctionGraph).eval args = .ok [.scalar w] := by
    rw [hviewed.eval_eq (fun _ h => List.mem_singleton.mp h ▸ hid) args]
    refine bind_of_ok (show FunctionGraph.bindAll _ args = .ok (given, sizes) from hbind) ?_
    show [id].mapM (meaning ⟨f.graph, sizes⟩ given) = .ok [.scalar w]
    rw [List.mapM_cons, hw]
    rfl
  rw [scalar?, heval]

/-- A quotient is one of its type unless the least value is divided by minus one. -/
theorem WellFormed.divides (hf : f.WellFormed sz) (hbind : f.bindAll args = .ok (given, sizes))
    {op : Op} {b : BinOp} {lhs rhs dst : NodeId} {l r : Literal}
    (hsafe : f.dividesLeast args op = false) (hop : op = ⟨.binary b, [lhs, rhs], [dst]⟩)
    (hb : b = .floorDiv ∨ b = .rem) (hlhs : f.graph.Available f.entry lhs)
    (hrhs : f.graph.Available f.entry rhs)
    (hl : meaning ⟨f.graph, sizes⟩ given lhs = .ok (.scalar l))
    (hr : meaning ⟨f.graph, sizes⟩ given rhs = .ok (.scalar r)) :
    ¬ (l.asInt.toInt = (f.graph.elemSize dst).least ∧ r.asInt.toInt = -1) := by
  rw [hop] at hsafe
  have hnot := of_decide_eq_false hsafe
  rw [hf.scalar?_eq hbind hlhs hl, hf.scalar?_eq hbind hrhs hr] at hnot
  exact fun ⟨hleast, hminus⟩ => hnot ⟨hb, congrArg some hleast, congrArg some hminus⟩

/-- It suffices that no operator divides the least value of its type by minus one. -/
theorem WellFormed.dividesSafely (hf : f.WellFormed sz)
    (h : ∀ op ∈ f.graph.ops, f.dividesLeast args op = false) : f.DividesSafely args := by
  intro id o _ hproducer
  have hlt := (hf.valid.coherent id o hproducer).1
  have hop : f.graph.op o = f.graph.ops[o.index] := by
    simp [Graph.op, Array.getD, hlt]
  rw [hop]
  exact h _ (Array.getElem_mem hlt)

/-- The values of the nodes of a built graph of scalars. -/
theorem WellFormed.scalarValues (hf : f.WellFormed sz) (hintegral : f.graph.IsIntegral)
    (hsafe : f.DividesSafely args) (hbind : f.bindAll args = .ok (given, sizes)) :
    LowerM.ScalarValues f sizes given where
  coherent := hf.valid.coherent
  entryValid := hf.valid.entry
  givenBy := (admits_of_bindAll hf.interface hbind).givenBy
  integral := hintegral
  types hid h :=
    have hadmits := admits_of_bindAll hf.interface hbind
    types_meaning hf.valid.coherent hf.valid.entry hadmits.givenBy
      (fun _ _ hv => Admits.types hf.evaluable hadmits _ hv) hid h
  defined hid hproducer hop hb hlhs hrhs hl hr :=
    hf.divides hbind (hsafe _ _ hid hproducer) hop hb hlhs hrhs hl hr

end FunctionGraph

/--
A graph that was built, has only scalars that are booleans or signed integers and names its
parameters by ASCII identifiers lowers to a function that returns what evaluation gives, if no
division leaves its type.
-/
theorem run_lower {defs : List FunctionDef} {main : String} {options : Options} {f : FunctionGraph}
    (h : buildGraph defs main options = .ok f) (hascii : ∀ p ∈ f.inputs, IsAsciiIdentifier p.1)
    (hintegral : f.graph.IsIntegral) {args vs : List Value} (heval : f.eval args = .ok vs)
    (hsafe : f.DividesSafely args) (lowering : Options) :
    ∃ fn, f.lower lowering = .ok fn ∧ fn.run (f.parameterData args) = some (f.resultData vs) := by
  have hf := buildGraph_wellFormed h
  obtain ⟨_, -, -, hdeclared⟩ := buildGraph_declared h
  rw [hf.evaluable.eval_eq hf.outputs args] at heval
  obtain ⟨⟨given, sizes⟩, hbind, hvs⟩ := exists_of_bind_ok heval
  obtain ⟨fn, hlower⟩ := hf.exists_lower lowering
  obtain ⟨s, hrun⟩ := FunctionGraph.run_of_lower hlower
  exact ⟨fn, hlower, LowerM.run_function (FunctionGraph.admits_of_bindAll hf.interface hbind)
    (hf.scalarValues hintegral hsafe hbind) hf.interface hf.outputs hdeclared.names hascii hvs hrun⟩

/-! ## A kernel on scalars -/

/--
A kernel that inlines a call.  It narrows the product of two integers, divides it with a quotient
rounded down and a remainder, compares integers of different sizes, and computes with a boolean.
-/
def roundedQuotients : List FunctionDef :=
  let name (id : String) : Expr := .name id .nowhere
  let int (v : Int) : Expr := .int v .nowhere
  let binary (lhs : Expr) (op : BinOp) (rhs : Expr) : Expr := .binary lhs op rhs .nowhere
  [⟨"mixed", [⟨"p", some (name "int8"), .nowhere⟩, ⟨"q", some (name "bool"), .nowhere⟩], .missing,
    [.returns (some (binary (binary (binary (name "p") .rem (int (-300))) .mul (name "q")) .sub
      (binary (name "p") .floorDiv (int 7)))) .nowhere], .nowhere⟩,
   ⟨"quotients", [⟨"x", some (name "int8"), .nowhere⟩, ⟨"y", some (name "int16"), .nowhere⟩],
    .type (name "int32"),
    [.assign (name "less") (.compare (name "x") [.lt] [name "y"] .nowhere) .nowhere,
     .returns (some (binary (.call (name "mixed") [binary (name "x") .mul (name "y"), name "less"] []
      .nowhere) .sub (.unary .not (name "less") .nowhere))) .nowhere], .nowhere⟩]

theorem run_lower_roundedQuotients :
    let args := [.scalar (.int (-7)), .scalar (.int 300)]
    ∃ f fn, buildGraph roundedQuotients "quotients" .default = .ok f ∧
      f.lower .default = .ok fn ∧
      fn.run (f.parameterData args) = some (f.resultData [.scalar (.int (-44))]) := by
  intro args
  have hbuilds : (buildGraph roundedQuotients "quotients" .default).toOption.any (fun f =>
      (∀ p ∈ f.inputs, IsAsciiIdentifier p.1) ∧ f.graph.IsIntegral ∧
        (f.eval args).toOption = some [.scalar (.int (-44))] ∧
        ∀ op ∈ f.graph.ops, f.dividesLeast args op = false) = true := by decide +kernel
  obtain ⟨f, hbuild, hchecks⟩ := exists_of_any_toOption hbuilds
  obtain ⟨hascii, hintegral, heval, hops⟩ := of_decide_eq_true hchecks
  obtain ⟨fn, hlower, hrun⟩ := run_lower hbuild hascii hintegral (ok_of_toOption heval)
    ((buildGraph_wellFormed hbuild).dividesSafely hops) .default
  exact ⟨f, fn, hbuild, hlower, hrun⟩

end TensorKernel
