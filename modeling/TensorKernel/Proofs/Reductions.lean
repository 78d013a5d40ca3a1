import TensorKernel.Proofs.ComputedSize
import TensorKernel.Proofs.Execution.Reduction

/-!
# Reductions compute what they evaluate to

A reduction folds the elements of a tensor along some axes, from a neutral element on.  Evaluation
folds a list of values.  The lowering takes a cell, or a buffer with a cell for every element of the
result, fills it with the neutral element, and emits one statement with a region that is run on every
element and its cell.

`buildGraph_reduction` says that executing what is emitted leaves what evaluation computes, whatever
was lowered before.  It is about integers, and about sums and products of booleans.  It is not about
the greatest or least of booleans, where the two differ: one bit with a sign is minus one if it is
set, so a true boolean is the lesser word, and the greater literal (`run_lower_max_booleans`).
-/

namespace TensorKernel

/-! ## Values -/

/-- An operator that has a neutral element is a sum, a product, a maximum or a minimum. -/
theorem BinOp.known_of_neutralElement {b : BinOp} {sz : ElemSize} {v : Literal}
    (h : b.neutralElement? sz = some v) : b = .add ∨ b = .mul ∨ b = .max ∨ b = .min := by
  cases b with
  | add | mul | max | min => decide
  | _ => cases h

/--
Cells are signed integers for booleans that are added or multiplied, and for all other integers.
-/
theorem BinOp.isSignedInteger_accumulatorSize {b : BinOp} {sz : ElemSize}
    (hsize : sz.isFloatingPoint = false) (hbool : sz = .bool → b = .add ∨ b = .mul) :
    (b.accumulatorSize sz).isSignedInteger = true := by
  unfold accumulatorSize
  split
  · rfl
  · next hother =>
    cases sz with
    | bool => exact absurd ⟨hbool rfl, rfl⟩ hother
    | i8 | i16 | i32 | i64 => rfl
    | f16 | f32 | f64 => cases hsize

/-- What the body of a reduction computes has no value of its own. -/
theorem Graph.FoldBody.meaning_ne_ok {ctx : EvalContext} {e : Entry} {b : BinOp}
    {x acc inner dst : NodeId} {p : OpId} (h : ctx.graph.FoldBody e b x acc inner dst p)
    (he : ctx.graph.EntryValid e) {given : GivenValues} (hgiven : e.GivenBy given) (v : Value) :
    meaning ctx given inner ≠ .ok v := by
  have hx : ∀ n v, Meaning.node ctx given n x ≠ .ok v := by
    intro n v hv
    cases n with
    | zero => cases hv
    | succ n =>
      have hnone := hgiven.get?_eq_none h.element.notGiven
      simp only [Meaning.node, hnone, h.element.constant, h.element.producer] at hv
      cases hv
  intro hv
  have hnone : given.get? inner = none := hgiven.get?_eq_none fun hmem => by
    have hproducer := h.producer
    rw [he.producer hmem] at hproducer
    cases hproducer
  rw [meaning] at hv
  simp only [Meaning.node, hnone, h.constant, h.producer] at hv
  rw [h.op] at hv
  obtain ⟨w, hw, -⟩ := exists_of_bind_ok (show (Meaning.scalarOp _ ⟨.binary b, [x, acc], [inner]⟩ _ >>=
    _) = _ from hv)
  rw [Meaning.scalarOp_binary] at hw
  obtain ⟨u, hu, -⟩ := exists_of_bind_ok hw
  obtain ⟨u', hu', -⟩ := exists_of_bind_ok (show (Meaning.node ctx given _ x >>= _) = _ from hu)
  exact hx _ _ hu'

/-- The body of a reduction of integers folds, if no boolean is in a cell. -/
theorem Graph.BodyValid.foldBody {g : Graph} {e : Entry} {b : BinOp} {arg init x acc inner dst : NodeId}
    {p : OpId} (hbody : g.BodyValid e (g.Available e) [] [(arg, x), (init, acc)] inner)
    (hconstant : (g.node inner).constant? = none) (hproducer : (g.node inner).producer = some p)
    (hop : g.op p = ⟨.binary b, [x, acc], [inner]⟩) (hne : x ≠ acc)
    (hknown : b = .add ∨ b = .mul ∨ b = .max ∨ b = .min)
    (hinit : g.elemSize init = g.elemSize dst) (hinner : g.elemSize inner = g.elemSize dst)
    (hsize : (g.elemSize arg).isFloatingPoint = false)
    (hsigned : (g.elemSize dst).isSignedInteger = true) : g.FoldBody e b x acc inner dst p := by
  obtain ⟨o, hproducer', hscalar, -⟩ := hbody.inner
  obtain rfl := Option.some.inj (hproducer.symm.trans hproducer')
  rw [hop] at hscalar
  have hx := hbody.size (arg, x) (by simp)
  have hacc := hbody.size (init, acc) (by simp)
  cases hscalar with
  | binary _ _ sx sacc sinner typed =>
    exact {
      element := hbody.hole (arg, x) (by simp)
      cell := hbody.hole (init, acc) (by simp)
      ne := hne
      producer := hproducer
      constant := hconstant
      op := hop
      known := hknown
      scalar := ⟨sx, sacc, sinner⟩
      typed := typed
      elementSize := by rw [hx, hsize]
      cellSize := hacc.trans hinit
      innerSize := hinner
      signed := hsigned }

/-- A reduction of a tensor that has all its elements has a value. -/
theorem Meaning.exists_reduction (ctx : EvalContext) {val : Valuation} {e : Entry} {b : BinOp}
    {x acc inner dst arg init : NodeId} {p : OpId} (hbody : ctx.graph.FoldBody e b x acc inner dst p)
    {axes shape : List Nat} {data : Array Literal} {start : Literal}
    (harg : val arg = .ok (.tensor shape data)) (hinit : val init = .ok (.scalar start))
    (hexact : data.size = Index.size shape)
    (hfits : Index.size (Graph.withoutAxes axes shape) < Word.count)
    (full : ctx.graph.isScalar dst = true → Graph.withoutAxes axes shape = []) :
    ∃ v, reduction ctx val axes arg init [x, acc] inner dst = .ok v := by
  have hcount : Index.count (Graph.withoutAxes axes shape) =
      Index.size (Graph.withoutAxes axes shape) := Word.wrap_of_lt hfits
  obtain ⟨cells, hfold, hcells⟩ := exists_fold
    (fun v cell => (hbody.exists_innerValue val v cell).elim fun _ h => ⟨_, h.2⟩) axes
    (Graph.withoutAxes axes shape) data (Index.rowMajor shape) 0
    (Array.replicate (Index.count (Graph.withoutAxes axes shape)) start)
    (by rw [Index.length_rowMajor, Nat.zero_add, hexact]) fun idx hidx => by
      have hrange := forall₂_withoutAxes axes (Index.inRange_of_mem_rowMajor hidx)
      rw [Array.size_replicate, hcount]
      exact Index.InRange.place_lt hrange hfits
  rw [reduction_of_fold harg hinit hfold]
  split
  · next hscalar =>
    have hlt : 0 < cells.size := by
      rw [hcells, Array.size_replicate, hcount, full hscalar]
      exact Nat.one_pos
    have helement : element cells 0 = .ok cells[0] := by
      rw [element, Array.getElem?_eq_getElem hlt]
    exact ⟨_, bind_of_ok helement rfl⟩
  · exact ⟨_, rfl⟩

namespace FunctionGraph

/--
Lowering a reduction where its operand and the dimensions of its result have names emits statements
that can be executed.  After them the node that it computes has a name, which holds a value.
-/
def LowersReduction (f : FunctionGraph) (given : GivenValues) (symbols : Table String Nat)
    (arg dst : NodeId) (o p : OpId) (v : Value) : Prop :=
  ∀ (depth : Nat) (st : LowerState) (M : Buffer.Store),
    st.Agrees ⟨f.graph, symbols⟩ (meaning ⟨f.graph, symbols⟩ given) M → st.Bound arg →
    (∀ d ∈ f.graph.shape dst, st.Named d) → st.isVisited p = false →
    ∃ st' stmts M' n, LowerM.operator f.graph (LowerM.node f.graph (depth + 2)) (f.graph.op o) st =
        .ok ((), st') ∧ st'.block = st.block ++ stmts ∧ Buffer.execAll stmts M = some M' ∧
      st'.lookup dst = some n ∧ M' n.key = some (.ofValue (f.graph.elemSize dst) v)

end FunctionGraph

/--
In a function that was built, every reduction folds a tensor with one of the four operators that have
a neutral element.  A reduction of integers, or a sum or a product of booleans, has a value, and
executing the statements that it is lowered to computes this value.

The elements of the result are counted in a word, and the sizes that the buffer of the result is
allocated with are not negative.
-/
theorem buildGraph_reduction {defs : List FunctionDef} {main : String} {options : Options}
    {f : FunctionGraph} (h : buildGraph defs main options = .ok f) {dst : NodeId} {o : OpId}
    (hproducer : (f.graph.node dst).producer = some o) {axes : List Nat} {body : Body}
    {starts : List NodeId} (hkind : (f.graph.op o).kind = .reduction axes body starts) :
    ∃ b arg inner p, f.graph.Reduces b axes arg inner dst o p ∧
      (b = .add ∨ b = .mul ∨ b = .max ∨ b = .min) ∧
      ((f.graph.elemSize arg).isFloatingPoint = false →
        (f.graph.elemSize arg = .bool → b = .add ∨ b = .mul) → ∀ args shape data,
        f.value? args arg = some (.tensor shape data) → data.size = Index.size shape →
        Index.size (Graph.withoutAxes axes shape) < Word.count →
        (∀ id, .node id ∈ f.graph.shape dst → ∀ v, f.value? args id = some (.scalar v) →
          0 ≤ v.asInt.toInt) →
        ∃ v, f.value? args dst = some v ∧ ∃ given symbols, f.bindAll args = .ok (given, symbols) ∧
          f.LowersReduction given symbols arg dst o p v) := by
  have hf := buildGraph_wellFormed h
  obtain ⟨hs, hbounded⟩ := buildGraph_settled h
  obtain ⟨b, arg, inner, p, hreduces, -⟩ := hs.reductions hproducer hkind
  obtain @⟨init, x, acc, neutral, -, hop, hconstant, hneutral, hinner, hcombine, hne, -,
    haccumulator⟩ := id hreduces
  have hknown := BinOp.known_of_neutralElement hneutral
  refine ⟨b, arg, inner, p, hreduces, hknown, fun hsize hbool args shape data harg hexact hfits
    hsized => ?_⟩
  rcases hf.valid.op_cases hs hproducer with ⟨hdst, hdims, hvalid⟩ | ⟨ok, hscalar⟩
  · rw [hop] at hvalid
    cases hvalid with
    | scalar hop => cases hop
    | reduction harg' hinit' sarg sinit isize full partly size body =>
      obtain ⟨given, symbols, hbind, hargValue⟩ := (hf.value?_eq_some harg').mp harg
      have hx : f.graph.elemSize x = f.graph.elemSize arg := body.size (arg, x) (by simp)
      -- A body of one known operator on an element and an accumulator.
      have hbody := body.foldBody (hs.computed (by rw [hinner]; exact Option.some_ne_none p)) hinner
        hcombine hne hknown isize size hsize
        (haccumulator ▸ BinOp.isSignedInteger_accumulatorSize (hx ▸ hsize) (hx ▸ hbool))
      obtain ⟨-, hshape, -, hholds⟩ := hf.types_of_bind hbind harg' hargValue
      have hgivenBy := (FunctionGraph.admits_of_bindAll hf.interface hbind).givenBy
      have hinitValue := hf.meaning_constant_of_bind hbind hconstant
      have hvalue := hf.meaning_of_bind hbind hs hdst hproducer
      rw [hop] at hvalue
      have hfull : f.graph.isScalar dst = true → Graph.withoutAxes axes shape = [] := fun hscalar => by
        have hnone := forall₂_withoutAxes axes (Meaning.forall₂_of_dims hshape)
        rwa [full hscalar, List.forall₂_nil_left_iff] at hnone
      obtain ⟨v, hv⟩ := Meaning.exists_reduction ⟨f.graph, symbols⟩ hbody hargValue hinitValue hexact
        hfits hfull
      -- The buffer is allocated with sizes that its dimensions have.
      have hread : ∀ d ∈ f.graph.shape dst, Meaning.Sized (meaning ⟨f.graph, symbols⟩ given) d := by
        intro d hd
        cases d with
        | const n => exact hbounded dst _ hd
        | sym name => trivial
        | node id =>
          refine fun w hw => hsized id hd w ?_
          exact (hf.value?_eq_some (hdims _ hd).avail).mpr ⟨given, symbols, hbind,
            LowerM.eq_of_scalar hw⟩
      refine ⟨v, (hf.value?_eq_some hdst).mpr ⟨given, symbols, hbind, hvalue.trans hv⟩, given, symbols,
        hbind, fun depth st M hagrees hbound hnamed hvisited => ?_⟩
      obtain ⟨⟨⟩, st', stmts, M', hrun, -, hstmts, -, n, w, hlookup, hw, hkey⟩ :=
        LowerM.performs_reduction (k := depth) hbody hf.valid.coherent hf.valid.entry
          (hbody.meaning_ne_ok hf.valid.entry hgivenBy) hx hholds hexact
          hfits hargValue hshape hconstant hinitValue isize full partly hvalue hbound hvisited hnamed
          (fun id hid => hf.counts hbind (hdims _ hid)) hread hagrees
      rw [← hop] at hrun
      obtain rfl := Except.ok.inj (hw.symm.trans (hvalue.trans hv))
      exact ⟨st', stmts, M', n, hrun, hstmts.block, hstmts.exec, hlookup, hkey⟩
  · rw [hop] at hscalar
    cases hscalar

/-- A kernel that reduces a vector of booleans with a function of the numeric library. -/
def reducedBooleans (function : String) : List FunctionDef :=
  let name (id : String) : Expr := .name id .nowhere
  let reduced : Expr := .call (.member (name "np") function .nowhere) [name "x"] [] .nowhere
  [⟨"main", [⟨"x", some (.subscript (name "bool") (name "M") .nowhere), .nowhere⟩], .missing,
    [.returns (some reduced) .nowhere], .nowhere⟩]

theorem buildGraph_reduction_sum :
    let args := [.tensor [3] #[.bool true, .bool false, .bool true]]
    ∃ f, buildGraph (reducedBooleans "sum") "main" .default = .ok f ∧
      f.value? args ⟨6⟩ = some (.scalar (.int 2)) ∧
      ∃ st M n, LowerM.operator f.graph (LowerM.node f.graph 2) (f.graph.op ⟨1⟩)
          (LowerState.start.name ⟨0⟩ (.plain (sanitize "x"))) = .ok ((), st) ∧
        Buffer.execAll st.block (.ofList (LowerM.parameterEntries f args)) = some M ∧
        st.lookup ⟨6⟩ = some n ∧ M n.key = some (.number 2) := by
  intro args
  have hbuilds : (buildGraph (reducedBooleans "sum") "main" .default).toOption.any (fun f =>
      decide (((f.graph.node ⟨6⟩).producer = some ⟨1⟩ ∧
        f.graph.op ⟨1⟩ = ⟨.reduction [0] ⟨[(⟨0⟩, ⟨3⟩), (⟨2⟩, ⟨4⟩)], [(⟨5⟩, ⟨6⟩)]⟩ [⟨2⟩],
          [⟨0⟩, ⟨2⟩], [⟨6⟩]⟩ ∧
        (f.graph.node ⟨2⟩).constant? = some (.int 0) ∧ (f.graph.node ⟨5⟩).producer = some ⟨0⟩ ∧
        f.graph.op ⟨0⟩ = ⟨.binary .add, [⟨3⟩, ⟨4⟩], [⟨5⟩]⟩) ∧
        f.graph.elemSize ⟨0⟩ = .bool ∧ f.graph.elemSize ⟨6⟩ = .i64 ∧ f.graph.shape ⟨6⟩ = [] ∧
        f.inputs = [("x", ⟨0⟩)] ∧
        f.value? args ⟨0⟩ = some (.tensor [3] #[.bool true, .bool false, .bool true]) ∧
        f.value? args ⟨6⟩ = some (.scalar (.int 2)))) = true := by decide +kernel
  obtain ⟨f, hbuild, hchecks⟩ := exists_of_any_toOption hbuilds
  obtain ⟨⟨hproducer, hop, hconstant, hbody, hcombine⟩, harg, hdst, hshape, hinputs, hvector,
    hsum⟩ := of_decide_eq_true hchecks
  have hcounted : ∀ id, Dim.node id ∈ f.graph.shape ⟨6⟩ → ∀ v,
      f.value? args id = some (.scalar v) → 0 ≤ v.asInt.toInt := by
    intro id hid
    simp [hshape] at hid
  obtain ⟨b, arg, inner, p, hreduces, -, hagree⟩ := buildGraph_reduction hbuild hproducer (by rw [hop])
  -- The operator says what is folded, and where the body is.
  obtain @⟨init, x, acc, -, -, hop', -, -, hbody', hcombine', -, -, -⟩ := hreduces
  cases hop.symm.trans hop'
  cases hbody.symm.trans hbody'
  cases hcombine.symm.trans hcombine'
  obtain ⟨v, hv, given, symbols, hbind, hlowers⟩ := hagree (by rw [harg]; rfl)
    (fun _ => Or.inl rfl) args [3] _ hvector rfl (by decide) hcounted
  obtain rfl := Option.some.inj (hv.symm.trans hsum)
  -- The reduction is lowered where only the parameter has a name.
  obtain ⟨w, hw, hholds⟩ := LowerM.parameter_holds
    (FunctionGraph.admits_of_bindAll (buildGraph_wellFormed hbuild).interface hbind)
    (by rw [hinputs]; decide) (by rw [hinputs]; decide) ("x", ⟨0⟩) (by rw [hinputs]; decide)
  have hstart : LowerState.start.Agrees ⟨f.graph, symbols⟩ (meaning ⟨f.graph, symbols⟩ given)
      (.ofList (LowerM.parameterEntries f args)) := LowerM.agrees_start
  have hagrees := hstart.name (n := .plain (sanitize "x")) hw hholds
  obtain ⟨st, stmts, M, n, hrun, hblock, hexec, hlookup, hkey⟩ := hlowers 0 _ _ hagrees
    (by rw [LowerState.Bound, LowerState.lookup_name hstart.scopes, if_pos rfl]; rfl) (by simp [hshape]) rfl
  refine ⟨f, hbuild, hsum, st, M, n, hrun, hblock ▸ hexec, hlookup, ?_⟩
  rw [hkey, hdst]
  rfl

/--
The greatest of two booleans: true, of which the word is minus one, is the greater one where it is
evaluated and the lesser one where the words are compared.
-/
theorem run_lower_max_booleans :
    let args := [.tensor [2] #[.bool true, .bool false]]
    ∃ f fn, buildGraph (reducedBooleans "max") "main" .default = .ok f ∧ f.lower .default = .ok fn ∧
      f.eval args = .ok [.scalar (.bool true)] ∧
      f.resultData [.scalar (.bool true)] = [.number (-1)] ∧
      fn.run (f.parameterData args) = some [.number 0] := by
  intro args
  have hruns : (buildGraph (reducedBooleans "max") "main" .default).toOption.any (fun f =>
      (f.lower .default).toOption.any fun fn =>
        decide (((fn.run (f.parameterData args)).map (List.map Buffer.Datum.number?) = some [some 0] ∧
          (f.resultData [.scalar (.bool true)]).map Buffer.Datum.number? = [some (-1)]) ∧
          f.eval args = .ok [.scalar (.bool true)])) = true := by decide +kernel
  obtain ⟨f, hbuild, hruns⟩ := exists_of_any_toOption hruns
  obtain ⟨fn, hlower, hruns⟩ := exists_of_any_toOption hruns
  obtain ⟨⟨hrun, hresult⟩, heval⟩ := of_decide_eq_true hruns
  obtain ⟨data, hdata, hnumbers⟩ := Option.map_eq_some_iff.mp hrun
  have hleast : f.resultData [.scalar (.bool true)] = [-1].map .number :=
    Buffer.Datum.eq_numbers hresult
  have hzero : data = [0].map .number := Buffer.Datum.eq_numbers hnumbers
  exact ⟨f, fn, hbuild, hlower, heval, hleast, hdata.trans (congrArg some hzero)⟩

end TensorKernel
