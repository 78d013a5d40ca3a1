import TensorKernel.Proofs.ComputedSize

/-!
# Lengths that are computed

Where the bounds and the step of a range are not all constants, its length is computed while a kernel
runs, by four operators that are each evaluated in the type that their operands have in common.  The
formula is the one for constants, which is evaluated without bounds.

`buildGraph_openRange` says that the two agree for bounds that are not negative and a positive step,
since nothing wraps around on the way: the difference of the bounds is at worst the negative of the
greatest number of a type, and there is one more number below it.

A range over a whole axis has the dimension of the axis.  Its upper bound is a scalar that holds this
dimension, if the type of indices does.
-/

namespace TensorKernel

/-! ## Numbers of types -/

namespace ElemSize

/-- A number in the range of a type of integers. -/
structure Contains (sz : ElemSize) (n : Int) : Prop where
  signed : sz.isSignedInteger = true
  low : sz.minInt ≤ n
  high : n ≤ sz.maxInt

theorem contains_toInt {sz : ElemSize} {v : Int64} : sz.Contains v.toInt ↔ sz.Holds (.int v) :=
  ⟨fun h => ⟨h.signed, h.low, h.high⟩, fun h => ⟨h.1, h.2.1, h.2.2⟩⟩

/-- There is one more number below zero than above. -/
theorem minInt_eq {sz : ElemSize} (h : sz.isSignedInteger = true) : sz.minInt = -sz.maxInt - 1 := by
  cases sz <;> first | rfl | cases h

namespace Contains

variable {sz l r : ElemSize} {m n : Int}

theorem bmod_eq (h : sz.Contains n) : n.bmod (2 ^ 64) = n := by
  obtain ⟨hsigned, hlow, hhigh⟩ := h
  cases sz <;> simp only [isSignedInteger, Bool.false_eq_true] at hsigned <;>
    simp only [minInt, maxInt] at hlow hhigh <;>
    apply Int.bmod_eq_of_le <;> omega

theorem lub_left (h : l.Contains n) (hr : r.isSignedInteger = true) : (l.lub r).Contains n := by
  obtain ⟨hl, hlow, hhigh⟩ := h
  refine ⟨lub_isSignedInteger_of hl hr, ?_, ?_⟩ <;>
    cases l <;> simp only [isSignedInteger, Bool.false_eq_true] at hl <;>
    cases r <;> simp only [isSignedInteger, Bool.false_eq_true] at hr <;>
    simp only [minInt, maxInt] at hlow hhigh <;>
    simp [lub, isFloatingPoint, bits, minInt, maxInt] <;> omega

theorem lub_right (h : r.Contains n) (hl : l.isSignedInteger = true) : (l.lub r).Contains n := by
  rw [lub_comm]
  exact h.lub_left hl

/-- The difference of two numbers that are not negative, and the number before it. -/
theorem sub (hm : sz.Contains m) (hn : sz.Contains n) (hmpos : 0 ≤ m) (hnpos : 0 ≤ n) :
    sz.Contains (n - m) ∧ sz.Contains (n - m - 1) := by
  have hmin := minInt_eq hm.signed
  have hhigh := hm.high
  have hhigh' := hn.high
  refine ⟨⟨hm.signed, ?_, ?_⟩, hm.signed, ?_, ?_⟩ <;> omega

end Contains

end ElemSize

/-- A quotient by a positive number is between zero and the number that is divided. -/
theorem fdiv_between (n : Int) {s : Int} (hs : 1 ≤ s) :
    0 ≤ n ∧ 0 ≤ n.fdiv s ∧ n.fdiv s ≤ n ∨ n < 0 ∧ n ≤ n.fdiv s ∧ n.fdiv s < 0 := by
  have hpos : 0 < s := by omega
  rw [Int.fdiv_eq_ediv_of_nonneg n (Int.le_of_lt hpos)]
  by_cases hn : 0 ≤ n
  · exact Or.inl ⟨hn, Int.ediv_nonneg hn (Int.le_of_lt hpos), Int.ediv_le_self s hn⟩
  · have hneg : n < 0 := Int.lt_of_not_ge hn
    have hmul : n * s ≤ n := by
      have h := Int.mul_le_mul_of_nonpos_left (Int.le_of_lt hneg) hs
      rwa [Int.mul_one] at h
    exact Or.inr ⟨hneg, (Int.le_ediv_iff_mul_le hpos).mpr hmul, Int.ediv_neg_of_neg_of_pos hneg hpos⟩

namespace ElemSize.Contains

variable {sz : ElemSize} {n s : Int}

theorem fdiv (h : sz.Contains n) (hs : 1 ≤ s) : sz.Contains (n.fdiv s) := by
  have hmin := minInt_eq h.signed
  have hlow := h.low
  have hhigh := h.high
  refine ⟨h.signed, ?_, ?_⟩ <;> rcases fdiv_between n hs with h | h <;> omega

/-- The number behind a quotient, if there is a number behind the one that is divided. -/
theorem fdiv_add_one (h : sz.Contains n) (h' : sz.Contains (n + 1)) (hs : 1 ≤ s) :
    sz.Contains (n.fdiv s + 1) := by
  have hlow := h.low
  have hhigh := h'.high
  have hmin := minInt_eq h.signed
  refine ⟨h.signed, ?_, ?_⟩ <;> rcases fdiv_between n hs with h | h <;> omega

end ElemSize.Contains

/-- What an operator makes of two numbers where it has the result that it has without bounds. -/
inductive BinOp.Exact : BinOp → Int → Int → Int → Prop
  | add (l r : Int) : Exact .add l r (l + r)
  | sub (l r : Int) : Exact .sub l r (l - r)
  | floorDiv (l : Int) {r : Int} (hr : r ≠ 0) : Exact .floorDiv l r (l.fdiv r)

namespace BinOp.Exact

variable {op : BinOp} {n : Int}

/-- A result that is in the type of the operator is not wrapped around. -/
theorem binary {l r : Int64} {sz : ElemSize} (h : op.Exact l.toInt r.toInt n)
    (hn : sz.Contains n) :
    ∃ w : Int64, w.toInt = n ∧ (Literal.int l).binary op (.int r) sz = .ok (.int w) := by
  have hfloat := ElemSize.isFloatingPoint_of_isSignedInteger hn.signed
  obtain ⟨w, hw, hcomputed⟩ : ∃ w : Int64, w.toInt = n.bmod (2 ^ 64) ∧
      (Literal.int l).binary op (.int r) sz = .ok ((Literal.int w).convert sz) := by
    cases h with
    | add =>
      refine ⟨l + r, Int64.toInt_add l r, ?_⟩
      simp [Literal.binary, isComparison, isBoolean, hfloat]
      rfl
    | sub =>
      refine ⟨l - r, Int64.toInt_sub l r, ?_⟩
      simp [Literal.binary, isComparison, isBoolean, hfloat]
      rfl
    | floorDiv _ hr =>
      have hr' : r ≠ 0 := ne_zero_iff_toInt.mpr hr
      refine ⟨Literal.floorDiv l r, Literal.toInt_floorDiv l hr, ?_⟩
      simp [Literal.binary, isComparison, isBoolean, hfloat, Literal.intBinary, Literal.asInt, hr']
      rfl
  rw [hn.bmod_eq] at hw
  subst hw
  refine ⟨w, rfl, ?_⟩
  rw [hcomputed, Literal.convert_eq_self (ElemSize.contains_toInt.mp hn) hfloat]

end BinOp.Exact

/-! ## The operators -/

namespace Graph

variable {g : Graph} {e : Entry}

/-- What is computed from two scalars is of the type that the operator has for them. -/
theorem Applies.typed {op : BinOp} {lhs rhs dst : NodeId} (h : g.Applies op lhs rhs dst)
    (hv : g.Valid e) (hs : g.Settled e) (hid : g.Available e dst) :
    g.Available e lhs ∧ g.Available e rhs ∧
      op.Typed (g.elemSize lhs) (g.elemSize rhs) (g.elemSize dst) := by
  obtain ⟨o, hproducer, hop⟩ := h
  have hcomputes := (hv.computes hs hid hproducer).valid
  rw [hop] at hcomputes
  cases hcomputes with
  | scalar hscalar =>
    cases hscalar with
    | binary hlhs hrhs _ _ _ htyped => exact ⟨hlhs, hrhs, htyped⟩

end Graph

namespace FunctionGraph

/-- A scalar that evaluates to a number. -/
def HasNumber (f : FunctionGraph) (args : List Value) (id : NodeId) (n : Int) : Prop :=
  ∃ v : Int64, v.toInt = n ∧ f.value? args id = some (.scalar (.int v))

/--
A scalar that four operators compute from the bounds and the step of a range.  Each of them gives
the number that it gives without bounds.
-/
def ComputesLength (f : FunctionGraph) (args : List Value) (lower upper step size : NodeId)
    (l u s : Int) : Prop :=
  ∃ one extent last steps, f.graph.IsInt one 1 ∧
    (f.graph.Applies .sub upper lower extent ∧ f.HasNumber args extent (u - l)) ∧
    (f.graph.Applies .sub extent one last ∧ f.HasNumber args last (u - l - 1)) ∧
    (f.graph.Applies .floorDiv last step steps ∧ f.HasNumber args steps ((u - l - 1).fdiv s)) ∧
    f.graph.Applies .add steps one size ∧ f.HasNumber args size (BuildM.rangeLength l u s)

variable {f : FunctionGraph} {sz : ElemSize} {args : List Value} {given : GivenValues}
  {symbols : Table String Nat} {id : NodeId} {l u s n : Int}

theorem HasNumber.unique (hl : f.HasNumber args id l) (hu : f.HasNumber args id u) : l = u := by
  obtain ⟨v, rfl, hv⟩ := hl
  obtain ⟨w, rfl, hw⟩ := hu
  rw [hv] at hw
  rw [Literal.int.inj (Value.scalar.inj (Option.some.inj hw))]

section Bound

variable (hf : f.WellFormed sz) (hbind : f.bindAll args = .ok (given, symbols))
include hf hbind

theorem WellFormed.hasNumber_iff (hid : f.graph.Available f.entry id) :
    f.HasNumber args id n ↔
      ∃ v : Int64, v.toInt = n ∧ meaning ⟨f.graph, symbols⟩ given id = .ok (.scalar (.int v)) := by
  simp only [HasNumber, hf.value?_iff_of_bind hbind hid]

/-- A number that a node evaluates to is in the type of the node. -/
theorem WellFormed.contains_of_hasNumber (hid : f.graph.Available f.entry id)
    (h : f.HasNumber args id n) : (f.graph.elemSize id).Contains n := by
  obtain ⟨v, rfl, hv⟩ := (hf.hasNumber_iff hbind hid).mp h
  exact ElemSize.contains_toInt.mpr (hf.types_of_bind hbind hid hv).2

/-- An integer constant evaluates to itself. -/
theorem WellFormed.meaning_of_isInt (hm : f.graph.Measured sz f.symbols) {v : Int64}
    (h : f.graph.IsInt id v) : meaning ⟨f.graph, symbols⟩ given id = .ok (.scalar (.int v)) := by
  have hholds := hm.constants h
  rw [hf.meaning_constant_of_bind hbind h,
    Literal.convert_eq_self hholds (ElemSize.isFloatingPoint_of_isSignedInteger hholds.1)]

theorem WellFormed.hasNumber_of_isInt (hm : f.graph.Measured sz f.symbols) {v : Int64}
    (h : f.graph.IsInt id v) : f.HasNumber args id v.toInt :=
  (hf.hasNumber_iff hbind ⟨0, Or.inr ⟨_, h⟩⟩).mpr ⟨v, rfl, hf.meaning_of_isInt hbind hm h⟩

/-- An operator computes the number that it has without bounds, if its type has this number. -/
theorem WellFormed.hasNumber_of_applies (hs : f.graph.Settled f.entry) {op : BinOp}
    {lhs rhs dst : NodeId} (hdst : f.graph.Available f.entry dst)
    (happlies : f.graph.Applies op lhs rhs dst) (hl : f.HasNumber args lhs l)
    (hr : f.HasNumber args rhs u) (hexact : op.Exact l u n)
    (hn : (f.graph.elemSize dst).Contains n) : f.HasNumber args dst n := by
  obtain ⟨hlhs, hrhs, htyped⟩ := happlies.typed hf.valid hs hdst
  obtain ⟨o, hproducer, hop⟩ := happlies
  obtain ⟨v, rfl, hv⟩ := (hf.hasNumber_iff hbind hlhs).mp hl
  obtain ⟨w, rfl, hw⟩ := (hf.hasNumber_iff hbind hrhs).mp hr
  obtain ⟨r, rfl, hr⟩ := hexact.binary hn
  refine (hf.hasNumber_iff hbind hdst).mpr ⟨r, rfl, ?_⟩
  rw [hf.meaning_of_bind hbind hs hdst hproducer, hop]
  show (Meaning.scalarOp _ _ _ >>= _) = _
  rw [Meaning.scalarOp_binary, Meaning.scalar, Meaning.scalar, hv, hw]
  simp only [bind, Except.bind, hr]
  rfl

/-- The scalar that holds a dimension has its number, if the type of indices has this number. -/
theorem WellFormed.number_of_spans (hs : f.graph.Settled f.entry)
    (hm : f.graph.Measured sz f.symbols) {d : Dim} (hspans : f.graph.Spans sz f.symbols d id)
    (hid : f.graph.Available f.entry id) {v : Literal}
    (hv : meaning ⟨f.graph, symbols⟩ given id = .ok (.scalar v)) :
    ∃ n, Meaning.dimNumber ⟨f.graph, symbols⟩ (meaning ⟨f.graph, symbols⟩ given) d = .ok n ∧
      (sz.Contains n → v.asInt.toInt = n) := by
  -- Along copies the number is kept, as long as the type of indices has it.
  induction hspans generalizing v with
  | @const id w h =>
    rw [hf.meaning_of_isInt hbind hm h] at hv
    obtain rfl := Value.scalar.inj (Except.ok.inj hv)
    refine ⟨w.toInt, ?_, fun _ => rfl⟩
    rw [Meaning.dimNumber, Int64.ofInt_toInt]
  | @sym name symbol h =>
    have hmem := Table.mem_of_get? h
    obtain ⟨n, -, hsize, hgiven⟩ := (admits_of_bindAll hf.interface hbind).symbol _ hmem
    have htype : f.graph.elemSize symbol.node = sz :=
      congrArg KernelType.elemSize (hf.interface.symbolType _ hmem)
    rw [meaning_of_given hgiven, sizeValue, htype] at hv
    obtain rfl := Value.scalar.inj (Except.ok.inj hv)
    refine ⟨n, ?_, fun hn => ?_⟩
    · rw [Meaning.dimNumber]
      simp only [hsize]
    · have hword : (Int64.ofNat n).toInt = n := Int64.toInt_ofNat'.trans hn.bmod_eq
      rw [← hword] at hn
      rw [Literal.convert_eq_self (ElemSize.contains_toInt.mp hn)
        (ElemSize.isFloatingPoint_of_isSignedInteger hn.signed)]
      exact hword
  | node id =>
    refine ⟨v.asInt.toInt, ?_, fun _ => rfl⟩
    rw [Meaning.dimNumber, Meaning.scalar, hv]
    rfl
  | @copy d o src dst hproducer hop htype _ ih =>
    have hcomputes := (hf.valid.computes hs hid hproducer).valid
    rw [hop] at hcomputes
    have hsrc : f.graph.Available f.entry src := by
      cases hcomputes with
      | scalar hscalar => cases hscalar
      | copy _ hsrc _ => exact hsrc
    have hsize : f.graph.elemSize dst = sz := congrArg KernelType.elemSize htype
    rw [hf.meaning_of_bind hbind hs hid hproducer, hop] at hv
    obtain ⟨w, hw, hconvert⟩ := exists_of_bind_ok (show (meaning _ _ src >>= _) = _ from hv)
    rw [hsize] at hconvert
    cases w with
    | tensor shape data => cases hconvert
    | scalar x =>
      obtain rfl := Value.scalar.inj (Except.ok.inj hconvert)
      obtain ⟨n, hn, hnumber⟩ := ih hsrc hw
      refine ⟨n, hn, fun hcontains => ?_⟩
      have hx := hnumber hcontains
      rw [← hx] at hcontains
      rw [Literal.convert_asInt x hcontains.signed,
        Literal.convert_eq_self (ElemSize.contains_toInt.mp hcontains)
          (ElemSize.isFloatingPoint_of_isSignedInteger hcontains.signed)]
      exact hx

/-- A computed length is that of the range: no operator on the way to it wraps around. -/
theorem WellFormed.computesLength (hs : f.graph.Settled f.entry)
    (hm : f.graph.Measured sz f.symbols) {lower upper step one extent last steps size : NodeId}
    (hone : f.graph.IsInt one 1) (hextent : f.graph.Applies .sub upper lower extent)
    (hlast : f.graph.Applies .sub extent one last)
    (hsteps : f.graph.Applies .floorDiv last step steps)
    (hsize : f.graph.Applies .add steps one size) (hid : f.graph.Available f.entry size)
    (hl : f.HasNumber args lower l) (hu : f.HasNumber args upper u) (hstep : f.HasNumber args step s)
    (hlpos : 0 ≤ l) (hupos : 0 ≤ u) (hspos : 1 ≤ s) :
    f.ComputesLength args lower upper step size l u s := by
  have hv := hf.valid
  obtain ⟨havSteps, havOne, htSize⟩ := hsize.typed hv hs hid
  obtain ⟨havLast, havStep, htSteps⟩ := hsteps.typed hv hs havSteps
  obtain ⟨havExtent, -, htLast⟩ := hlast.typed hv hs havLast
  obtain ⟨havUpper, havLower, htExtent⟩ := hextent.typed hv hs havExtent
  have hnOne : f.HasNumber args one 1 := hf.hasNumber_of_isInt hbind hm hone
  have hcl := hf.contains_of_hasNumber hbind havLower hl
  have hcu := hf.contains_of_hasNumber hbind havUpper hu
  have hcs := hf.contains_of_hasNumber hbind havStep hstep
  have hcOne := hf.contains_of_hasNumber hbind havOne hnOne
  -- The type of the bounds has their difference and the number before it; later types are wider.
  have hcExtent : (f.graph.elemSize extent).Contains (u - l) ∧
      (f.graph.elemSize extent).Contains (u - l - 1) := by
    rw [show f.graph.elemSize extent = _ from htExtent.result]
    exact (hcl.lub_right hcu.signed).sub (hcu.lub_left hcl.signed) hlpos hupos
  have hcLast : (f.graph.elemSize last).Contains (u - l) ∧
      (f.graph.elemSize last).Contains (u - l - 1) := by
    rw [show f.graph.elemSize last = _ from htLast.result]
    exact ⟨hcExtent.1.lub_left hcOne.signed, hcExtent.2.lub_left hcOne.signed⟩
  have hcSteps : (f.graph.elemSize steps).Contains ((u - l - 1).fdiv s) ∧
      (f.graph.elemSize steps).Contains ((u - l - 1).fdiv s + 1) := by
    rw [show f.graph.elemSize steps = _ from htSteps.result]
    have hwide := hcLast.1.lub_left hcs.signed
    have hwide' := hcLast.2.lub_left hcs.signed
    exact ⟨hwide'.fdiv hspos, hwide'.fdiv_add_one (by rwa [Int.sub_add_cancel]) hspos⟩
  have hcSize : (f.graph.elemSize size).Contains ((u - l - 1).fdiv s + 1) := by
    rw [show f.graph.elemSize size = _ from htSize.result]
    exact hcSteps.2.lub_left hcOne.signed
  have hnExtent := hf.hasNumber_of_applies hbind hs havExtent hextent hu hl (.sub u l) hcExtent.1
  have hnLast := hf.hasNumber_of_applies hbind hs havLast hlast hnExtent hnOne (.sub _ 1) hcLast.2
  have hnSteps := hf.hasNumber_of_applies hbind hs havSteps hsteps hnLast hstep
    (.floorDiv _ (by omega)) hcSteps.1
  have hnSize := hf.hasNumber_of_applies hbind hs hid hsize hnSteps hnOne (.add _ 1) hcSize
  exact ⟨one, extent, last, steps, hone, ⟨hextent, hnExtent⟩, ⟨hlast, hnLast⟩, ⟨hsteps, hnSteps⟩,
    hsize, hnSize⟩

end Bound

end FunctionGraph

/--
In a graph that was built take a range of a slice that has a bound or a step that is no constant, and
arguments for which the bounds evaluate to numbers that are not negative and the step to a positive
one.  The size of the slice along this axis is the length of the range between these numbers, or zero
if that is negative.

Either four operators compute it, and each of them gives the number that it gives without bounds.  Or
the range is the axis in full, and then the size is the dimension of the axis; the upper bound is its
number, if the type of indices has this number.
-/
theorem buildGraph_openRange {defs : List FunctionDef} {main : String} {options : Options}
    {f : FunctionGraph} (h : buildGraph defs main options = .ok f) {args : List Value} {id : NodeId}
    {o : OpId} (hproducer : (f.graph.node id).producer = some o) {selected : List SliceIndex}
    {sizes : Shape} (hkind : (f.graph.op o).kind = .slice selected sizes) {k : Nat}
    {lower upper step : NodeId} (hrange : selected[k]? = some (.range lower upper step))
    (hopen : ¬ ∃ l u s, f.graph.IsInt lower l ∧ f.graph.IsInt upper u ∧ f.graph.IsInt step s)
    {l u s : Int} (hl : f.HasNumber args lower l) (hu : f.HasNumber args upper u)
    (hs : f.HasNumber args step s) (hlpos : 0 ≤ l) (hupos : 0 ≤ u) (hspos : 1 ≤ s) :
    ∃ given symbols target rest axis d, f.bindAll args = .ok (given, symbols) ∧
      (f.graph.op o).inputs = target :: rest ∧ (f.graph.shape target)[k]? = some axis ∧
      sizes[k]? = some d ∧
      let ctx : EvalContext := ⟨f.graph, symbols⟩
      let val := meaning ctx given
      let length := (max (BuildM.rangeLength l u s) 0).toNat
      (∃ size, d = .node size ∧ f.ComputesLength args lower upper step size l u s ∧
          Meaning.dim ctx val d = .ok length) ∨
        d = axis ∧ l = 0 ∧ s = 1 ∧ ∃ n, Meaning.dimNumber ctx val axis = .ok n ∧
          (options.indexSize.Contains n → u = n ∧ Meaning.dim ctx val d = .ok length) := by
  have hf := buildGraph_wellFormed h
  have hsettled := (buildGraph_settled h).graph
  have hm := buildGraph_measured h
  obtain ⟨target, hslices⟩ := hf.valid.slices hsettled hproducer hkind
  obtain ⟨target', rest, hinputs, -, hmeasures⟩ := hm.sizes hkind
  obtain ⟨axis, d, haxis, hd, hmeasure⟩ := hmeasures.getElem? hrange
  have hbounds : ∀ id ∈ [lower, upper, step], f.graph.Available f.entry id := fun id hid =>
    (hslices.indices _ (List.mem_of_getElem? hrange) id hid).avail
  obtain ⟨v, hvn, hv⟩ := hu
  obtain ⟨given, symbols, hbind, hmeaning⟩ :=
    (hf.value?_eq_some (hbounds upper (by simp))).mp hv
  refine ⟨given, symbols, target', rest, axis, d, hbind, hinputs, haxis, hd, ?_⟩
  cases hmeasure with
  | constant hlower hupper hstep => exact absurd ⟨_, _, _, hlower, hupper, hstep⟩ hopen
  -- A range from zero to the end in steps of one keeps the dimension of the axis.
  | whole _ hlower hstep hupper =>
    obtain ⟨n, hn, hnumber⟩ := hf.number_of_spans hbind hsettled hm hupper (hbounds upper (by simp))
      hmeaning
    obtain rfl : 0 = l := (hf.hasNumber_of_isInt hbind hm hlower).unique hl
    obtain rfl : 1 = s := (hf.hasNumber_of_isInt hbind hm hstep).unique hs
    refine Or.inr ⟨rfl, rfl, rfl, n, hn, fun hcontains => ?_⟩
    obtain rfl : u = n := hvn.symm.trans (hnumber hcontains)
    have hbounded : axis.Bounded :=
      (buildGraph_settled h).bounded target' axis (List.mem_of_getElem? haxis)
    have hlength : BuildM.rangeLength 0 u 1 = u := by
      rw [BuildM.rangeLength, Int.fdiv_one]
      omega
    refine ⟨rfl, ?_⟩
    rw [Meaning.dim_of_dimNumber hbounded hn, hlength, Int.max_eq_left hupos]
  | @computed _ _ _ one extent last steps size _ hone hextent hlast hsteps hsize =>
    have hsizeAvail : f.graph.Available f.entry size :=
      (hslices.dims _ (List.mem_of_getElem? hd)).avail
    have hlength := hf.computesLength hbind hsettled hm hone hextent hlast hsteps hsize hsizeAvail hl
      ⟨v, hvn, hv⟩ hs hlpos hupos hspos
    refine Or.inl ⟨size, rfl, hlength, ?_⟩
    obtain ⟨-, -, -, -, -, -, -, -, -, hnumber⟩ := hlength
    obtain ⟨w, hw, hwm⟩ := (hf.hasNumber_iff hbind hsizeAvail).mp hnumber
    have hn : Meaning.dimNumber ⟨f.graph, symbols⟩ (meaning ⟨f.graph, symbols⟩ given) (.node size) =
        .ok (BuildM.rangeLength l u s) := by
      rw [Meaning.dimNumber, Meaning.scalar, hwm, ← hw]
      rfl
    rw [Meaning.dim_of_dimNumber (show (Dim.node size).Bounded from trivial) hn]
    congr 1
    omega

/-- A kernel that takes a part of a vector between bounds of the narrowest type. -/
def between : List FunctionDef :=
  let name (id : String) : Expr := .name id .nowhere
  let part : Expr := .slice (some (name "a")) (some (name "b")) none .nowhere
  [⟨"main", [⟨"x", some (.subscript (name "int64") (name "N") .nowhere), .nowhere⟩,
      ⟨"a", some (name "int8"), .nowhere⟩, ⟨"b", some (name "int8"), .nowhere⟩], .missing,
      [.returns (some (.subscript (name "x") part .nowhere)) .nowhere], .nowhere⟩]

/-- The number before the difference of the greatest bound and zero is the least one of the type. -/
theorem buildGraph_openRange_between :
    let args := [.tensor [3] #[.int 1, .int 2, .int 3], .scalar (.int 127), .scalar (.int 0)]
    ∃ f given symbols size, buildGraph between "main" .default = .ok f ∧
      f.bindAll args = .ok (given, symbols) ∧
      f.ComputesLength args ⟨2⟩ ⟨3⟩ ⟨4⟩ size 127 0 1 ∧
      Meaning.dim ⟨f.graph, symbols⟩ (meaning ⟨f.graph, symbols⟩ given) (.node size) = .ok 0 := by
  intro args
  have hbuilds : (buildGraph between "main" .default).toOption.any (fun f =>
      decide ((f.graph.node ⟨10⟩).producer = some ⟨4⟩ ∧
        (f.graph.op ⟨4⟩).kind = .slice [.range ⟨2⟩ ⟨3⟩ ⟨4⟩] [.node ⟨9⟩] ∧
        (f.graph.node ⟨2⟩).constant? = none ∧
        f.value? args ⟨2⟩ = some (.scalar (.int 127)) ∧
        f.value? args ⟨3⟩ = some (.scalar (.int 0)) ∧
        f.value? args ⟨4⟩ = some (.scalar (.int 1)))) = true := by decide +kernel
  obtain ⟨f, hbuild, hchecks⟩ := exists_of_any_toOption hbuilds
  obtain ⟨hproducer, hkind, hlower, hl, hu, hs⟩ := of_decide_eq_true hchecks
  have hopen : ¬ ∃ l u s, f.graph.IsInt ⟨2⟩ l ∧ f.graph.IsInt ⟨3⟩ u ∧ f.graph.IsInt ⟨4⟩ s := by
    rintro ⟨l, -, -, hint, -⟩
    rw [Graph.IsInt, hlower] at hint
    cases hint
  obtain ⟨given, symbols, _, _, _, d, hbind, -, -, -, hcases⟩ :=
    buildGraph_openRange hbuild hproducer hkind
      (show [SliceIndex.range ⟨2⟩ ⟨3⟩ ⟨4⟩][0]? = _ from rfl) hopen ⟨127, rfl, hl⟩ ⟨0, rfl, hu⟩
      ⟨1, rfl, hs⟩ (by decide) (by decide) (by decide)
  rcases hcases with ⟨size, rfl, hlength, hdim⟩ | ⟨-, hzero, -⟩
  · exact ⟨f, given, symbols, size, hbuild, hbind, hlength, hdim⟩
  · exact absurd hzero (by decide)

end TensorKernel
