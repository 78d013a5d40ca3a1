import TensorKernel.Proofs.Eval.Picks
import TensorKernel.Proofs.OpenRanges

/-!
# Ranges between constants

The length of a range between constants is found while a function is built, by one formula without
bounds: `(upper - lower - 1) / step + 1`, rounded down, or zero if this is negative.

For a positive step the formula counts the places `lower + i * step` that are before the upper bound.
For a negative step it counts those that are not before the place below the upper bound, since the
`- 1` in it still points down: the upper bound and the place below it are counted as well, where they
are reached.  `constantRange` says both, and that evaluation reads the places that were counted.
-/

namespace TensorKernel

/-! ## Lengths -/

namespace BuildM

variable {l u s : Int}

/-- The places that the length of a range counts for a positive step. -/
theorem lt_rangeLength_iff_of_pos (hs : 0 < s) (i : Int) :
    i < rangeLength l u s ↔ l + i * s < u := by
  rw [rangeLength, Int.lt_add_one_iff, Int.fdiv_eq_ediv_of_nonneg _ (Int.le_of_lt hs),
    Int.le_ediv_iff_mul_le hs]
  omega

/-- The places that the length of a range counts for a negative step. -/
theorem lt_rangeLength_iff_of_neg (hs : s < 0) (i : Int) :
    i < rangeLength l u s ↔ u - 2 < l + i * s := by
  have hpos : 0 < -s := by omega
  rw [rangeLength, Int.lt_add_one_iff, ← Int.neg_fdiv_neg,
    Int.fdiv_eq_ediv_of_nonneg _ (Int.le_of_lt hpos), Int.le_ediv_iff_mul_le hpos, Int.mul_neg]
  omega

/-- The length of a range between constants, as long as a dimension can hold it. -/
theorem run_sliceSize_constant {b : FunctionBuilder} {choice : AxisIndex} {lower upper step : NodeId}
    {l u s : Int64} (hchoice : choice.index = .range lower upper step)
    (hl : b.constantInt? lower = some l) (hu : b.constantInt? upper = some u)
    (hs : b.constantInt? step = some s) (axis : Dim) (span : Span) (cache : GraphCache) :
    let n := max (rangeLength l.toInt u.toInt s.toInt) 0
    (sliceSize choice axis span).run b cache =
      (if n ≤ Dim.maxConst then .ok (.const n, b) else .error ⟨.sliceLength n, span⟩, cache) := by
  intro n
  have hrun : (sliceSize choice axis span).run b cache =
      (if n ≤ Dim.maxConst then pure (.const n) else fail span (.sliceLength n) : BuildM Dim).run b
        cache := by
    have hget : ∀ f : FunctionBuilder → BuildM Dim, (get >>= f).run b cache = (f b).run b cache :=
      fun _ => rfl
    rw [sliceSize, hchoice]
    show (get >>= _ : BuildM Dim).run b cache = _
    rw [hget, hl, hu, hs]
  rw [hrun]
  split <;> rfl

end BuildM

/-! ## Places -/

/-- A range begins at its lower bound, and goes on in its steps. -/
theorem Meaning.starts_of_range {val : Valuation} {selected : List SliceIndex} {shape : List Nat}
    {steps : List (Int64 × Int64)} (h : starts val selected shape = .ok steps)
    (hle : selected.length ≤ shape.length) {k : Nat} {lower upper step : NodeId}
    (hk : selected[k]? = some (.range lower upper step)) :
    ∃ l s, scalar val lower = .ok l ∧ scalar val step = .ok s ∧
      steps[k]? = some (l.asInt, s.asInt) := by
  induction selected generalizing shape steps k with
  | nil => cases hk
  | cons i selected ih =>
    cases shape with
    | nil => cases hle
    | cons size shape =>
      have hrestLe : selected.length ≤ shape.length := Nat.le_of_succ_le_succ hle
      cases i with
      | element id =>
        obtain ⟨start, -, h⟩ := exists_of_bind_ok h
        obtain ⟨rest, hrest, h⟩ := exists_of_bind_ok h
        obtain rfl := Except.ok.inj h
        cases k with
        | zero => cases hk
        | succ k => exact ih hrest hrestLe hk
      | range lower' upper' step' =>
        obtain ⟨l, hl, h⟩ := exists_of_bind_ok h
        obtain ⟨s, hs, h⟩ := exists_of_bind_ok h
        obtain ⟨rest, hrest, h⟩ := exists_of_bind_ok h
        obtain rfl := Except.ok.inj h
        cases k with
        -- The range that is asked for; every other index, of either form, is passed over.
        | zero =>
          cases hk
          exact ⟨l, s, hl, hs, rfl⟩
        | succ k => exact ih hrest hrestLe hk

/--
A slice of a graph with a range between constants has a constant size along its axis.  Evaluation
reads the places of the range one after another, beside any places along the other axes, if all of
them are inside of the source.

The elements of the source are counted in a word with a sign.
-/
def FunctionGraph.ReadsRange (f : FunctionGraph) (l u s : Int64) (n : Nat) : Prop :=
  ∀ {id : NodeId} {o : OpId} {selected : List SliceIndex} {sizes : Shape} {k : Nat}
    {lower upper step : NodeId}, (f.graph.node id).producer = some o →
    (f.graph.op o).kind = .slice selected sizes → selected[k]? = some (.range lower upper step) →
    f.graph.IsInt lower l → f.graph.IsInt upper u → f.graph.IsInt step s →
    sizes[k]? = some (.const n) ∧ ∃ target, (f.graph.op o).inputs.head? = some target ∧
      ∀ {args : List Value} {given : GivenValues} {symbols : Table String Nat} {shape ns : List Nat}
        {data : Array Literal} {steps : List (Int64 × Int64)},
        f.bindAll args = .ok (given, symbols) → f.value? args target = some (.tensor shape data) →
        data.size = Index.size shape → data.size < 2 ^ 63 →
        Meaning.dims ⟨f.graph, symbols⟩ (meaning ⟨f.graph, symbols⟩ given) sizes = .ok ns →
        Meaning.starts (meaning ⟨f.graph, symbols⟩ given) selected shape = .ok steps →
        ns[k]? = some n ∧ (Index.numbers steps)[k]? = some (l.toInt, s.toInt) ∧
          ((∀ idx ∈ Index.enumerate ns, (Index.pick? shape (Index.numbers steps) idx).isSome) →
            ∃ ms out, f.value? args id = some (.tensor ms out.toArray) ∧
              Index.Reads shape data (Index.numbers steps) ns out)

theorem buildGraph_readsRange {defs : List FunctionDef} {main : String} {options : Options}
    {f : FunctionGraph} (h : buildGraph defs main options = .ok f) (l u s : Int64) :
    f.ReadsRange l u s (max (BuildM.rangeLength l.toInt u.toInt s.toInt) 0).toNat := by
  intro id o selected sizes k lower upper step hproducer hkind hrange hl hu hs
  have hf := buildGraph_wellFormed h
  have hsettled := (buildGraph_settled h).graph
  have hm := buildGraph_measured h
  obtain ⟨target, hslices⟩ := hf.valid.slices hsettled hproducer hkind
  obtain ⟨target', rest, hinputs, -, hmeasures⟩ := hm.sizes hkind
  obtain ⟨axis, d, -, hd, hmeasure⟩ := hmeasures.getElem? hrange
  let n := max (BuildM.rangeLength l.toInt u.toInt s.toInt) 0
  have hn : (n.toNat : Int) = n := Int.toNat_of_nonneg (Int.le_max_right ..)
  have hsize : sizes[k]? = some (.const n.toNat) := by
    rw [hd, hn]
    cases hmeasure with
    | constant hl' hu' hs' => rw [← hl.unique hl', ← hu.unique hu', ← hs.unique hs']
    | whole hopen => exact absurd ⟨l, u, s, hl, hu, hs⟩ hopen.unknown
    | computed hopen => exact absurd ⟨l, u, s, hl, hu, hs⟩ hopen.unknown
  -- The size is a dimension of the result, unless it is one and trimmed.
  have hbounded : (Dim.const n.toNat).Bounded := by
    rcases hslices.trims.isOne_or_mem (List.mem_of_getElem? hsize) with hone | hmem
    · rw [show Dim.const n.toNat = .const 1 by simpa [Dim.isOne] using hone]
      exact ⟨by decide, by decide⟩
    · exact (buildGraph_settled h).bounded id _ hmem
  refine ⟨hsize, target, by rw [hslices.op]; rfl, ?_⟩
  intro args given symbols shape ns data steps hbind hvalue hexact hfits hdims hsteps
  have hsource := (hf.value?_iff_of_bind hbind hslices.source).mp hvalue
  have hshape := (hf.types_of_bind hbind hslices.source hsource).2.1
  have hle : selected.length ≤ shape.length := by
    rw [length_of_mapM_ok hshape]
    exact hslices.length_le
  refine ⟨?_, ?_, fun hpicks => ?_⟩
  · obtain ⟨m, hm, hdim⟩ := Meaning.dim_of_dims hdims hsize
    rw [hm, Except.ok.inj (hdim.symm.trans (Meaning.dim_of_dimNumber hbounded rfl)),
      Dim.toInt_of_bounded hbounded]
    rfl
  · obtain ⟨l', s', hl', hs', hk⟩ := Meaning.starts_of_range hsteps hle hrange
    obtain rfl : .int l = l' := by
      have hvalue := LowerM.eq_of_scalar hl'
      rw [hf.meaning_of_isInt hbind hm hl] at hvalue
      exact Value.scalar.inj (Except.ok.inj hvalue)
    obtain rfl : .int s = s' := by
      have hvalue := LowerM.eq_of_scalar hs'
      rw [hf.meaning_of_isInt hbind hm hs] at hvalue
      exact Value.scalar.inj (Except.ok.inj hvalue)
    rw [Index.numbers, List.getElem?_map, hk]
    rfl
  · obtain ⟨j, -, -, -, hdst⟩ := Meaning.dims_of_trims hslices.trims hdims
    have htensor : Meaning.tensor (meaning ⟨f.graph, symbols⟩ given) target = .ok (shape, data) := by
      rw [Meaning.tensor, hsource]
      rfl
    obtain ⟨out, hslice, hreads⟩ := Meaning.exists_slice htensor hdims hsteps hdst hexact hfits hpicks
    refine ⟨ns.drop j, out, (hf.value?_iff_of_bind hbind hslices.result).mpr ?_, hreads⟩
    rw [hf.meaning_of_bind hbind hsettled hslices.result hproducer, hslices.op]
    exact hslice

/--
The length of a range between constants counts the places before its upper bound if the step is
positive, and the places that are not before the one below its upper bound if the step is negative.
Building a slice gives this length, or the error that it is no dimension.  In a graph that was built,
evaluation reads these places in this order.
-/
theorem constantRange (l u : Int64) {s : Int64} (hs : s ≠ 0) :
    ∃ n : Nat, (∀ i : Nat, i < n ↔ 0 < s.toInt ∧ l.toInt + i * s.toInt < u.toInt ∨
        s.toInt < 0 ∧ u.toInt - 2 < l.toInt + i * s.toInt) ∧
      (∀ (b : FunctionBuilder) (choice : BuildM.AxisIndex) (lower upper step : NodeId),
        choice.index = .range lower upper step → b.constantInt? lower = some l →
        b.constantInt? upper = some u → b.constantInt? step = some s →
        ∀ (axis : Dim) (span : Span) (cache : GraphCache),
        (BuildM.sliceSize choice axis span).run b cache =
          (if (n : Int) ≤ Dim.maxConst then .ok (.const n, b) else .error ⟨.sliceLength n, span⟩,
            cache)) ∧
      ∀ defs main options f, buildGraph defs main options = .ok f → f.ReadsRange l u s n := by
  let n := (max (BuildM.rangeLength l.toInt u.toInt s.toInt) 0).toNat
  have hn : (n : Int) = max (BuildM.rangeLength l.toInt u.toInt s.toInt) 0 :=
    Int.toNat_of_nonneg (Int.le_max_right ..)
  refine ⟨n, fun i => ?_, fun b choice lower upper step hchoice hl hu hs axis span cache => ?_,
    fun defs main options f h => buildGraph_readsRange h l u s⟩
  · have hlt : i < n ↔ (i : Int) < BuildM.rangeLength l.toInt u.toInt s.toInt := by omega
    rcases Int.lt_trichotomy s.toInt 0 with hneg | hzero | hpos
    · rw [hlt, BuildM.lt_rangeLength_iff_of_neg hneg]
      omega
    · exact absurd hzero (ne_zero_iff_toInt.mp hs)
    · rw [hlt, BuildM.lt_rangeLength_iff_of_pos hpos]
      omega
  · rw [hn]
    exact BuildM.run_sliceSize_constant hchoice hl hu hs axis span cache

/-- A kernel that takes a range of a vector from a place downward. -/
def descending : List FunctionDef :=
  let name (id : String) : Expr := .name id .nowhere
  let number (n : Int) : Expr := .int n .nowhere
  let range : Expr :=
    .slice (some (number 3)) (some (number 1)) (some (.unary .neg (number 1) .nowhere)) .nowhere
  [⟨"main", [⟨"x", some (.subscript (name "int64") (number 6) .nowhere), .nowhere⟩], .missing,
    [.returns (some (.subscript (name "x") range .nowhere)) .nowhere], .nowhere⟩]

/-- Downward from place three only two places are before place one, but the slice has four elements. -/
theorem constantRange_descending :
    let data := #[.int 1, .int 2, .int 3, .int 4, .int 5, .int 6]
    let out := [.int 4, .int 3, .int 2, .int 1]
    ∃ f, buildGraph descending "main" .default = .ok f ∧
      f.value? [.tensor [6] data] ⟨4⟩ = some (.tensor [4] out.toArray) ∧
      Index.Reads [6] data [(3, -1)] [4] out := by
  intro data out
  have hbuilds : (buildGraph descending "main" .default).toOption.any (fun f =>
      decide ((f.graph.node ⟨4⟩).producer = some ⟨0⟩ ∧
        (f.graph.op ⟨0⟩).kind = .slice [.range ⟨1⟩ ⟨2⟩ ⟨3⟩] [.const 4] ∧
        (f.graph.op ⟨0⟩).inputs = [⟨0⟩, ⟨1⟩, ⟨2⟩, ⟨3⟩] ∧
        (f.graph.node ⟨1⟩).constant? = some (.int 3) ∧
        (f.graph.node ⟨2⟩).constant? = some (.int 1) ∧
        (f.graph.node ⟨3⟩).constant? = some (.int (-1)) ∧
        f.value? [.tensor [6] data] ⟨0⟩ = some (.tensor [6] data) ∧
        f.value? [.tensor [6] data] ⟨4⟩ = some (.tensor [4] out.toArray))) = true := by decide +kernel
  obtain ⟨f, hbuild, hchecks⟩ := exists_of_any_toOption hbuilds
  obtain ⟨hproducer, hkind, hinputs, hl, hu, hs, hvalue, hresult⟩ := of_decide_eq_true hchecks
  have hf := buildGraph_wellFormed hbuild
  have hm := buildGraph_measured hbuild
  obtain ⟨n, -, -, hreads⟩ := constantRange 3 1 (show (-1 : Int64) ≠ 0 by decide)
  obtain ⟨-, target, htarget, hread⟩ :=
    hreads descending "main" .default f hbuild hproducer hkind
      (show [SliceIndex.range ⟨1⟩ ⟨2⟩ ⟨3⟩][0]? = _ from rfl) hl hu hs
  obtain rfl : (⟨0⟩ : NodeId) = target := by
    rw [hinputs] at htarget
    exact Option.some.inj htarget
  obtain ⟨_, hslices⟩ := hf.valid.slices (buildGraph_settled hbuild).graph hproducer hkind
  obtain ⟨given, symbols, hbind, -⟩ := (hf.value?_eq_some hslices.result).mp hresult
  have hstarts : Meaning.starts (meaning ⟨f.graph, symbols⟩ given) [.range ⟨1⟩ ⟨2⟩ ⟨3⟩] [6] =
      .ok [(3, -1)] := by
    rw [Meaning.starts, Meaning.scalar, Meaning.scalar, hf.meaning_of_isInt hbind hm hl,
      hf.meaning_of_isInt hbind hm hs]
    rfl
  have hdims : Meaning.dims ⟨f.graph, symbols⟩ (meaning ⟨f.graph, symbols⟩ given) [.const 4] =
      .ok [4] := rfl
  obtain ⟨-, -, hpicked⟩ := hread hbind hvalue rfl (by decide) hdims hstarts
  obtain ⟨ms, read, hread, hreads⟩ := hpicked (by decide)
  obtain ⟨-, hout⟩ := Value.tensor.inj (Option.some.inj (hread.symm.trans hresult))
  obtain rfl : read = out := List.toArray_inj hout
  exact ⟨f, hbuild, hresult, hreads⟩

end TensorKernel
