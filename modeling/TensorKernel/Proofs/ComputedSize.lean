import TensorKernel.Proofs.Build.Instantiation
import TensorKernel.Proofs.Eval.Index
import TensorKernel.Proofs.Eval.Values
import TensorKernel.Proofs.Execution.Function
import TensorKernel.Proofs.Execution.Sizes
import TensorKernel.Proofs.Inlining

/-!
# Computed sizes

The size of an axis of a slice may be computed, and the scalar that holds it is read in three places.
Evaluation takes it for the extent of the axis, lowering converts it to an index, and a kernel that
is called with the slice reads it as a shape symbol, by way of a copy.

The three read the same number if it is not negative.  A slice whose bounds cross has a negative one:
its extent is zero, but lowering and the called kernel read the number as it is.
-/

namespace TensorKernel

namespace FunctionGraph

/--
Lowering an operator where its operands and the dimensions have names emits statements that take the
sizes of a slice, and the names of these sizes hold the numbers of the dimensions.
-/
def LowersSizes (f : FunctionGraph) (given : GivenValues) (symbols : Table String Nat) (op : Op)
    (sizes : Shape) : Prop :=
  ∀ (depth : Nat) (st : LowerState) (M : Buffer.Store),
    st.Agrees ⟨f.graph, symbols⟩ (meaning ⟨f.graph, symbols⟩ given) M →
    (∀ arg ∈ op.inputs, st.Bound arg) → (∀ d ∈ sizes, st.Named d) →
    ∃ st' stmts, LowerM.operator f.graph (LowerM.node f.graph (depth + 1)) op st = .ok ((), st') ∧
      st'.block = st.block ++ stmts ∧
      LowerM.SliceSized ⟨f.graph, symbols⟩ (meaning ⟨f.graph, symbols⟩ given) sizes M stmts

variable {f : FunctionGraph} {sz : ElemSize} {args : List Value} {given : GivenValues}
  {symbols : Table String Nat} {id : NodeId}

section Bound

variable (hf : f.WellFormed sz) (hbind : f.bindAll args = .ok (given, symbols))
include hf hbind

/-- A scalar that is used as an index holds an integer. -/
theorem WellFormed.counts (hid : f.graph.IsIndex (f.graph.Available f.entry) id) :
    Meaning.Counts ⟨f.graph, symbols⟩ (meaning ⟨f.graph, symbols⟩ given) id :=
  ⟨hid.scalar, hid.size, fun _ hv => hf.types_of_bind hbind hid.avail hv⟩

/-- A slice is lowered to statements that take the sizes that are computed for it. -/
theorem WellFormed.lowersSizes {target dst : NodeId} {selected : List SliceIndex} {sizes : Shape}
    (hselected : ∀ i ∈ selected, ∀ id ∈ i.nodes,
      f.graph.IsIndex (f.graph.Available f.entry) id)
    (hrank : sizes.length = (f.graph.shape target).length)
    (hsizes : ∀ d ∈ sizes, f.graph.DimValid f.entry (f.graph.Available f.entry) d) :
    f.LowersSizes given symbols
      ⟨.slice selected sizes, target :: selected.flatMap SliceIndex.nodes, [dst]⟩ sizes := by
  intro depth st M hagrees hbound hnamed
  obtain ⟨src, hsrc⟩ := Option.isSome_iff_exists.mp (hbound target (List.mem_cons_self ..))
  have hselects : ∀ i ∈ selected, LowerM.Selects ⟨f.graph, symbols⟩
      (meaning ⟨f.graph, symbols⟩ given) (LowerM.node f.graph (depth + 1)) st i := by
    intro i hi other hother
    have hnode := SliceIndex.mem_nodes hother
    refine ⟨LowerM.supplies_of_bound ?_, hf.counts hbind (hselected i hi other hnode)⟩
    exact hbound other (List.mem_cons_of_mem _ (List.mem_flatMap.mpr ⟨i, hi, hnode⟩))
  obtain ⟨st', stmts, hrun, hblock, hemits⟩ := LowerM.exists_slice dst hagrees
    (LowerM.node_of_lookup hsrc) hselects hrank
    (fun d hd => LowerM.suppliesDim_of_named (hnamed d hd))
    fun other hother => hf.counts hbind (hsizes _ hother)
  exact ⟨st', stmts, hrun, hblock, hemits.sized⟩

/-- A copy of a scalar holds the scalar in the type of the copy. -/
theorem WellFormed.value_of_copy (hs : f.graph.Settled f.entry) {s k : NodeId} {p : OpId}
    (hproducer : (f.graph.node k).producer = some p) (hop : f.graph.op p = ⟨.copy, [s], [k]⟩)
    {v : Value} (hv : meaning ⟨f.graph, symbols⟩ given s = .ok v) :
    f.value? args k = some (v.convert (f.graph.elemSize k)) := by
  rcases hf.valid.op_cases hs hproducer with ⟨hk, -⟩ | ⟨ok, hscalar⟩
  · refine (hf.value?_eq_some hk).mpr ⟨given, symbols, hbind, ?_⟩
    rw [hf.meaning_of_bind hbind hs hk hproducer, hop]
    show (meaning ⟨f.graph, symbols⟩ given s >>= _) = _
    rw [hv]
    rfl
  · rw [hop] at hscalar
    cases hscalar

end Bound

end FunctionGraph

/-- A shape without the ones in front has a computed dimension where it was, as far back as before. -/
theorem Shape.Trims.getElem? {sizes shape : Shape} (h : sizes.Trims shape) {axis : Nat} {s : NodeId}
    (haxis : sizes[axis]? = some (.node s)) :
    sizes.length - shape.length ≤ axis ∧
      shape[axis - (sizes.length - shape.length)]? = some (.node s) := by
  obtain ⟨k, rfl, hk, hones⟩ := h
  have hdropped : sizes.length - (sizes.drop k).length = k := by
    rw [List.length_drop]
    omega
  have hle : k ≤ axis := by
    by_contra hlt
    have hone := hones (.node s) (List.mem_of_getElem? (i := axis)
      (by rw [List.getElem?_take_of_lt (by omega), haxis]))
    cases hone
  rw [hdropped, List.getElem?_drop, Nat.add_sub_cancel' hle]
  exact ⟨hle, haxis⟩

/-- The sizes of a slice are ones or dimensions of its result. -/
theorem Shape.Trims.isOne_or_mem {sizes shape : Shape} (h : sizes.Trims shape) {d : Dim}
    (hd : d ∈ sizes) : d.isOne = true ∨ d ∈ shape := by
  obtain ⟨k, rfl, -, hones⟩ := h
  rw [← List.take_append_drop k sizes, List.mem_append] at hd
  exact hd.imp_left (hones d)

/-- A slice is a tensor of the shape of its node. -/
theorem Meaning.exists_of_slice {ctx : EvalContext} {val : Valuation} {target dst : NodeId}
    {selected : List SliceIndex} {sizes : Shape} {v : Value}
    (h : slice ctx val target selected sizes dst = .ok v) :
    ∃ shape data, v = .tensor shape data ∧ dims ctx val (ctx.graph.shape dst) = .ok shape := by
  obtain ⟨source, -, h⟩ := exists_of_bind_ok h
  obtain ⟨ns, -, h⟩ := exists_of_bind_ok h
  obtain ⟨steps, -, h⟩ := exists_of_bind_ok h
  obtain ⟨out, -, h⟩ := exists_of_bind_ok h
  obtain ⟨shape, hshape, h⟩ := exists_of_bind_ok h
  exact ⟨shape, out.toArray, (Except.ok.inj h).symm, hshape⟩

/-- The extent along an axis is the size of the dimension there. -/
theorem Meaning.dim_of_dims {ctx : EvalContext} {val : Valuation} {shape : Shape} {ns : List Nat}
    (h : dims ctx val shape = .ok ns) {axis : Nat} {d : Dim} (haxis : shape[axis]? = some d) :
    ∃ n, ns[axis]? = some n ∧ dim ctx val d = .ok n := by
  obtain ⟨hlength, hget⟩ := List.forall₂_iff_get.mp (forall₂_of_dims h)
  obtain ⟨hlt, rfl⟩ := List.getElem?_eq_some_iff.mp haxis
  exact ⟨ns[axis], List.getElem?_eq_getElem (hlength ▸ hlt), hget axis hlt (hlength ▸ hlt)⟩

/-- A kernel that takes a window of a vector and calls another one for the length of the window. -/
def windowed : List FunctionDef :=
  let name (id : String) : Expr := .name id .nowhere
  let vector (size : String) : Option Expr :=
    some (.subscript (name "int64") (name size) .nowhere)
  let window : Expr :=
    .subscript (name "x") (.slice (some (name "a")) (some (name "b")) none .nowhere) .nowhere
  [⟨"main", [⟨"x", vector "N", .nowhere⟩, ⟨"a", some (name "int64"), .nowhere⟩,
      ⟨"b", some (name "int64"), .nowhere⟩], .missing,
      [.returns (some (.call (name "length") [window] [] .nowhere)) .nowhere], .nowhere⟩,
    ⟨"length", [⟨"y", vector "K", .nowhere⟩], .missing, [.returns (some (name "K")) .nowhere],
      .nowhere⟩]

/-- Every given node of the callee is copied from one source. -/
theorem BuildM.Inlined.copy_of_symbol {sz : ElemSize} {b b' : FunctionBuilder} {callee : FunctionGraph}
    {args : List NodeId} {bound : SymbolBinding} {copied : List (NodeId × NodeId)}
    (h : Inlined b callee args bound copied b') (hcallee : callee.WellFormed sz) {name : String}
    {symbol : ShapeSymbol} (hmem : (name, symbol) ∈ callee.symbols.entries) {s : NodeId}
    (hdim : bound.get? name = some (.node s)) :
    ∃ k o, (b'.graph.node k).producer = some o ∧ b'.graph.op o = ⟨.copy, [s], [k]⟩ := by
  obtain ⟨-, hnodup, hdisjoint⟩ := List.nodup_append.mp hcallee.interface.nodup
  obtain ⟨p, hp, hnode⟩ := List.mem_map.mp (h.all symbol.node (Or.inr ⟨_, hmem, rfl⟩))
  obtain ⟨o, hproducer, hop⟩ := h.spliced.copies p hp
  suffices hsource : p.2 = s from ⟨_, o, hproducer, hsource ▸ hop⟩
  cases h.feeds p hp with
  | argument hparam =>
    have hsymbol := List.mem_map_of_mem (f := fun p => p.2.node) hmem
    exact absurd hnode (hdisjoint _ (List.of_mem_zip hparam).1 _ hsymbol)
  | @symbol name' symbol' d src hmem' hdim' hsrc =>
    have hsame := List.inj_on_of_nodup_map hnodup hmem' hmem hnode
    obtain ⟨rfl, rfl⟩ := Prod.mk.inj hsame
    obtain rfl := Option.some.inj (hdim'.symm.trans hdim)
    exact hsrc

/--
A call whose arguments have values binds the shape symbols of its callee to dimensions of the
arguments.  A symbol that stands for a computed size is a copy of the scalar that holds the size.
-/
theorem Registry.symbols_of_inlineCall (options : Options) (r : Registry) (active : String)
    {b : FunctionBuilder} (hb : b.WellFormed options.indexSize) {cache : GraphCache}
    (hcache : cache.Sound options.indexSize) {function : String} {args : List NodeId} {span : Span}
    (hhas : ∀ a ∈ args, b.Has a) {callee : FunctionGraph}
    (hcallee : ((r.enter active cache).instantiate .standard options function
      (args.map b.graph.type) span).1 = .ok callee)
    {result : NodeId} {b' : FunctionBuilder} {cache' : GraphCache}
    (hrun : (BuildM.inlineCall (r.context .standard options active) function args span).run b
      cache = (.ok (result, b'), cache')) :
    ∃ bound, BuildM.Binds b callee args bound ∧
      ∀ name symbol s, (name, symbol) ∈ callee.symbols.entries → bound.get? name = some (.node s) →
        ∃ k o, (b'.graph.node k).producer = some o ∧ b'.graph.op o = ⟨.copy, [s], [k]⟩ := by
  have hprovides := instantiate_provides options False False r.functions False.elim
    (r.enter active cache).idle.length (r.enter active cache) rfl rfl hcache.formed function
    (args.map b.graph.type) span
  obtain ⟨callee', bound, hcall, hinline, hlength, hbound, hsplice⟩ :=
    BuildM.exists_of_inlineCall hrun
  rw [runCall_context] at hcall hsplice
  obtain rfl : callee' = callee := Except.ok.inj (hcall.symm.trans hcallee)
  have hwf := (hprovides.ok callee' hcallee).wellFormed
  have hbinds := BuildM.binds_of_bindParams hlength hbound
  have hmeets := @BuildM.meets_spliceCall _ (GraphCache.Formed options.indexSize False) False b
    callee' args bound hb.valid.coherent hwf hbinds (hbinds.hasDim hb hhas) (hwf.returned hinline)
    function span
  obtain ⟨-, houtcome⟩ := hmeets _ hprovides.cache
  rw [hsplice] at houtcome
  obtain ⟨copied, out, hinlined, -, -⟩ := houtcome
  exact ⟨bound, hbinds, fun name symbol s hmem hdim => hinlined.copy_of_symbol hwf hmem hdim⟩

end TensorKernel
