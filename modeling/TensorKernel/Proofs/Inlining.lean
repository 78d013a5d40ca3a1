import TensorKernel.Proofs.Build.Registry
import TensorKernel.Proofs.Build.View

/-!
# Calls mean what their callees mean

A call is evaluated by evaluating its callee: the node of its result has, in the caller, the value
that the callee gives for the values of the arguments.

The callee always starts.  Its parameters agree with the arguments, so each argument fits, and each
of its symbols has the size that the dimension it stands for has in the caller.  From there on the
copy of the callee's graph is an embedding, and what it is given is computed by copies.
-/

namespace TensorKernel

/-- A value whose elements can be counted in a word, as those of every value in memory can. -/
def Value.Counted : Value → Prop
  | .scalar _ => True
  | .tensor _ data => data.size < Word.count

/-! ## Arguments and sizes -/

namespace SymbolBinding

/-- The size that a symbol of a callee has in the caller. -/
def size (ctx : EvalContext) (val : Valuation) (bound : SymbolBinding) (name : String) : Nat :=
  ((bound.get? name).bind fun d => (Meaning.dim ctx val d).toOption).getD 0

variable {ctx : EvalContext} {val : Valuation} {bound : SymbolBinding}

theorem size_eq {name : String} {d : Dim} {n : Nat} (hd : bound.get? name = some d)
    (hn : Meaning.dim ctx val d = .ok n) : size ctx val bound name = n := by
  rw [size, hd, Option.bind_some, hn]
  rfl

variable {g : Graph} {id a : NodeId} {v : Value}
  (hagrees : Agrees bound (g.type id) (ctx.graph.type a)) (htypes : Meaning.Types ctx val a v)
include hagrees htypes

/-- An argument fits a parameter that agrees with it. -/
theorem bindArgument_of_agrees (hcounted : v.Counted) (param : String) :
    FunctionGraph.bindArgument g param id v = .ok (v.convert (g.elemSize id)) := by
  have hscalar : (g.node id).isScalar = ctx.graph.isScalar a := hagrees.scalar
  have hrank : (g.node id).shape.length = (ctx.graph.shape a).length := hagrees.rank
  unfold FunctionGraph.bindArgument
  cases v with
  | scalar v =>
    dsimp only
    rw [hscalar, if_pos htypes.1]
    rfl
  | tensor shape data =>
    obtain ⟨hkind, hdims, hcount, -⟩ := htypes
    have hlength : shape.length = (ctx.graph.shape a).length := length_of_mapM_ok hdims
    have hsize : Index.count shape = data.size := by
      rw [← hcount]
      exact Word.wrap_of_lt hcounted
    dsimp only
    rw [hscalar, hkind, hrank, if_neg (by simp [hlength]), if_neg (not_not.mpr hsize)]
    rfl

/-- The sizes of an argument are those that the symbols of its parameter have in the caller. -/
theorem sizedBy_of_agrees : ∀ q ∈ (g.shape id).zip v.shape,
    FunctionGraph.SizedBy (size ctx val bound) q.1 q.2 := by
  intro q hq
  cases v with
  | scalar v =>
    rw [show Value.shape (.scalar v) = [] from rfl, List.zip_nil_right] at hq
    cases hq
  | tensor shape data =>
    obtain ⟨-, hdims, -, -⟩ := htypes
    have hrank : (ctx.graph.shape a).length = (g.shape id).length := hagrees.rank.symm
    obtain ⟨d, hd, hn, -⟩ := exists_mem_zip_of_length hrank hq
    have hpair : Pairs bound (q.1, d) := hagrees.pairs _ hd
    have hdim : Meaning.dim ctx val d = .ok q.2 := ok_of_mem_zip hdims _ hn
    generalize q.1 = paramDim at *
    cases paramDim with
    | const n =>
      obtain rfl := (show Dim.const n = d from hpair)
      exact (Except.ok.inj hdim).symm
    | sym name => exact (size_eq hpair hdim).symm
    | node id => trivial

end SymbolBinding

/-! ## Calls -/

namespace BuildM

/--
A call whose arguments have values.  Nothing is said of a call with a computed dimension that is
negative: it counts as zero where the size of an axis is needed, but not where it is read.
-/
structure Called (sz : ElemSize) (b : FunctionBuilder) (callee : FunctionGraph) (args : List NodeId)
    (bound : SymbolBinding) (given : GivenValues) (sizes : Table String Nat) (inputs : List Value)
    (values : List Value) : Prop where
  size : sz.isSignedInteger = true
  caller : b.WellFormed sz
  wellFormed : callee.WellFormed sz
  binds : Binds b callee args bound
  has : ∀ a ∈ args, b.Has a
  admits : (b.view []).Admits inputs given sizes
  evaluated : args.mapM (meaning ⟨b.graph, sizes⟩ given) = .ok values
  counted : ∀ v ∈ values, v.Counted
  nonneg : ∀ a ∈ args, ∀ id, .node id ∈ b.graph.shape a → ∀ v,
    meaning ⟨b.graph, sizes⟩ given id = .ok (.scalar v) → 0 ≤ v.asInt.toInt

namespace Called

variable {sz : ElemSize} {b : FunctionBuilder} {callee : FunctionGraph} {args : List NodeId}
  {bound : SymbolBinding} {given : GivenValues} {sizes : Table String Nat}
  {inputs values : List Value} (h : Called sz b callee args bound given sizes inputs values)
include h

theorem givenBy : b.entry.GivenBy given :=
  (h.caller.evaluable []).givenBy h.admits

theorem types {id : NodeId} (hid : b.Has id) {v : Value}
    (hv : meaning ⟨b.graph, sizes⟩ given id = .ok v) :
    Meaning.Types ⟨b.graph, sizes⟩ (meaning ⟨b.graph, sizes⟩ given) id v :=
  types_meaning h.caller.valid.coherent h.caller.valid.entry h.givenBy
    (fun _ _ hget => h.admits.types (h.caller.evaluable []) _ hget) hid hv

theorem length_eq : callee.inputs.length = values.length := by
  rw [length_of_mapM_ok h.evaluated, h.binds.length]

/-- A parameter takes the value of an argument that it agrees with. -/
theorem exists_arg {p : (String × NodeId) × Value} (hp : p ∈ callee.inputs.zip values) :
    ∃ a ∈ args, bound.Agrees (callee.graph.type p.1.2) (b.graph.type a) ∧
      Meaning.Types ⟨b.graph, sizes⟩ (meaning ⟨b.graph, sizes⟩ given) a p.2 := by
  obtain ⟨a, hinput, harg, -⟩ := exists_mem_zip_of_length h.binds.length.symm hp
  have ha := (List.of_mem_zip harg).1
  have hpair : (p.1.2, a) ∈ (callee.inputs.map Prod.snd).zip args := by
    rw [List.zip_map_left]
    exact List.mem_map_of_mem (f := Prod.map Prod.snd id) hinput
  exact ⟨a, ha, h.binds.agrees _ hpair, h.types (h.has a ha) (ok_of_mem_zip h.evaluated _ harg)⟩

/-- The callee starts, and its symbols have the sizes that they have in the caller. -/
theorem exists_bindAll : ∃ given' sizes', callee.bindAll values = .ok (given', sizes') ∧
    ∀ name n, sizes'.get? name = some n →
      n = bound.size ⟨b.graph, sizes⟩ (meaning ⟨b.graph, sizes⟩ given) name := by
  apply FunctionGraph.exists_bindAll h.wellFormed.evaluable h.length_eq
  · intro p hp
    obtain ⟨a, -, hagrees, htypes⟩ := h.exists_arg hp
    have hcounted := h.counted p.2 (List.of_mem_zip hp).2
    exact ⟨_, SymbolBinding.bindArgument_of_agrees hagrees htypes hcounted p.1.1⟩
  · intro p hp
    obtain ⟨a, -, hagrees, htypes⟩ := h.exists_arg hp
    exact SymbolBinding.sizedBy_of_agrees hagrees htypes

/-- The dimensions that symbols stand for have sizes, and those that are computed have no sign. -/
theorem exists_dim {name : String} {d : Dim} (hd : bound.get? name = some d) :
    ∃ n, Meaning.dim ⟨b.graph, sizes⟩ (meaning ⟨b.graph, sizes⟩ given) d = .ok n := by
  obtain ⟨a, ha, hmem⟩ := h.binds.dims hd
  obtain ⟨v, -, hv⟩ := exists_ok_of_mem h.evaluated a ha
  have htypes := h.types (h.has a ha) hv
  cases v with
  | scalar v =>
    rw [Graph.shape_of_isScalar htypes.1] at hmem
    cases hmem
  | tensor shape data =>
    obtain ⟨-, hdims, -, -⟩ := htypes
    obtain ⟨n, -, hn⟩ := exists_ok_of_mem hdims d hmem
    exact ⟨n, hn⟩

/-! ## The copy of the callee -/

section Copy

variable {b' : FunctionBuilder} {copied : List (NodeId × NodeId)}
  (hinlined : Inlined b callee args bound copied b')
include hinlined

theorem grown : b.Grown b' :=
  (hinlined.grown h.caller h.wellFormed h.binds h.has).1

/-- What was there before means the same. -/
theorem meaning_eq {id : NodeId} (hid : b.Has id) :
    meaning ⟨b'.graph, sizes⟩ given id = meaning ⟨b.graph, sizes⟩ given id :=
  h.caller.meaning_grown (h.grown hinlined) h.givenBy sizes hid

/-- The dimensions that were known before have the same sizes. -/
theorem dim_eq {d : Dim} (hd : b.HasDim d) :
    Meaning.dim ⟨b'.graph, sizes⟩ (meaning ⟨b'.graph, sizes⟩ given) d =
      Meaning.dim ⟨b.graph, sizes⟩ (meaning ⟨b.graph, sizes⟩ given) d := by
  cases d with
  | const n => rfl
  | sym name => rfl
  | node id => rw [Meaning.dim, Meaning.scalar, h.meaning_eq hinlined hd.avail, Meaning.dim,
      Meaning.scalar]

/-- The scalar that a symbol is copied from holds the size of the symbol. -/
theorem source_value {name : String} {d : Dim} {src : NodeId} {n : Nat}
    (hd : bound.get? name = some d) (hsrc : DimSource b b'.graph d src)
    (hn : Meaning.dim ⟨b.graph, sizes⟩ (meaning ⟨b.graph, sizes⟩ given) d = .ok n) :
    ∃ w, meaning ⟨b'.graph, sizes⟩ given src = .ok (.scalar w) ∧
      w.convert sz = (Literal.int (Int64.ofNat n)).convert sz := by
  have hsize := ElemSize.isFloatingPoint_of_isSignedInteger h.size
  have hknown := h.binds.hasDim h.caller h.has hd
  cases d with
  -- A constant of the smallest type that holds it.
  | const k =>
    obtain ⟨size, hofInt, hlt, hkind⟩ := hsrc
    have hconstant : (b'.graph.node src).constant? = some (.int (Int64.ofInt k)) := by
      rw [Node.constant?, hkind]
    have helem : b'.graph.elemSize src = size := by
      rw [Graph.elemSize, Node.elemSize, Node.type, hkind]
      rfl
    have hvalid : b'.graph.EntryValid b.entry := (h.grown hinlined).valid.entry
    have hnot : given.get? src = none := by
      apply h.givenBy.get?_eq_none
      intro hgiven
      rw [hvalid.constant hgiven] at hconstant
      cases hconstant
    have hnarrow := ElemSize.isFloatingPoint_of_isSignedInteger
      (ElemSize.isSignedInteger_of_ofInt? hofInt)
    refine ⟨_, meaning_of_constant hnot hconstant, ?_⟩
    rw [helem, Literal.convert_eq_self (ElemSize.holds_of_ofInt? hofInt) hnarrow,
      ← Except.ok.inj hn, Dim.constSize, Word.ofNat_ofInt]
  -- The caller's own symbol, which was given its size already.
  | sym other =>
    obtain ⟨symbol, hsymbol, rfl⟩ := hsrc
    have hmem : (other, symbol) ∈ b.symbols.entries := Table.mem_of_get? hsymbol
    obtain ⟨m, -, hm, hvalue⟩ := h.admits.symbol (other, symbol) hmem
    have hnm : m = n := by
      rw [Meaning.dim, show sizes.get? other = some m from hm] at hn
      exact Except.ok.inj hn
    have helem : b.graph.elemSize symbol.node = sz :=
      Graph.elemSize_of_type (h.caller.interface.symbolType _ hmem)
    refine ⟨_, meaning_of_given hvalue, ?_⟩
    show ((Literal.int (Int64.ofNat m)).convert (b.graph.elemSize symbol.node)).convert sz = _
    rw [helem, hnm, Literal.convert_eq_self (Literal.holds_convert _ _) hsize]
  -- A scalar of the caller: the size is its number, since that is not negative.
  | node id =>
    obtain rfl := (show src = id from hsrc)
    obtain ⟨a, ha, hmem⟩ := h.binds.dims hd
    obtain ⟨w, hw, hwn⟩ := exists_of_bind_ok (show (Meaning.scalar _ src >>= _) = _ from hn)
    obtain ⟨v, hv, hvw⟩ := exists_of_bind_ok (show (meaning _ _ src >>= _) = _ from hw)
    cases v with
    | tensor shape data => cases hvw
    | scalar v =>
      obtain rfl := Except.ok.inj hvw
      have hnonneg := h.nonneg a ha src hmem v hv
      have hsame : Int64.ofNat n = v.asInt := by
        rw [← Except.ok.inj hwn, ← Int64.ofInt_eq_ofNat, Int.toNat_of_nonneg hnonneg,
          Int64.ofInt_toInt]
      refine ⟨v, ?_, ?_⟩
      · rw [h.meaning_eq hinlined hknown.avail]
        exact hv
      · rw [hsame]
        exact Literal.convert_asInt v h.size

variable {given' : GivenValues} {sizes' : Table String Nat} (hadmits : callee.Admits values given' sizes')
  (hsizes : ∀ name n, sizes'.get? name = some n →
    n = bound.size ⟨b.graph, sizes⟩ (meaning ⟨b.graph, sizes⟩ given) name)
include hadmits

omit hinlined in
/-- A parameter of the callee has the converted value of its argument. -/
theorem argument_value {p : NodeId × NodeId}
    (hp : p ∈ (callee.inputs.map Prod.snd).zip args) : ∃ v,
      meaning ⟨b.graph, sizes⟩ given p.2 = .ok v ∧
        given'.get? p.1 = some (v.convert (callee.graph.elemSize p.1)) := by
  have hlength : values.length = (callee.inputs.map Prod.snd).length := by
    rw [List.length_map, h.length_eq]
  obtain ⟨v, hinput, -, harg⟩ := exists_mem_zip_of_length hlength hp
  rw [List.zip_map_left] at hinput
  obtain ⟨q, hq, heq⟩ := List.mem_map.mp hinput
  obtain ⟨hid, rfl⟩ := Prod.mk.inj heq
  obtain ⟨w, hw, hget⟩ := hadmits.input q hq
  obtain ⟨rfl, -⟩ := FunctionGraph.bindArgument_spec hw
  refine ⟨q.2, ok_of_mem_zip h.evaluated _ harg, ?_⟩
  rw [← hid]
  exact hget

include hsizes

omit hinlined in
/-- A symbol of the callee has the size of the dimension that it stands for. -/
theorem symbol_value {name : String} {d : Dim} (hd : bound.get? name = some d)
    (hname : callee.symbols.contains name = true) : ∃ n,
      sizes'.get? name = some n ∧
        Meaning.dim ⟨b.graph, sizes⟩ (meaning ⟨b.graph, sizes⟩ given) d = .ok n := by
  obtain ⟨m, hm⟩ := h.exists_dim hd
  obtain ⟨n, hn⟩ := Table.get?_eq_some_of_contains ((hadmits.known name).mpr hname)
  refine ⟨n, hn, ?_⟩
  rw [hm, hsizes name n hn, SymbolBinding.size_eq hd hm]

/-- What the callee is given is what the copies compute. -/
theorem copy_value {id : NodeId} (hid : callee.entry.node id) :
    meaning ⟨callee.graph, sizes'⟩ given' id =
      meaning ⟨b'.graph, sizes⟩ given ((b.graph.relocation bound.substitute).node id) := by
  obtain ⟨hgrown, havailable⟩ := hinlined.grown h.caller h.wellFormed h.binds h.has
  have hlt := h.wellFormed.valid.entry.lt hid
  have emb := hinlined.embeds h.caller h.wellFormed
  have hhas := havailable id (Graph.Source.available (Or.inl hid))
  have hnot := (h.caller.valid.entry.not_given (hinlined.spliced.node_lt hlt).1).1
  have hconstant := (emb.constant hlt).trans (h.wellFormed.valid.entry.constant hid)
  obtain ⟨p, hp, rfl⟩ := List.mem_map.mp (hinlined.all id hid)
  obtain ⟨o, hproducer, hop⟩ := hinlined.spliced.copies p hp
  -- The copy converts what it is fed to the type of the given node.
  have hcopy : ∀ v, meaning ⟨b'.graph, sizes⟩ given p.2 = .ok v →
      meaning ⟨b'.graph, sizes⟩ given ((b.graph.relocation bound.substitute).node p.1) =
        .ok (v.convert (callee.graph.elemSize p.1)) := by
    intro v hv
    rw [FunctionBuilder.Has, hgrown.entry_eq] at hhas
    have hoperator := @meaning_of_producer ⟨b'.graph, sizes⟩ _ _ hgrown.valid.coherent
      hgrown.valid.entry h.givenBy _ hhas o (h.givenBy.get?_eq_none hnot) hconstant hproducer
    rw [hoperator]
    show Meaning.operator _ _ (b'.graph.op o) _ = _
    rw [hop, ← emb.elemSize hlt]
    show (meaning ⟨b'.graph, sizes⟩ given p.2 >>= _) = _
    rw [hv]
    rfl
  cases hinlined.feeds p hp with
  | argument hmem =>
    obtain ⟨v, hv, hget⟩ := h.argument_value hadmits hmem
    have hsame := h.meaning_eq hinlined (h.has _ (List.of_mem_zip hmem).2)
    rw [meaning_of_given hget, hcopy v (hsame.trans hv)]
  | @symbol name symbol d src hmem hd hsrc =>
    obtain ⟨n, hn, hdim⟩ := h.symbol_value hadmits hsizes hd (Table.contains_of_mem hmem)
    obtain ⟨m, -, hm, hget⟩ := hadmits.symbol _ hmem
    obtain rfl := Option.some.inj (hn.symm.trans hm)
    obtain ⟨w, hw, hconvert⟩ := h.source_value hinlined hd hsrc hdim
    have helem : callee.graph.elemSize symbol.node = sz :=
      Graph.elemSize_of_type (h.wellFormed.interface.symbolType _ hmem)
    rw [meaning_of_given hget, hcopy _ hw, FunctionGraph.sizeValue, helem, ← hconvert]
    rfl

/-- The copy of the callee means in the caller what the callee means for the arguments. -/
theorem agree_callee {id : NodeId} (hid : callee.graph.Available callee.entry id) :
    Agree (fun _ => ()) (meaning ⟨callee.graph, sizes'⟩ given' id)
      (meaning ⟨b'.graph, sizes⟩ given ((b.graph.relocation bound.substitute).node id)) := by
  obtain ⟨hgrown, havailable⟩ := hinlined.grown h.caller h.wellFormed h.binds h.has
  have hvalid := h.wellFormed.valid
  have hgiven' := h.wellFormed.evaluable.givenBy hadmits
  apply agree_meaning (r := b.graph.relocation bound.substitute)
    (hinlined.embeds h.caller h.wellFormed) hvalid.coherent hvalid.entry hgiven'
    hgrown.valid.coherent hgrown.valid.entry h.givenBy
  · intro id hid
    have hhas := havailable id hid
    rwa [FunctionBuilder.Has, hgrown.entry_eq] at hhas
  · intro id _
    exact (h.caller.valid.entry.not_given (Nat.le_add_left _ _)).1
  · intro id hid
    rw [h.copy_value hinlined hadmits hsizes hid]
    exact .refl _
  · intro name hname
    obtain ⟨symbol, hsymbol⟩ := Table.get?_eq_some_of_contains hname
    obtain ⟨d, hd⟩ := h.binds.exists_dim h.wellFormed (Table.mem_of_get? hsymbol)
    obtain ⟨n, hn, hdim⟩ := h.symbol_value hadmits hsizes hd hname
    have hsubst : (b.graph.relocation bound.substitute).symbol name = d := by
      simp [Graph.relocation, SymbolBinding.substitute, hd]
    have hsame := h.dim_eq hinlined (h.binds.hasDim h.caller h.has hd)
    rw [hsubst, hsame, hdim, Meaning.dim, hn]
    exact .refl _
  · exact fun _ => rfl
  · exact fun _ => rfl
  · exact hid

end Copy

/-- The result of a call is the result of its callee for the values of the arguments. -/
theorem eval_result (hbind : (b.view []).bindAll inputs = .ok (given, sizes)) {b' : FunctionBuilder}
    {copied : List (NodeId × NodeId)} (hinlined : Inlined b callee args bound copied b')
    {out : NodeId} (hout : out ∈ callee.outputs.head?) :
    ((b'.view [(b.graph.relocation bound.substitute).node out]).eval inputs).toOption =
      (callee.eval values).toOption := by
  obtain ⟨hgrown, havailable⟩ := hinlined.grown h.caller h.wellFormed h.binds h.has
  obtain ⟨given', sizes', hbind', hsizes⟩ := h.exists_bindAll
  have hcallee := h.wellFormed.evaluable
  have hadmits := FunctionGraph.admits_of_bindAll hcallee.interface hbind'
  have hsingle : callee.outputs = [out] := by
    have hlength := h.wellFormed.single
    generalize callee.outputs = outputs at *
    match outputs, hout, hlength with
    | [_], hout, _ => rw [Option.some.inj hout]
  have havailableOut := h.wellFormed.outputs out (List.mem_of_mem_head? hout)
  have hhas := havailable out havailableOut
  rw [(hgrown.wellFormed h.caller).eval_view (by simpa using hhas),
    h.caller.bindAll_view hgrown [] [], hbind, hcallee.eval_eq h.wellFormed.outputs, hbind', hsingle]
  have hout : ∀ id ∈ [out], Agree (fun _ => ()) (meaning ⟨callee.graph, sizes'⟩ given' id)
      (meaning ⟨b'.graph, sizes⟩ given ((b.graph.relocation bound.substitute).node id)) := by
    intro id hid
    rw [List.mem_singleton.mp hid]
    exact h.agree_callee hinlined hadmits hsizes havailableOut
  exact (Agree.mapM _ hout).toOption_eq.symm

end Called

/-- A call that succeeds was given a callee, whose symbols it bound and whose graph it spliced. -/
theorem exists_of_inlineCall {ctx : BuildContext} {function : String} {args : List NodeId}
    {span : Span} {b b' : FunctionBuilder} {cache cache' : GraphCache} {result : NodeId}
    (hrun : run (inlineCall ctx function args span) b cache = (.ok (result, b'), cache')) :
    ∃ callee bound, (runCall (ctx.call function (args.map b.graph.type) span) cache).1 = .ok callee ∧
      callee.canInline = true ∧ callee.inputs.length = args.length ∧
      SymbolBinding.bindParams function .empty
        ((callee.inputs.map fun input => (input.1, callee.graph.type input.2)).zip
          (args.map b.graph.type)) = .ok bound ∧
      run (spliceCall callee function args bound span) b
        (runCall (ctx.call function (args.map b.graph.type) span) cache).2 =
          (.ok (result, b'), cache') := by
  have hget : run (get : BuildM FunctionBuilder) b cache = (.ok (b, b), cache) := rfl
  unfold inlineCall at hrun
  rw [run_bind, hget] at hrun
  dsimp only at hrun
  rw [run_bind] at hrun
  rw [run_lift] at hrun
  generalize runCall (ctx.call function (args.map b.graph.type) span) cache = provided at *
  obtain ⟨outcome, cache₁⟩ := provided
  -- Every check that fails ends the call, so a call that succeeds has passed all of them.
  cases outcome with
  | error err => cases hrun
  | ok callee =>
    dsimp only [Except.map] at hrun
    split at hrun
    · cases hrun
    · next hinline =>
      split at hrun
      · cases hrun
      · next hcount =>
        cases hbound : SymbolBinding.bindParams function .empty
            ((callee.inputs.map fun input => (input.1, callee.graph.type input.2)).zip
              (args.map b.graph.type)) with
        | error fault =>
          rw [hbound] at hrun
          cases hrun
        | ok bound =>
          rw [hbound] at hrun
          exact ⟨callee, bound, rfl, by simpa using hinline, by simpa using hcount, hbound, hrun⟩

end BuildM

/-! ## Running calls -/

namespace Registry

/--
A call means what its callee means.  Let a call in a well-formed builder succeed, and let its
arguments have values for some inputs of the caller, where no computed dimension of an argument is
negative.  Then the result of the call has the value that the callee gives for these values, or both
fail, and every node that was there before has its value as before.
-/
theorem eval_inlineCall (options : Options) (hsize : options.indexSize.isSignedInteger = true)
    (r : Registry) (active : String) {b : FunctionBuilder} (hb : b.WellFormed options.indexSize)
    {cache : GraphCache} (hcache : cache.Sound options.indexSize) {function : String}
    {args : List NodeId} {span : Span} {callee : FunctionGraph}
    (hcallee : ((r.enter active cache).instantiate .standard options function
      (args.map b.graph.type) span).1 = .ok callee)
    {result : NodeId} {b' : FunctionBuilder} {cache' : GraphCache}
    (hrun : (BuildM.inlineCall (r.context .standard options active) function args span).run b
      cache = (.ok (result, b'), cache'))
    {inputs values : List Value} (hargs : (b.view args).eval inputs = .ok values)
    (hcounted : ∀ v ∈ values, v.Counted)
    (hnonneg : ∀ a ∈ args, ∀ id, .node id ∈ b.graph.shape a → ∀ v,
      (b.view [id]).eval inputs = .ok [.scalar v] → 0 ≤ v.asInt.toInt) :
    ((b'.view [result]).eval inputs).toOption = (callee.eval values).toOption ∧
      ∀ node : NodeId, node.index < b.graph.nodes.size →
        ((b'.view [node]).eval inputs).toOption = ((b.view [node]).eval inputs).toOption := by
  have hhas := hb.has_of_eval hargs
  have hprovides := instantiate_provides options False False r.functions False.elim
    (r.enter active cache).idle.length (r.enter active cache) rfl rfl hcache.formed function
    (args.map b.graph.type) span
  obtain ⟨callee', bound, hcall, hinline, hlength, hbound, hsplice⟩ :=
    BuildM.exists_of_inlineCall hrun
  rw [runCall_context] at hcall hsplice
  obtain rfl : callee' = callee := Except.ok.inj (hcall.symm.trans hcallee)
  have hwf := (hprovides.ok callee' hcallee).wellFormed
  have hbinds := BuildM.binds_of_bindParams hlength hbound
  -- The splice starts from a builder and a callee that are well formed, so it meets its contract.
  have hmeets := @BuildM.meets_spliceCall _ (GraphCache.Formed options.indexSize False) False b
    callee' args bound hb.valid.coherent hwf hbinds (hbinds.hasDim hb hhas) (hwf.returned hinline)
    function span
  obtain ⟨-, houtcome⟩ := hmeets _ hprovides.cache
  rw [hsplice] at houtcome
  obtain ⟨copied, out, hinlined, hout, rfl⟩ := houtcome
  obtain ⟨hgrown, -⟩ := hinlined.grown hb hwf hbinds hhas
  refine ⟨?_, fun node hnode => hb.eval_grown hgrown hnode inputs⟩
  rw [hb.eval_view hhas] at hargs
  obtain ⟨⟨given, sizes⟩, hbind, hvalues⟩ := exists_of_bind_ok hargs
  have hcalled : BuildM.Called options.indexSize b callee' args bound given sizes inputs values := by
    refine ⟨hsize, hb, hwf, hbinds, hhas, FunctionGraph.admits_of_bindAll
      (hb.evaluable []).interface hbind, hvalues, hcounted, fun a ha id hid v hv => ?_⟩
    have hknown : b.HasDim (.node id) := hb.hasDim (hhas a ha) _ hid
    apply hnonneg a ha id hid v
    rw [hb.eval_view fun other hmem => List.mem_singleton.mp hmem ▸ hknown.avail, hbind]
    show [id].mapM (meaning ⟨b.graph, sizes⟩ given) = _
    rw [List.mapM_cons, hv]
    rfl
  exact hcalled.eval_result hbind hinlined hout

end Registry

/-! ## A call that narrows its argument -/

/-- The builder of a kernel with one scalar parameter. -/
def FunctionBuilder.scalarParam (name param : String) (size : ElemSize) : FunctionBuilder :=
  { FunctionBuilder.start name with
    graph := (Graph.empty.addNode (some param) (.scalar size)).2
    params := Table.empty.insert param ⟨0⟩
    inputs := [(param, ⟨0⟩)] }

theorem FunctionBuilder.scalarParam_wellFormed (name param : String) (size sz : ElemSize) :
    (scalarParam name param size).WellFormed sz := by
  have hclosed : (KernelType.scalar size).Closed := fun d hd => nomatch hd
  have hpreliminary : Preliminary sz [] (scalarParam name param size) :=
    (Preliminary.start name).addParam (fun _ _ => rfl) (fun _ _ h => by cases h) hclosed
  exact hpreliminary.wellFormed fun _ _ h => by cases h

/-- The graph of a kernel that returns its scalar parameter. -/
def FunctionGraph.scalarIdentity (name param : String) (size : ElemSize) : FunctionGraph :=
  { (FunctionBuilder.scalarParam name param size).view [⟨0⟩] with canInline := true }

theorem FunctionGraph.scalarIdentity_wellFormed (name param : String) (size sz : ElemSize) :
    (scalarIdentity name param size).WellFormed sz := by
  have hb := FunctionBuilder.scalarParam_wellFormed name param size sz
  have hresult : ∀ id, (FunctionBuilder.scalarParam name param size).entry.result id →
      (FunctionBuilder.scalarParam name param size).Has id := by
    rintro id ⟨ty, hplan⟩
    cases hplan
  obtain ⟨hvalid, hkeep⟩ := FunctionBuilder.valid_finished hb.valid hresult
  refine ⟨hvalid, hb.interface, fun id hid => ?_, Nat.le_refl 1, fun _ h => by cases h⟩
  rw [List.mem_singleton.mp hid]
  exact hkeep _ (FunctionBuilder.has_given (Or.inl (List.mem_singleton_self _)))

namespace Registry

/-- A module with a kernel whose parameter is an integer of 8 bits. -/
def narrowing : Registry where
  functions := .ofList [("narrow", ⟨"narrow", [⟨"x", some (.name "int8" .nowhere), .nowhere⟩],
    .missing, [.returns (some (.name "x" .nowhere)) .nowhere], .nowhere⟩)]
  cache := Table.empty.insert "narrow" (.scalarIdentity "narrow" "x" .i8)
  active := []

/-- A kernel with a parameter of 32 bits, after it has called the other one with it. -/
def narrowed : FunctionBuilder :=
  let b := FunctionBuilder.scalarParam "main" "y" .i32
  let g := (b.graph.splice (FunctionGraph.scalarIdentity "narrow" "x" .i8).graph Dim.sym).2
  { b with graph := (g.addOp .copy [⟨0⟩] [⟨1⟩]).2 }

theorem instantiate_narrow : (narrowing.enter "main" narrowing.cache).instantiate .standard .default
    "narrow" [.scalar .i32] .nowhere =
      (.ok (.scalarIdentity "narrow" "x" .i8), narrowing.enter "main" narrowing.cache) := by
  rw [instantiate]
  rfl

theorem run_narrow : (BuildM.inlineCall (narrowing.context .standard .default "main") "narrow" [⟨0⟩]
    .nowhere).run (.scalarParam "main" "y" .i32) narrowing.cache =
      (.ok (⟨1⟩, narrowed), narrowing.cache) := by
  have hget : BuildM.run (get : BuildM FunctionBuilder) (.scalarParam "main" "y" .i32)
      narrowing.cache = (.ok (_, _), _) := rfl
  have htypes : List.map (FunctionBuilder.scalarParam "main" "y" .i32).graph.type [⟨0⟩] =
      [.scalar .i32] := rfl
  unfold BuildM.inlineCall
  rw [BuildM.run_bind, hget]
  dsimp only
  rw [BuildM.run_bind, BuildM.run_lift, runCall_context, htypes, instantiate_narrow]
  rfl

theorem eval_inlineCall_narrow :
    ((narrowed.view [⟨1⟩]).eval [.scalar (.int 300)]).toOption = some [.scalar (.int 44)] ∧
      ∀ node : NodeId, node.index < 1 →
        ((narrowed.view [node]).eval [.scalar (.int 300)]).toOption =
          (((FunctionBuilder.scalarParam "main" "y" .i32).view [node]).eval
            [.scalar (.int 300)]).toOption := by
  have hb := FunctionBuilder.scalarParam_wellFormed "main" "y" .i32 Options.default.indexSize
  have hcache : narrowing.cache.Sound Options.default.indexSize :=
    (GraphCache.Sound.empty _).insert (FunctionGraph.scalarIdentity_wellFormed ..)
  have hcallee := congrArg Prod.fst instantiate_narrow
  have hargs : ((FunctionBuilder.scalarParam "main" "y" .i32).view [⟨0⟩]).eval
      [.scalar (.int 300)] = .ok [.scalar (.int 300)] := rfl
  obtain ⟨hresult, hbefore⟩ := eval_inlineCall .default rfl narrowing "main" hb hcache hcallee
    run_narrow hargs (by simp [Value.Counted]) fun a ha id hid => by
      obtain rfl := List.mem_singleton.mp ha
      cases hid
  exact ⟨hresult.trans rfl, hbefore⟩

end Registry

end TensorKernel
