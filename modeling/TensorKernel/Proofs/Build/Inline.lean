import TensorKernel.Proofs.Build.Binding
import TensorKernel.Proofs.Build.Operand
import TensorKernel.Proofs.Graph.Splice

/-!
# Inlined calls

A call leaves the caller's graph with the callee's graph spliced in, where every parameter is
computed by a copy of its argument and every shape symbol by a copy of the dimension that it stands
for.  `BuildM.Inlined` records this exactly, and `Inlined.grown` concludes that the caller's graph
has only grown and that the result has a value.
-/

namespace TensorKernel

namespace BuildM

variable {sz : ElemSize} {caches : GraphCache → Prop} {strict : Prop}

/-! ## Bindings of a call -/

/-- Parameters agree with arguments, and symbols stand for dimensions of arguments. -/
structure Binds (b : FunctionBuilder) (callee : FunctionGraph) (args : List NodeId)
    (bound : SymbolBinding) : Prop where
  length : callee.inputs.length = args.length
  agrees : ∀ p ∈ (callee.inputs.map Prod.snd).zip args,
    bound.Agrees (callee.graph.type p.1) (b.graph.type p.2)
  dims : ∀ {name d}, bound.get? name = some d → ∃ a ∈ args, d ∈ b.graph.shape a

theorem binds_of_bindParams {b : FunctionBuilder} {callee : FunctionGraph} {args : List NodeId}
    {function : String} {bound : SymbolBinding} (hlength : callee.inputs.length = args.length)
    (h : SymbolBinding.bindParams function .empty
      ((callee.inputs.map fun input => (input.1, callee.graph.type input.2)).zip
        (args.map b.graph.type)) = .ok bound) : Binds b callee args bound := by
  obtain ⟨-, hagrees, hnew⟩ := SymbolBinding.bindParams_ok h
  refine ⟨hlength, fun p hp => ?_, fun {name d} hd => ?_⟩
  · rw [List.zip_map_left] at hp
    obtain ⟨q, hq, rfl⟩ := List.mem_map.mp hp
    have hmem : ((q.1.1, callee.graph.type q.1.2), b.graph.type q.2) ∈
        (callee.inputs.map fun input => (input.1, callee.graph.type input.2)).zip
          (args.map b.graph.type) := by
      rw [List.zip_map]
      exact List.mem_map_of_mem (f := Prod.map (fun input => (input.1, callee.graph.type input.2))
        b.graph.type) hq
    exact hagrees _ hmem
  · rcases hnew name d hd with hd | ⟨p, hp, hd⟩
    · cases hd
    · obtain ⟨a, ha, hty⟩ := List.mem_map.mp (List.of_mem_zip hp).2
      exact ⟨a, ha, by rw [← hty] at hd; exact hd⟩

namespace Binds

variable {b : FunctionBuilder} {callee : FunctionGraph} {args : List NodeId} {bound : SymbolBinding}
  (h : Binds b callee args bound) (hcallee : callee.WellFormed sz)
include h

/-- Every parameter has an argument. -/
theorem exists_arg {id : NodeId} (hid : id ∈ callee.inputs.map Prod.snd) :
    ∃ a, (id, a) ∈ (callee.inputs.map Prod.snd).zip args := by
  obtain ⟨i, hi, rfl⟩ := List.mem_iff_getElem.mp hid
  have hi' : i < args.length := by
    rw [← h.length]
    simpa using hi
  refine ⟨args[i], List.mem_iff_getElem.mpr ⟨i, by simp [hi', h.length], ?_⟩⟩
  simp

include hcallee

/-- Every shape symbol of the callee is bound. -/
theorem exists_dim {name : String} {symbol : ShapeSymbol}
    (hmem : (name, symbol) ∈ callee.symbols.entries) : ∃ d, bound.get? name = some d := by
  obtain ⟨harg, haxis⟩ := hcallee.interface.symbolArg _ hmem
  obtain ⟨a, ha⟩ := h.exists_arg harg
  have hagrees := h.agrees _ ha
  obtain ⟨haxisLt, haxis⟩ := List.getElem?_eq_some_iff.mp haxis
  have haxisLt' : symbol.axis < (b.graph.type a).shape.length := by
    rw [← hagrees.rank]
    exact haxisLt
  refine ⟨(b.graph.type a).shape[symbol.axis], ?_⟩
  have hpair := hagrees.pairs ((callee.graph.type symbol.arg).shape.get ⟨symbol.axis, haxisLt⟩,
    (b.graph.type a).shape[symbol.axis]) (List.mem_iff_getElem.mpr ⟨symbol.axis, by
      rw [List.length_zip]
      exact Nat.lt_min.mpr ⟨haxisLt, haxisLt'⟩, List.getElem_zip⟩)
  rwa [show (callee.graph.type symbol.arg).shape.get ⟨symbol.axis, haxisLt⟩ = .sym name from haxis]
    at hpair

end Binds

/-! ## Spliced calls -/

/-- The scalar that holds a dimension of the caller. -/
def DimSource (b : FunctionBuilder) (g : Graph) : Dim → NodeId → Prop
  | .const n, src => ∃ size, ElemSize.ofInt? n = some size ∧
      src.index < g.nodes.size ∧ (g.node src).kind = .constant (.int (Int64.ofInt n)) size
  | .sym name, src => ∃ symbol, b.symbols.get? name = some symbol ∧ src = symbol.node
  | .node id, src => src = id

/-- What a given node of the callee is computed from. -/
inductive Feeds (b : FunctionBuilder) (callee : FunctionGraph) (args : List NodeId)
    (bound : SymbolBinding) (g : Graph) : NodeId × NodeId → Prop
  | argument {p : NodeId × NodeId} (h : p ∈ (callee.inputs.map Prod.snd).zip args) :
      Feeds b callee args bound g p
  | symbol {name : String} {symbol : ShapeSymbol} {d : Dim} {src : NodeId}
      (hmem : (name, symbol) ∈ callee.symbols.entries) (hdim : bound.get? name = some d)
      (hsrc : DimSource b g d src) : Feeds b callee args bound g (symbol.node, src)

theorem Feeds.mono {b : FunctionBuilder} {callee : FunctionGraph} {args : List NodeId}
    {bound : SymbolBinding} {g g' : Graph} (hle : g.nodes.size ≤ g'.nodes.size)
    (hkind : ∀ id : NodeId, id.index < g.nodes.size → (g'.node id).kind = (g.node id).kind)
    {p : NodeId × NodeId} (h : Feeds b callee args bound g p) : Feeds b callee args bound g' p := by
  cases h with
  | argument h => exact .argument h
  | @symbol name symbol d src hmem hdim hsrc =>
    refine .symbol hmem hdim ?_
    cases d with
    | const n =>
      obtain ⟨size, hsize, hlt, hsrcKind⟩ := hsrc
      exact ⟨size, hsize, Nat.lt_of_lt_of_le hlt hle, by rw [hkind _ hlt, hsrcKind]⟩
    | sym name => exact hsrc
    | node id => exact hsrc

/--
The builder after a call has been spliced in and the nodes on the left of `copied` have been
computed by copies.  Constants that were added for the copies are of their types.
-/
structure Inlining (b : FunctionBuilder) (callee : FunctionGraph) (args : List NodeId)
    (bound : SymbolBinding) (copied : List (NodeId × NodeId)) (b' : FunctionBuilder) : Prop where
  eq : b' = { b with graph := b'.graph }
  spliced : b.graph.Spliced callee.graph (b.graph.relocation bound.substitute) copied b'.graph
  feeds : ∀ p ∈ copied, Feeds b callee args bound b'.graph p
  constants : ∀ {id v}, b.graph.nodes.size + callee.graph.nodes.size ≤ id.index →
    b'.graph.IsInt id v → (b'.graph.elemSize id).Holds (.int v)

/-- The builder after a call: every given node of the callee is computed by a copy. -/
structure Inlined (b : FunctionBuilder) (callee : FunctionGraph) (args : List NodeId)
    (bound : SymbolBinding) (copied : List (NodeId × NodeId)) (b' : FunctionBuilder) : Prop
    extends Inlining b callee args bound copied b' where
  all : ∀ id, callee.entry.node id → id ∈ copied.map Prod.fst

namespace Inlining

variable {b b' : FunctionBuilder} {callee : FunctionGraph} {args : List NodeId}
  {bound : SymbolBinding} {copied : List (NodeId × NodeId)}

theorem addCopy (h : Inlining b callee args bound copied b') {inner : NodeId} (src : NodeId)
    (hinner : inner.index < callee.graph.nodes.size) (hcopied : inner ∉ copied.map Prod.fst)
    (hfeeds : Feeds b callee args bound b'.graph (inner, src)) :
    Inlining b callee args bound ((inner, src) :: copied) { b' with
      graph := (b'.graph.addOp .copy [src] [(b.graph.relocation bound.substitute).node inner]).2 }
    where
  eq := by rw [h.eq]
  spliced := h.spliced.addCopy hinner hcopied
  feeds p hp := by
    have hfeeds' : Feeds b callee args bound b'.graph p := by
      rcases List.mem_cons.mp hp with rfl | hp
      · exact hfeeds
      · exact h.feeds p hp
    exact hfeeds'.mono (by simp) fun id _ => by simp
  constants {id v} hge hint := by
    have hkind : ((b'.graph.addOp .copy [src]
        [(b.graph.relocation bound.substitute).node inner]).2.node id).kind =
          (b'.graph.node id).kind := Graph.addOp_kind ..
    rw [Graph.isInt_iff_kind, hkind, ← Graph.isInt_iff_kind] at hint
    simp only [Graph.elemSize, Node.elemSize, Node.type, hkind]
    exact h.constants hge hint

theorem addConstant (h : Inlining b callee args bound copied b') {v : Literal} {ty : ElemSize}
    (hfits : ∀ i, v = .int i → ty.Holds (.int i)) :
    Inlining b callee args bound copied { b' with graph := (b'.graph.addConstant v ty).2 } where
  eq := by rw [h.eq]
  spliced := h.spliced.addConstant v ty
  feeds p hp := by
    have hext : b'.graph.Extends (b'.graph.addConstant v ty).2 :=
      (Graph.Extends.refl b'.graph).addNode _ _
    exact (h.feeds p hp).mono hext.nodes_le hext.kind_eq
  constants {id w} hge hint := by
    have hadjoins := Graph.Adjoins.addConstant (g := b'.graph) hfits
    by_cases hlt : id.index < b'.graph.nodes.size
    · rw [show (b'.graph.addConstant v ty).2.elemSize id = b'.graph.elemSize id from
        hadjoins.carries.elemSize hlt]
      exact h.constants hge ((hadjoins.carries.isInt_iff hlt).mp hint)
    · exact hadjoins.constant (Nat.le_of_not_lt hlt) hint

end Inlining

section Call

variable {b : FunctionBuilder} {callee : FunctionGraph} {args : List NodeId} {bound : SymbolBinding}

theorem meets_copyArguments {params : List (String × NodeId)} :
    ∀ {rest : List NodeId} {copied : List (NodeId × NodeId)} {b' : FunctionBuilder},
      params.length = rest.length →
      (∀ p ∈ (params.map Prod.snd).zip rest, p ∈ (callee.inputs.map Prod.snd).zip args) →
      (params.map Prod.snd).Nodup → (∀ id ∈ params.map Prod.snd, id ∉ copied.map Prod.fst) →
      (∀ id ∈ params.map Prod.snd, id.index < callee.graph.nodes.size) →
      Inlining b callee args bound copied b' →
      Meets caches strict
        (copyArguments (b.graph.relocation bound.substitute) params rest) b'
        fun _ b'' => Inlining b callee args bound
          (((params.map Prod.snd).zip rest).reverse ++ copied) b'' := by
  -- Each step copies into one parameter and adds it to the copied ones, which must not hold it yet.
  induction params with
  | nil =>
    intro rest copied b' _ _ _ _ _ h
    exact meets_pure (by simpa using h)
  | cons param params ih =>
    intro rest copied b' hlength hmem hnodup hnew hlt h
    cases rest with
    | nil => cases hlength
    | cons arg rest =>
      obtain ⟨name, inner⟩ := param
      simp only [List.map_cons, List.nodup_cons] at hnodup
      have hinner := hnew inner (by simp)
      have hcopy := h.addCopy arg (hlt inner (by simp)) hinner (.argument (hmem _ (by simp)))
      refine (meets_onGraph (Q := fun _ b'' => Inlining b callee args bound
        ((inner, arg) :: copied) b'') hcopy).bind fun _ b'' h'' => ?_
      refine (ih (Nat.succ.inj hlength) (fun p hp => hmem p (by simp [hp])) hnodup.2
        (fun id hid hcopied => ?_) (fun id hid => hlt id (by simp [hid])) h'').mono
        fun _ b''' h''' => ?_
      · rcases List.mem_cons.mp hcopied with rfl | hcopied
        · exact hnodup.1 hid
        · exact hnew id (by simp [hid]) hcopied
      · simpa using h'''

/-- The scalar of a dimension of the caller, while a call is spliced in. -/
theorem meets_dimNode {d : Dim} {span : Span} {copied : List (NodeId × NodeId)}
    {b' : FunctionBuilder} (hd : b.HasDim d) (h : Inlining b callee args bound copied b') :
    Meets caches strict (dimNode d span) b' fun src b'' =>
      DimSource b b''.graph d src ∧ Inlining b callee args bound copied b'' := by
  cases d with
  | const n =>
    change Meets caches strict (intConstant n span) b' _
    unfold intConstant
    split
    · next size hsize =>
      refine meets_onGraph ⟨⟨size, hsize, ?_⟩, h.addConstant fun i hi => ?_⟩
      · simp [Graph.addConstant]
      · exact Literal.int.inj hi ▸ ElemSize.holds_of_ofInt? hsize
    · exact meets_fail (by rintro ⟨⟩)
  | sym name =>
    obtain ⟨symbol, hsymbol⟩ := Table.get?_eq_some_of_contains hd
    have hsymbols : b'.symbols = b.symbols := by rw [h.eq]
    refine meets_get_bind ?_
    simp only [hsymbols, hsymbol]
    exact meets_pure ⟨⟨symbol, hsymbol, rfl⟩, h⟩
  | node id => exact meets_pure ⟨rfl, h⟩

theorem meets_copySymbols (hcallee : callee.WellFormed sz) (hbinds : Binds b callee args bound)
    (hdims : ∀ {name d}, bound.get? name = some d → b.HasDim d) {function : String} {span : Span}
    {rest : List (String × ShapeSymbol)} :
    ∀ {copied : List (NodeId × NodeId)} {b' : FunctionBuilder},
      (∀ p ∈ rest, p ∈ callee.symbols.entries) → (rest.map fun p => p.2.node).Nodup →
      (∀ p ∈ rest, p.2.node ∉ copied.map Prod.fst) → Inlining b callee args bound copied b' →
      Meets caches strict
        (copySymbols function (b.graph.relocation bound.substitute) bound span rest) b'
        fun _ b'' => ∃ copied', Inlining b callee args bound copied' b'' ∧ copied ⊆ copied' ∧
          ∀ p ∈ rest, p.2.node ∈ copied'.map Prod.fst := by
  -- As for arguments, but what is copied has to be looked up: the size that the symbol is bound to.
  induction rest with
  | nil =>
    intro copied b' _ _ _ h
    exact meets_pure ⟨copied, h, fun _ hp => hp, by simp⟩
  | cons entry rest ih =>
    intro copied b' hmem hnodup hnew h
    obtain ⟨name, symbol⟩ := entry
    simp only [List.map_cons, List.nodup_cons] at hnodup
    have hentry := hmem _ (List.mem_cons_self ..)
    obtain ⟨d, hd⟩ := hbinds.exists_dim hcallee hentry
    have hlt : symbol.node.index < callee.graph.nodes.size :=
      hcallee.valid.entry.lt (Or.inr ⟨_, hentry, rfl⟩)
    simp only [copySymbols, hd]
    refine (meets_dimNode (hdims hd) h).bind fun src b₁ ⟨hsrc, h₁⟩ => ?_
    have hcopy := h₁.addCopy src hlt (hnew _ (List.mem_cons_self ..)) (.symbol hentry hd hsrc)
    refine (meets_onGraph (Q := fun _ b'' => Inlining b callee args bound
      ((symbol.node, src) :: copied) b'') hcopy).bind fun _ b₂ h₂ => ?_
    refine (ih (fun p hp => hmem p (List.mem_cons_of_mem _ hp)) hnodup.2 (fun p hp hcopied => ?_)
      h₂).mono fun _ b₃ ⟨copied', h₃, hsub, hall⟩ => ⟨copied', h₃, ?_, fun p hp => ?_⟩
    · rcases List.mem_cons.mp hcopied with heq | hcopied
      · refine hnodup.1 (List.mem_map.mpr ⟨p, hp, heq⟩)
      · exact hnew p (List.mem_cons_of_mem _ hp) hcopied
    · exact fun p hp => hsub (List.mem_cons_of_mem _ hp)
    · rcases List.mem_cons.mp hp with rfl | hp
      · exact List.mem_map_of_mem (f := Prod.fst) (hsub (List.mem_cons_self ..))
      · exact hall p hp

/-- Splicing a call computes every given node of the callee by a copy. -/
theorem meets_spliceCall (hb : b.graph.Coherent) (hcallee : callee.WellFormed sz)
    (hbinds : Binds b callee args bound) (hdims : ∀ {name d}, bound.get? name = some d → b.HasDim d)
    (houtputs : callee.outputs ≠ []) (function : String) (span : Span) :
    Meets caches strict (spliceCall callee function args bound span) b fun id b' =>
      ∃ copied out, Inlined b callee args bound copied b' ∧ out ∈ callee.outputs.head? ∧
        id = (b.graph.relocation bound.substitute).node out := by
  obtain ⟨hin, hsym, hdisjoint⟩ := List.nodup_append.mp hcallee.interface.nodup
  refine meets_get_bind ?_
  -- Directly after the splice nothing is copied and no node has been taken from the inner graph.
  refine (meets_onGraph (Q := fun _ b' => Inlining b callee args bound [] b')
    ⟨rfl, Graph.spliced_splice hb hcallee.valid.coherent _, by simp, fun hge hint => ?_⟩).bind
    fun _ b₁ h₁ => ?_
  · have hlt := hint.lt
    rw [Graph.splice_nodes_size] at hlt
    omega
  refine (meets_copyArguments hbinds.length (fun _ hp => hp) hin (by simp)
    (fun id hid => hcallee.valid.entry.lt (Or.inl hid)) h₁).bind fun _ b₂ h₂ => ?_
  have hfst : ((callee.inputs.map Prod.snd).zip args).map Prod.fst = callee.inputs.map Prod.snd :=
    List.map_fst_zip (by simp [hbinds.length])
  refine (meets_copySymbols hcallee hbinds hdims (fun _ hp => hp) hsym (fun p hp hcopied => ?_)
    h₂).bind fun _ b₃ ⟨copied, h₃, hsub, hall⟩ => ?_
  · rw [List.append_nil, List.map_reverse, List.mem_reverse, hfst] at hcopied
    exact hdisjoint _ hcopied _ (List.mem_map_of_mem (f := fun p => p.2.node) hp) rfl
  -- Every given node of the callee is a parameter or a symbol, and both are copied by now.
  · have hinlined : Inlined b callee args bound copied b₃ := by
      refine ⟨h₃, fun id hid => ?_⟩
      rcases hid with hid | ⟨p, hp, rfl⟩
      · obtain ⟨a, ha⟩ := hbinds.exists_arg hid
        exact List.mem_map_of_mem (f := Prod.fst) (hsub (by simpa using ha))
      · exact hall p hp
    split
    · next out rest houts => exact meets_pure ⟨copied, out, hinlined, by simp [houts], rfl⟩
    · next hnil => exact absurd hnil houtputs

/-! ## The caller after a call -/

/-- The dimensions that the symbols of the callee stand for are known in the caller. -/
theorem Binds.hasDim (hb : b.WellFormed sz) (hbinds : Binds b callee args bound)
    (hargs : ∀ a ∈ args, b.Has a) {name : String} {d : Dim} (hd : bound.get? name = some d) :
    b.HasDim d := by
  obtain ⟨a, ha, hmem⟩ := hbinds.dims hd
  exact hb.hasDim (hargs a ha) d hmem

/-- What a given node of the callee is computed from has a value of its type. -/
theorem Inlining.source {b' : FunctionBuilder} {copied : List (NodeId × NodeId)}
    (h : Inlining b callee args bound copied b') (hb : b.WellFormed sz)
    (hcallee : callee.WellFormed sz) (hbinds : Binds b callee args bound)
    (hargs : ∀ a ∈ args, b.Has a) {p : NodeId × NodeId} (hp : p ∈ copied) :
    b'.graph.Available b.entry p.2 ∧
      (((b.graph.relocation bound.substitute).type (callee.graph.type p.1)).sameShape
        (b'.graph.type p.2) = true) ∧
      ∀ d ∈ b'.graph.shape p.2, b'.graph.DimValid b.entry (b'.graph.Available b.entry) d := by
  have hext := h.spliced.ext
  cases h.feeds p hp with
  -- An argument has the type that the parameter was bound to, and the graph only grew since.
  | argument hmem =>
    have harg := hargs _ (List.of_mem_zip hmem).2
    have hparam := (List.of_mem_zip hmem).1
    have hlt := Graph.Available.lt hb.valid.entry harg
    have hagrees := hbinds.agrees p hmem
    refine ⟨harg.extend hb.valid hext, ?_, fun d hd => ?_⟩
    · have hclosed : ∀ d ∈ (callee.graph.type p.1).shape, ∀ id, d ≠ .node id := by
        intro d hd id hnode
        subst hnode
        rcases hcallee.valid.entry.dims (Or.inl hparam) _ hd with ⟨n, h⟩ | ⟨name, h, -⟩ <;> cases h
      rw [hext.type_eq hlt]
      simp only [KernelType.sameShape, Relocation.isScalar_type, Relocation.shape_type,
        Bool.and_eq_true, beq_iff_eq]
      exact ⟨hagrees.scalar, hagrees.map_dim rfl hclosed⟩
    · rw [hext.shape_eq hlt] at hd
      exact (hext.dimValid (fun _ h => Graph.Available.lt hb.valid.entry h)
        (hb.hasDim harg d hd)).mono fun _ h => h.extend hb.valid hext
  -- A symbol is a scalar and so is the size it is bound to, in each of the three forms of a size.
  | @symbol name symbol d src hmem hdim hsrc =>
    have hscalar : ∀ {src : NodeId}, b'.graph.isScalar src = true →
        (((b.graph.relocation bound.substitute).type (callee.graph.type symbol.node)).sameShape
          (b'.graph.type src) = true) ∧
        ∀ d ∈ b'.graph.shape src, b'.graph.DimValid b.entry (b'.graph.Available b.entry) d := by
      intro src hsrc
      rw [hcallee.interface.symbolType _ hmem, Graph.type_of_isScalar hsrc,
        Graph.shape_of_isScalar hsrc]
      exact ⟨rfl, by simp⟩
    have hold : b.Has src → b.graph.isScalar src = true →
        b'.graph.Available b.entry src ∧
        (((b.graph.relocation bound.substitute).type (callee.graph.type symbol.node)).sameShape
          (b'.graph.type src) = true) ∧
        ∀ d ∈ b'.graph.shape src, b'.graph.DimValid b.entry (b'.graph.Available b.entry) d := by
      intro hhas hsrc
      refine ⟨hhas.extend hb.valid hext, hscalar ?_⟩
      rw [hext.isScalar_eq (Graph.Available.lt hb.valid.entry hhas), hsrc]
    have hknown := hbinds.hasDim hb hargs hdim
    cases d with
    | const n =>
      obtain ⟨size, -, -, hkind⟩ := hsrc
      refine ⟨Graph.Source.available (Or.inr ⟨_, by rw [Node.constant?, hkind]⟩), hscalar ?_⟩
      simp only [Graph.isScalar, Node.isScalar, Node.type, hkind, KernelType.isScalar]
    | sym other =>
      obtain ⟨symbol', hsymbol, rfl⟩ := hsrc
      exact hold (FunctionBuilder.has_symbol hsymbol) (Graph.isScalar_of_type
        (hb.interface.symbolType _ (Table.mem_of_get? hsymbol)))
    | node id =>
      subst hsrc
      exact hold hknown.avail hknown.scalar

/-- Only given nodes of the callee are computed by copies. -/
theorem Inlining.given {b' : FunctionBuilder} {copied : List (NodeId × NodeId)}
    (h : Inlining b callee args bound copied b') : ∀ p ∈ copied, callee.entry.node p.1 := by
  intro p hp
  cases h.feeds p hp with
  | argument hmem => exact Or.inl (List.of_mem_zip hmem).1
  | symbol hmem _ _ => exact Or.inr ⟨_, hmem, rfl⟩

/-- The callee's graph sits inside that of the caller. -/
theorem Inlining.embeds {b' : FunctionBuilder} {copied : List (NodeId × NodeId)}
    (h : Inlining b callee args bound copied b') (hb : b.WellFormed sz)
    (hcallee : callee.WellFormed sz) :
    Graph.Embeds callee.graph callee.entry b'.graph b.entry
      (b.graph.relocation bound.substitute) :=
  h.spliced.embeds hb.valid hcallee.valid h.given

/-- After a call the caller's graph has grown, and what has a value in the callee has one there. -/
theorem Inlined.grown {b' : FunctionBuilder} {copied : List (NodeId × NodeId)}
    (h : Inlined b callee args bound copied b') (hb : b.WellFormed sz)
    (hcallee : callee.WellFormed sz) (hbinds : Binds b callee args bound)
    (hargs : ∀ a ∈ args, b.Has a) :
    b.Grown b' ∧ ∀ id, callee.graph.Available callee.entry id →
      b'.Has ((b.graph.relocation bound.substitute).node id) := by
  have hgiven := h.given
  have hsrc := fun p hp => h.source hb hcallee hbinds hargs (p := p) hp
  have hsym : ∀ name, callee.entry.symbol name → b'.graph.DimValid b.entry
      (b'.graph.Available b.entry) ((b.graph.relocation bound.substitute).symbol name) := by
    intro name hname
    obtain ⟨symbol, hsymbol⟩ := Table.get?_eq_some_of_contains hname
    obtain ⟨d, hd⟩ := hbinds.exists_dim hcallee (Table.mem_of_get? hsymbol)
    have hsubst : (b.graph.relocation bound.substitute).symbol name = d := by
      simp [Graph.relocation, SymbolBinding.substitute, hd]
    rw [hsubst]
    exact (h.spliced.ext.dimValid (fun _ h => Graph.Available.lt hb.valid.entry h)
      (hbinds.hasDim hb hargs hd)).mono fun _ hid => hid.extend hb.valid h.spliced.ext
  have hgrown : b.Grown b' := ⟨h.eq, hb.valid, h.spliced.ext,
    h.spliced.valid hb.valid hcallee.valid hgiven h.all hsrc hsym fun _ => id⟩
  refine ⟨hgrown, fun id hid => ?_⟩
  rw [FunctionBuilder.Has, hgrown.entry_eq]
  exact h.spliced.available hb.valid hcallee.valid hgiven h.all hsrc hsym hid

/-- What a symbol of the callee is computed from holds a dimension of the caller. -/
theorem DimSource.spans {b' : FunctionBuilder} {d : Dim} {src : NodeId}
    (h : DimSource b b'.graph d src) : b'.graph.Spans sz b.symbols d src := by
  cases d with
  | const n =>
    obtain ⟨size, hsize, -, hkind⟩ := h
    have hint : b'.graph.IsInt src (Int64.ofInt n) := Graph.isInt_iff_kind.mpr ⟨size, hkind⟩
    rw [← ElemSize.toInt_of_ofInt? hsize]
    exact .const hint
  | sym name =>
    obtain ⟨symbol, hsymbol, rfl⟩ := h
    exact .sym hsymbol
  | node id =>
    obtain rfl : src = id := h
    exact .node src

/-- The scalar of a symbol of the callee holds the dimension that the symbol stands for. -/
theorem Inlined.spans {b' : FunctionBuilder} {copied : List (NodeId × NodeId)}
    (h : Inlined b callee args bound copied b') (hb : b.WellFormed sz)
    (hcallee : callee.WellFormed sz) {name : String} {symbol : ShapeSymbol}
    (hsymbol : callee.symbols.get? name = some symbol) :
    b'.graph.Spans sz b.symbols (bound.substitute name)
      ((b.graph.relocation bound.substitute).node symbol.node) := by
  have hmem := Table.mem_of_get? hsymbol
  obtain ⟨hin, hnodes, hdisjoint⟩ := List.nodup_append.mp hcallee.interface.nodup
  obtain ⟨p, hp, heq⟩ := List.mem_map.mp (h.all symbol.node (Or.inr ⟨_, hmem, rfl⟩))
  obtain ⟨o, hproducer, hop⟩ := h.spliced.copies p hp
  cases h.feeds p hp with
  | argument harg =>
    -- No parameter is the scalar of a symbol.
    exact absurd heq (hdisjoint _ (List.of_mem_zip harg).1 _
      (List.mem_map_of_mem (f := fun p => p.2.node) hmem))
  | @symbol name' symbol' d src hmem' hdim hsrc =>
    obtain ⟨rfl, rfl⟩ := Prod.mk.inj (List.inj_on_of_nodup_map hnodes hmem' hmem heq)
    have htype := (h.embeds hb hcallee).type (hcallee.valid.entry.lt (Or.inr ⟨_, hmem, rfl⟩))
    rw [hcallee.interface.symbolType _ hmem] at htype
    rw [SymbolBinding.substitute, hdim]
    exact .copy hproducer hop htype hsrc.spans

/-- The bodies and slices of an orderly callee come along, and the caller's graph stays orderly. -/
theorem Inlined.encloses {b' : FunctionBuilder} {copied : List (NodeId × NodeId)}
    (h : Inlined b callee args bound copied b') (hb : b.WellFormed sz)
    (hcallee : callee.WellFormed sz) (hbinds : Binds b callee args bound)
    (hargs : ∀ a ∈ args, b.Has a)
    (horderly : callee.graph.Orderly callee.entry sz callee.symbols) : b.Encloses sz b' := by
  have hgrown := (h.grown hb hcallee hbinds hargs).1
  intro he
  rw [hgrown.entry_eq, hgrown.symbols_eq]
  constructor
  · exact h.spliced.enclosed hb.valid hcallee.valid h.given h.all
      (fun p hp => (h.source hb hcallee hbinds hargs hp).1) (fun _ => id) hgrown.valid.entry
      he.enclosed horderly.enclosed
  · exact he.measured.spliced horderly.measured h.spliced (h.embeds hb hcallee).carries
      (h.spans hb hcallee) h.constants
  · exact he.combined.spliced horderly.combined h.spliced

end Call

/-! ## Calls -/

end BuildM

/-- A function of a numeric library has an operator with a neutral element. -/
def Reduction.Sound (f : Reduction) : Prop :=
  f.op = .add ∨ f.op = .mul ∨ f.op = .max ∨ f.op = .min

/-- What is provided for the calls of a function is well-formed, and orderly where that is asked for. -/
structure BuildContext.Sound (sz : ElemSize) (strict closed : Prop) (ctx : BuildContext) : Prop where
  size : ctx.options.indexSize = sz
  library : ∀ {name f}, ctx.library.functions.get? name = some f → f.Sound
  call : ∀ (id : String) (types : List KernelType) (span : Span) (cache : GraphCache),
    cache.Formed sz closed →
      (BuildM.runCall (ctx.call id types span) cache).2.Formed sz closed ∧
      ∀ f, (BuildM.runCall (ctx.call id types span) cache).1 = .ok f → f.Formed sz closed
  error : ∀ (id : String) (types : List KernelType) (span : Span) (cache : GraphCache),
    cache.Formed sz closed → ∀ err,
      (BuildM.runCall (ctx.call id types span) cache).1 = .error err → BuildM.Permitted strict err

namespace BuildM

variable {sz : ElemSize} {strict closed : Prop}

theorem builds_inlineCall {ctx : BuildContext} (hctx : ctx.Sound sz strict closed)
    {b : FunctionBuilder} (function : String) {args : List NodeId} (hargs : ∀ a ∈ args, b.Has a)
    (span : Span) :
    Builds sz strict closed (inlineCall ctx function args span) b fun id b' => b'.Has id := by
  intro hb
  refine meets_get_bind ?_
  refine Meets.bind (Q := fun callee b' => b' = b ∧ callee.Formed sz closed)
    (meets_lift (hctx.call function _ span) (hctx.error function _ span) fun _ h => ⟨rfl, h⟩)
    fun callee b₁ ⟨hsame, hformed⟩ => ?_
  subst hsame
  have hcallee := hformed.wellFormed
  refine meets_ite (fun _ => meets_fail (by rintro ⟨⟩)) fun hinline =>
    meets_ite (fun _ => meets_fail (by rintro ⟨⟩)) fun hcount => ?_
  refine Meets.bind (Q := fun bound b' => b' = b₁ ∧ Binds b₁ callee args bound)
    (meets_ofExcept (fun bound h => ⟨rfl, binds_of_bindParams (by simpa using hcount) h⟩)
      fun fault h => ?_) fun bound b₂ ⟨hsame, hbinds⟩ => ?_
  · rw [SymbolBinding.bindParams_error h]
    decide
  · subst hsame
    refine (meets_spliceCall hb.valid.coherent hcallee hbinds (hbinds.hasDim hb hargs)
      (hcallee.returned (by simpa using hinline)) function span).mono
      fun id b₃ ⟨copied, out, hinlined, hout, hid⟩ => ?_
    obtain ⟨hgrown, hhas⟩ := hinlined.grown hb hcallee hbinds hargs
    refine ⟨hgrown, fun hclosed => ?_, ?_⟩
    · exact hinlined.encloses hb hcallee hbinds hargs (hformed.orderly hclosed)
    · rw [hid]
      exact hhas out (hcallee.outputs out (List.mem_of_mem_head? hout))

end BuildM

end TensorKernel
