import TensorKernel.Proofs.Build.Registry
import TensorKernel.Proofs.Source.Statements

/-!
# Built functions return what execution returns

The parameters of a function introduce nodes for exactly what execution starts with: the arguments
in the types of the parameters, and the sizes of the axes with a symbol.  From there the statements
are built in step with their execution, so the graph of a function evaluates to the value that
executing the function returns (`FunctionDef.eval_build`).
-/

namespace TensorKernel

/-! ## Parameters -/

/-- A builder whose parameters have the given names and types. -/
structure FunctionBuilder.Declares (b : FunctionBuilder) (names : List String)
    (types : List KernelType) : Prop where
  params : b.params = .ofList b.inputs
  names : b.inputs.map Prod.fst = names
  types : b.inputs.map (fun p => b.graph.type p.2) = types
  lt : ∀ p ∈ b.inputs, p.2.index < b.graph.nodes.size

theorem FunctionBuilder.Declares.extend {b b' : FunctionBuilder} {names : List String}
    {types : List KernelType} (h : b.Declares names types) (hinputs : b'.inputs = b.inputs)
    (hparams : b'.params = b.params) (hext : b.graph.Extends b'.graph) :
    b'.Declares names types where
  params := by rw [hparams, hinputs, h.params]
  names := by rw [hinputs, h.names]
  types := by
    rw [hinputs, ← h.types]
    exact List.map_congr_left fun p hp => hext.type_eq (h.lt p hp)
  lt p hp := Nat.lt_of_lt_of_le (h.lt p (hinputs ▸ hp)) hext.nodes_le

namespace BuildM

open FunctionBuilder (Declares Preliminary)

variable {sz : ElemSize} {ctx : BuildContext} {b : FunctionBuilder}

/-- A parameter is declared with the type that execution gives it. -/
theorem yields_addParam (function : String) (param : Param) {given : Option KernelType}
    {ty : KernelType} (hty : Store.paramType param given = some ty) {names : List String}
    {types : List KernelType} (hb : b.Declares names types) :
    Yields (addParam ctx function param given) b fun _ b' =>
      b'.Declares (names ++ [param.id]) (types ++ [ty]) := by
  refine meets_get_bind (meets_ite (fun _ => yields_fail) fun _ => ?_)
  -- The type is the hint if there is one, and else the type that is given.
  have htype : Yields (paramType function param given) b fun ty' b' => ty' = ty ∧ b' = b := by
    unfold Store.paramType at hty
    unfold paramType
    split
    · next hint hhint =>
      rw [hhint] at hty
      exact yields_ofLocated fun ty' hty' =>
        ⟨Except.ok.inj (hty'.symm.trans (ok_of_toOption hty)), rfl⟩
    · next hhint =>
      rw [hhint] at hty
      exact meets_pure ⟨Option.some.inj hty, rfl⟩
    · exact yields_fail
  refine htype.bind fun ty' b₁ hsame => ?_
  obtain ⟨rfl, rfl⟩ := hsame
  obtain ⟨kind, hadd, hkind, -⟩ := b₁.graph.addOfType_eq_addNode (some param.id) ty'
  refine (meets_onGraph (Q := fun arg b' => arg = ⟨b₁.graph.nodes.size⟩ ∧
    b' = { b₁ with graph := (b₁.graph.addNode (some param.id) kind).2 }) ?_).bind
    fun arg b₂ hadded => ?_
  · rw [hadd]
    exact ⟨rfl, rfl⟩
  obtain ⟨rfl, rfl⟩ := hadded
  have hext : b₁.graph.Extends (b₁.graph.addNode (some param.id) kind).2 :=
    (Graph.Extends.refl _).addNode _ _
  have hnew : (b₁.graph.addNode (some param.id) kind).2.type ⟨b₁.graph.nodes.size⟩ = ty' := by
    simp only [Graph.type, Graph.addNode_node_self, hkind]
  refine (meets_modify (Q := fun _ b' => b'.Declares (names ++ [param.id]) (types ++ [ty'])) ?_).bind
    fun _ b₃ h₃ => (meets_addSymbols_same _ _ ty'.shape 0).mono fun _ b₄ hsame =>
      h₃.extend hsame.1 hsame.2.1 hsame.2.2
  refine ⟨?_, ?_, ?_, fun p hp => ?_⟩
  · show b₁.params.insert param.id ⟨b₁.graph.nodes.size⟩ =
      .ofList (b₁.inputs ++ [(param.id, ⟨b₁.graph.nodes.size⟩)])
    rw [Table.ofList, List.foldl_append, hb.params]
    rfl
  · simp [hb.names]
  · simp only [List.map_append, List.map_cons, List.map_nil, hnew, ← hb.types]
    exact congrArg (· ++ [ty']) (List.map_congr_left fun p hp => hext.type_eq (hb.lt p hp))
  · show p.2.index < (b₁.graph.addNode (some param.id) kind).2.nodes.size
    rw [Graph.addNode_nodes_size]
    rcases List.mem_append.mp hp with hp | hp
    · exact Nat.lt_succ_of_lt (hb.lt p hp)
    · rw [List.mem_singleton.mp hp]
      exact Nat.lt_succ_self _

/-- The parameters are declared with the types that execution gives them. -/
theorem yields_addParams (hsize : ctx.options.indexSize = sz) (function : String)
    (params : List Param) : ∀ {b : FunctionBuilder} {given types names : _} {before : List KernelType},
      Store.paramTypes params given = some types → (∀ ty ∈ types, ty.Closed) →
      Preliminary sz [] b → b.Declares names before →
      Yields (addParams ctx function params given) b fun _ b' =>
        Preliminary sz [] b' ∧ b'.Declares (names ++ params.map Param.id) (before ++ types) := by
  induction params with
  | nil =>
    intro b given types names before htypes _ hpre hb
    obtain rfl := Option.some.inj htypes
    exact meets_pure ⟨hpre, by simpa using hb⟩
  | cons param params ih =>
    intro b given types names before htypes hclosed hpre hb
    obtain ⟨ty, hty, htypes⟩ := Option.bind_eq_some_iff.mp htypes
    obtain ⟨rest, hrest, htypes⟩ := Option.bind_eq_some_iff.mp htypes
    obtain rfl := Option.some.inj htypes
    have hgiven : ∀ ty', param.hint = none → given.head? = some ty' → ty'.Closed := by
      intro ty' hhint hty'
      rw [Store.paramType, hhint, hty'] at hty
      obtain rfl := Option.some.inj hty
      exact hclosed ty' (List.mem_cons_self ..)
    have hstep : Yields (addParam ctx function param given.head?) b fun _ b' =>
        Preliminary sz [] b' ∧ b'.Declares (names ++ [param.id]) (before ++ [ty]) :=
      (meets_addParam hsize function param hgiven hpre).and (yields_addParam function param hty hb)
    refine hstep.bind fun _ b₁ ⟨hpre₁, hb₁⟩ => ?_
    refine (ih hrest (fun ty hty => hclosed ty (List.mem_cons_of_mem _ hty)) hpre₁ hb₁).mono
      fun _ b₂ h₂ => ?_
    simpa using h₂

/-- The graph of a function is the one that has been built. -/
theorem yields_finish (f : FunctionDef) :
    Yields (finish f) b fun g _ => g.graph = b.graph ∧ g.outputs = b.outputs ∧
      g.bindAll = (b.view []).bindAll :=
  meets_get_bind (meets_ite (fun _ => yields_fail) fun _ => meets_pure ⟨rfl, rfl, rfl⟩)

end BuildM

/-! ## Arguments -/

namespace Store

theorem rank_of_fits {ty : KernelType} {v : Value} (h : fits ty v = true) :
    ty.isScalar = v.isScalar ∧ ty.shape.length = v.shape.length := by
  cases v with
  | scalar v =>
    cases ty with
    | scalar size => exact ⟨rfl, rfl⟩
    | tensor size shape => cases h
  | tensor shape data =>
    simp only [fits, Bool.and_eq_true, Bool.not_eq_true', decide_eq_true_eq] at h
    exact ⟨h.1.1, h.1.2.symm⟩

/-- An argument that fits the type of a parameter is bound in this type. -/
theorem bindArgument_of_fits {g : Graph} {param : String} {id : NodeId} {v : Value}
    (h : fits (g.type id) v = true) :
    FunctionGraph.bindArgument g param id v = .ok (v.convert (g.elemSize id)) := by
  unfold FunctionGraph.bindArgument
  dsimp only
  cases v with
  | scalar v => exact if_pos h
  | tensor shape data =>
    simp only [fits, Bool.and_eq_true, Bool.not_eq_true', decide_eq_true_eq] at h
    obtain ⟨⟨hscalar, hrank⟩, hcount⟩ := h
    have hscalar' : (g.node id).isScalar = false := hscalar
    have hrank' : shape.length = (g.node id).shape.length := hrank
    have hfirst : ¬ ((g.node id).isScalar = true ∨ shape.length ≠ (g.node id).shape.length) := by
      simp [hscalar', hrank']
    exact (if_neg hfirst).trans (if_neg (not_not.mpr hcount))

theorem length_paramTypes {params : List Param} : ∀ {given types : List KernelType},
    paramTypes params given = some types → types.length = params.length := by
  induction params with
  | nil =>
    intro given types h
    rw [← Option.some.inj h]
    rfl
  | cons param params ih =>
    intro given types h
    obtain ⟨ty, _, h⟩ := Option.bind_eq_some_iff.mp h
    obtain ⟨rest, hrest, h⟩ := Option.bind_eq_some_iff.mp h
    rw [← Option.some.inj h, List.length_cons, ih hrest, List.length_cons]

/-- A size that is read off is that of an axis which has the symbol. -/
theorem mem_of_symbolSizes {name : String} {n : Nat} (axes : List (Dim × Nat)) :
    ∀ {sizes : Table String Nat}, (symbolSizes axes sizes).get? name = some n →
      sizes.get? name = some n ∨ (.sym name, n) ∈ axes := by
  induction axes with
  | nil => exact fun h => Or.inl h
  | cons axis rest ih =>
    intro sizes h
    obtain ⟨d, k⟩ := axis
    cases d with
    | const _ => exact (ih h).imp id (List.mem_cons_of_mem _)
    | node _ => exact (ih h).imp id (List.mem_cons_of_mem _)
    | sym other =>
      rcases ih h with h | h
      · split at h
        · exact Or.inl h
        · rw [Table.get?_insert] at h
          split at h
          · next hsame =>
            rw [hsame, Option.some.inj h]
            exact Or.inr (List.mem_cons_self ..)
          · exact Or.inl h
      · exact Or.inr (List.mem_cons_of_mem _ h)

end Store

/-- Tables of related pairs have related values. -/
theorem rel_ofList {α β : Type} {r : α → β → Prop} {xs : List (String × α)}
    {ys : List (String × β)} (h : List.Forall₂ (fun x y => x.1 = y.1 ∧ r x.2 y.2) xs ys)
    (key : String) : Option.Rel r ((Table.ofList xs).get? key) ((Table.ofList ys).get? key) := by
  have hfold : ∀ {t : Table String α} {t' : Table String β},
      Option.Rel r (t.get? key) (t'.get? key) →
      Option.Rel r ((xs.foldl (fun table pair => table.insert pair.1 pair.2) t).get? key)
        ((ys.foldl (fun table pair => table.insert pair.1 pair.2) t').get? key) := by
    induction h with
    | nil => exact fun h => h
    | cons hpair _ ih =>
      intro t t' h
      refine ih ?_
      rw [Table.get?_insert, Table.get?_insert, ← hpair.1]
      split
      · exact .some hpair.2
      · exact h
  exact hfold .none

/-! ## The start of a function -/

/-- What execution starts with. -/
structure Started (b : FunctionBuilder) (args : List Value) (s : Store) : Prop where
  length : b.inputs.length = args.length
  fits : ∀ p ∈ b.inputs.zip args, Store.fits (b.graph.type p.1.2) p.2 = true
  axes : ∀ p ∈ b.inputs.zip args, ∀ q ∈ (b.graph.shape p.1.2).zip p.2.shape,
    Store.hasSize s.sizes q = true
  sizes : ∀ {name n}, s.sizes.get? name = some n → ∃ p ∈ b.inputs.zip args,
    (.sym name, n) ∈ (b.graph.shape p.1.2).zip p.2.shape
  params : s.params = .ofList ((b.inputs.zip args).map fun p =>
    (p.1.1, ⟨b.graph.elemSize p.1.2, p.2.convert (b.graph.elemSize p.1.2)⟩))
  vars : s.vars = .empty

/-- Execution starts with the arguments in the types of the parameters that were declared. -/
theorem started_of_start {indexSize : ElemSize} {params : List Param} {given : List KernelType}
    {args : List Value} {s : Store} (h : Store.start indexSize params given args = some s) :
    ∃ types, Store.paramTypes params given = some types ∧ (∀ ty ∈ types, ty.Closed) ∧
      s.indexSize = indexSize ∧ ∀ b : FunctionBuilder, b.Declares (params.map Param.id) types →
        Started b args s := by
  obtain ⟨types, htypes, h⟩ := Option.bind_eq_some_iff.mp h
  simp only [Option.ite_none_right_eq_some, List.all_eq_true] at h
  obtain ⟨⟨hlength, hfits, haxes⟩, h⟩ := h
  obtain rfl := Option.some.inj h
  have hcount := Store.length_paramTypes htypes
  refine ⟨types, htypes, fun ty hty d hd id heq => ?_, rfl, fun b hb => ?_⟩
  · -- An axis whose size is computed has no size that a parameter could say.
    obtain ⟨i, hi, rfl⟩ := List.getElem_of_mem hty
    have hi' : i < args.length := by omega
    have hmem : (types[i], args[i]) ∈ types.zip args :=
      List.mem_iff_getElem.mpr ⟨i, by rw [List.length_zip]; omega, List.getElem_zip⟩
    have hrank : types[i].shape.length = args[i].shape.length :=
      (Store.rank_of_fits (hfits _ hmem)).2
    obtain ⟨j, hj, hd⟩ := List.getElem_of_mem hd
    have haxis : (d, args[i].shape[j]) ∈ types[i].shape.zip args[i].shape :=
      List.mem_iff_getElem.mpr ⟨j, by rw [List.length_zip]; omega, by rw [List.getElem_zip, hd]⟩
    have hsize := haxes _ (List.mem_flatMap.mpr ⟨_, hmem, haxis⟩)
    rw [heq] at hsize
    cases hsize
  · have hinputs : b.inputs.length = args.length := by
      rw [← hlength, ← List.length_map (f := Param.id), ← hb.names, List.length_map]
    have hzip : types.zip args = (b.inputs.zip args).map fun p => (b.graph.type p.1.2, p.2) := by
      rw [← hb.types, List.zip_map_left]
      rfl
    have haxis : ∀ q, q ∈ ((types.zip args).flatMap fun p => p.1.shape.zip p.2.shape) ↔
        ∃ p ∈ b.inputs.zip args, q ∈ (b.graph.shape p.1.2).zip p.2.shape := by
      intro q
      rw [hzip, List.flatMap_map, List.mem_flatMap]
      rfl
    refine ⟨hinputs, fun p hp => hfits (b.graph.type p.1.2, p.2) ?_,
      fun p hp q hq => haxes q ((haxis q).mpr ⟨p, hp, hq⟩),
      fun {name n} hsize => ?_, ?_, rfl⟩
    · rw [hzip]
      exact List.mem_map_of_mem hp
    · rcases Store.mem_of_symbolSizes _ hsize with h | h
      · cases h
      · exact (haxis _).mp h
    · have hnames : params.map Param.id = (b.inputs.zip args).map fun p => p.1.1 := by
        rw [← hb.names, ← congrArg (List.map Prod.fst) (List.map_fst_zip (Nat.le_of_eq hinputs)),
          List.map_map]
        rfl
      show Table.ofList _ = _
      rw [hnames, hzip, List.map_map, List.zip_map']
      rfl

/-- The arguments that execution starts with are bound. -/
theorem Started.exists_bindAll {sz : ElemSize} {b : FunctionBuilder} {args : List Value} {s : Store}
    (h : Started b args s) (hb : b.WellFormed sz) :
    ∃ given sizes, (b.view []).bindAll args = .ok (given, sizes) := by
  have hsized : ∀ p ∈ (b.view []).inputs.zip args,
      ∀ q ∈ ((b.view []).graph.shape p.1.2).zip p.2.shape,
        FunctionGraph.SizedBy (fun name => (s.sizes.get? name).getD 0) q.1 q.2 := by
    rintro p hp ⟨d, n⟩ hq
    have hsize := h.axes p hp (d, n) hq
    cases d with
    | const k => exact (of_decide_eq_true hsize : n = Dim.constSize k)
    | sym name =>
      have hname : s.sizes.get? name = some n := of_decide_eq_true hsize
      show n = (s.sizes.get? name).getD 0
      rw [hname]
      rfl
    | node id => trivial
  obtain ⟨given, sizes, hbound, -⟩ := FunctionGraph.exists_bindAll (hb.evaluable []) h.length
    (fun p hp => ⟨_, Store.bindArgument_of_fits (h.fits p hp)⟩) hsized
  exact ⟨given, sizes, hbound⟩

/-- A symbol that has a size when execution starts is one of the builder. -/
theorem Started.contains_symbol {sz : ElemSize} {b : FunctionBuilder} {args : List Value} {s : Store}
    (h : Started b args s) (hb : b.WellFormed sz) {name : String} {n : Nat}
    (hsize : s.sizes.get? name = some n) : b.symbols.contains name = true := by
  obtain ⟨p, hp, hq⟩ := h.sizes hsize
  have hgiven : b.entry.node p.1.2 := Or.inl (List.mem_map_of_mem (List.of_mem_zip hp).1)
  rcases hb.valid.entry.dims hgiven _ (List.of_mem_zip hq).1 with ⟨k, hk⟩ | ⟨other, hother, hhas⟩
  · cases hk
  · obtain rfl := Dim.sym.inj hother
    exact hhas

section

variable {sz : ElemSize} {b : FunctionBuilder} {args : List Value} {s : Store} {given : GivenValues}
  {sizes : Table String Nat} (h : Started b args s) (hb : b.WellFormed sz)
  (hbound : (b.view []).bindAll args = .ok (given, sizes))
include h hb hbound

/-- The node of a parameter is given the argument in the parameter's element type. -/
theorem Started.input : ∀ p ∈ b.inputs.zip args,
    given.get? p.1.2 = some (p.2.convert (b.graph.elemSize p.1.2)) := by
  have hadmits : (b.view []).Admits args given sizes :=
    FunctionGraph.admits_of_bindAll (hb.evaluable []).interface hbound
  intro p hp
  obtain ⟨v, hv, hget⟩ := hadmits.input p hp
  rw [hget, ← Except.ok.inj ((Store.bindArgument_of_fits (h.fits p hp)).symm.trans hv)]

/-- A symbol is the size of an axis of a parameter, and all its axes have one size. -/
theorem Started.symbol {name : String} {symbol : ShapeSymbol}
    (hsymbol : b.symbols.get? name = some symbol) : ∃ n, s.sizes.get? name = some n ∧
      given.get? symbol.node = some (FunctionGraph.sizeValue b.graph symbol.node n) := by
  have hadmits : (b.view []).Admits args given sizes :=
    FunctionGraph.admits_of_bindAll (hb.evaluable []).interface hbound
  have hentry := Table.mem_of_get? hsymbol
  obtain ⟨harg, haxis⟩ := hb.interface.symbolArg _ hentry
  obtain ⟨n, hn, -, hvalue⟩ := hadmits.symbol _ hentry
  obtain ⟨p, hp, hp'⟩ := FunctionGraph.exists_mem_zip (f := b.view []) h.length harg
  have hshape : p.2.shape[symbol.axis]? = some n := by
    have haxisSize : FunctionGraph.axisSize? given symbol = some n := hn
    rw [FunctionGraph.axisSize?, ← hp', h.input hb hbound p hp] at haxisSize
    simpa [Value.shape_convert] using haxisSize
  have hq : (.sym name, n) ∈ (b.graph.shape p.1.2).zip p.2.shape := by
    rw [hp']
    refine List.mem_iff_getElem?.mpr ⟨symbol.axis, ?_⟩
    rw [List.getElem?_zip_eq_some]
    exact ⟨haxis, hshape⟩
  exact ⟨n, of_decide_eq_true (h.axes p hp _ hq), hvalue⟩

/-- Before the first statement the symbols stand for the sizes that execution starts with. -/
theorem denotes_symbols_start (hsize : s.indexSize = sz) (name : String) :
    Option.Rel (Denotes given sizes b) ((b.symbols.get? name).map ShapeSymbol.node)
      ((s.sizes.get? name).map s.sizeValue) := by
  cases hsymbol : b.symbols.get? name with
  | none =>
    cases hknown : s.sizes.get? name with
    | none => exact .none
    | some n =>
      have hcontains := h.contains_symbol hb hknown
      rw [Table.contains, hsymbol] at hcontains
      cases hcontains
  | some symbol =>
    obtain ⟨n, hknown, hvalue⟩ := h.symbol hb hbound hsymbol
    have htype : b.graph.type symbol.node = .scalar sz :=
      hb.interface.symbolType _ (Table.mem_of_get? hsymbol)
    rw [hknown]
    refine .some ⟨FunctionBuilder.has_symbol hsymbol, ?_, Graph.isScalar_of_type htype, ?_, ?_⟩
    · exact (Graph.elemSize_of_type htype).trans hsize.symm
    · rw [Graph.shape_of_type htype]
      rfl
    · refine (meaning_of_given hvalue).trans ?_
      rw [FunctionGraph.sizeValue, Graph.elemSize_of_type htype, ← hsize]
      rfl

/-- Before the first statement the parameters stand for the arguments. -/
theorem denotes_params_start (hparams : b.params = .ofList b.inputs) (id : String) :
    Option.Rel (Denotes given sizes b) (b.params.get? id) (s.params.get? id) := by
  rw [hparams, h.params]
  refine rel_ofList ?_ id
  have hpairs : List.Forall₂ (fun (x : String × NodeId) (y : String × TypedValue) =>
      x.1 = y.1 ∧ Denotes given sizes b x.2 y.2) ((b.inputs.zip args).map Prod.fst)
      ((b.inputs.zip args).map fun p =>
        (p.1.1, ⟨b.graph.elemSize p.1.2, p.2.convert (b.graph.elemSize p.1.2)⟩)) := by
    rw [List.forall₂_map_left_iff, List.forall₂_map_right_iff, List.forall₂_same]
    intro p hp
    obtain ⟨hscalar, hrank⟩ := Store.rank_of_fits (h.fits p hp)
    refine ⟨rfl, FunctionBuilder.has_given (Or.inl (List.mem_map_of_mem (List.of_mem_zip hp).1)),
      rfl, ?_, ?_, meaning_of_given (h.input hb hbound p hp)⟩
    · rw [Value.isScalar_convert]
      exact hscalar
    · rw [Value.shape_convert]
      exact hrank
  rwa [List.map_fst_zip (Nat.le_of_eq h.length)] at hpairs

end

/-- Before the first statement the names of a builder stand for what execution starts with. -/
theorem represents_start {sz : ElemSize} {b : FunctionBuilder} {args : List Value} {s : Store}
    {result : ReturnHint} {given : GivenValues} {sizes : Table String Nat}
    (h : Started b args s) (hb : b.WellFormed sz) (hsize : s.indexSize = sz)
    (hbound : (b.view []).bindAll args = .ok (given, sizes)) (hplan : b.Plans result)
    (hparams : b.params = .ofList b.inputs) (hscalars : b.scalars = .empty)
    (htensors : b.tensors = .empty) : Represents sz ⟨result, args, given, sizes⟩ b s where
  wellFormed := hb
  bound := hbound
  plan := hplan
  vars id := by
    rw [FunctionBuilder.local?, hscalars, htensors, h.vars]
    exact .none
  symbols := denotes_symbols_start h hb hbound hsize
  params := denotes_params_start h hb hbound hparams
  disjoint id hid := by
    have hcontains : b.scalars.contains id = true := hid
    rw [hscalars] at hcontains
    cases hcontains

/-! ## Functions -/

/--
The graph of a function evaluates to what executing the function returns.  Execution goes through
the statements with a store of values; the graph has a node for every value and is evaluated from
its result backwards.
-/
theorem FunctionDef.eval_build (f : FunctionDef) (ctx : BuildContext) (types : List KernelType)
    (cache cache' : GraphCache) (g : FunctionGraph) (args : List Value) (v : Value)
    (hbuild : f.build ctx types cache = (.ok g, cache'))
    (hexecute : f.execute ctx.options.indexSize types args = some v) : g.eval args = .ok [v] := by
  obtain ⟨s, hstart, hrun⟩ := Option.bind_eq_some_iff.mp hexecute
  obtain ⟨paramTypes, htypes, hclosed, hsize, hstarted⟩ := started_of_start hstart
  have hfinished : BuildM.Yields (BuildM.function ctx f types) (.start f.id) fun g _ =>
      g.eval args = .ok [v] := by
    refine (BuildM.yields_addParams rfl f.id f.params htypes hclosed (.start f.id)
      ⟨rfl, rfl, rfl, nofun⟩).bind fun _ b₁ ⟨hpre, hdeclares⟩ => ?_
    refine (BuildM.meets_checkParamNames f.params).bind fun _ b₂ hsame => ?_
    subst hsame
    refine ((BuildM.meets_planReturn f.result hpre).and (BuildM.meets_planReturn_plans f.result)).bind
      fun _ b₃ ⟨⟨hb₃, _⟩, hplan, _, hinputs, hparams, _, hscalars, htensors, _, hext⟩ => ?_
    have hdeclares₃ := hdeclares.extend hinputs hparams hext
    have hs := hstarted b₃ hdeclares₃
    obtain ⟨given, sizes, hbound⟩ := hs.exists_bindAll hb₃
    have hrepresents := represents_start hs hb₃ hsize hbound hplan hdeclares₃.params
      (hscalars.trans hpre.scalars) (htensors.trans hpre.tensors)
    refine (BuildM.delivers_body f.body hrun hrepresents).bind fun _ b₄ hb₄ => ?_
    refine ((BuildM.meets_finish f hb₄.wellFormed False.elim).and (BuildM.yields_finish f)).mono
      fun g b' ⟨⟨hg, _⟩, hgraph, houtputs, hview⟩ => ?_
    -- The returned node denotes what execution returned, and it is the only output.
    obtain ⟨id, hid, hvalue⟩ := hb₄.output
    rw [hg.evaluable.eval_eq hg.outputs, hview, hb₄.bound]
    show g.outputs.mapM (meaning ⟨g.graph, sizes⟩ given) = _
    rw [houtputs, hid, hgraph, List.mapM_cons, hvalue]
    rfl
  have hresult := (hfinished cache trivial).2
  have heq := f.build_eq ctx types cache
  rw [show BuildM.runCall (f.build ctx types) cache = (.ok g, cache') from hbuild] at heq
  generalize BuildM.run (BuildM.function ctx f types) (.start f.id) cache = result at heq hresult
  obtain ⟨outcome, after⟩ := result
  cases outcome with
  | error err => cases heq
  | ok p =>
    obtain rfl := Except.ok.inj (Prod.mk.inj heq).1
    exact hresult

/-- A context in which there are no functions to call. -/
def BuildContext.alone (options : Options) : BuildContext where
  options := options
  library := .standard
  call id _ span cache := (.error ⟨.unknownFunction id, span⟩, cache)

/--
A kernel that copies its parameter, writes and updates elements of the copy, and returns a number
that depends on the copy, on the parameter and on the shape symbol.
-/
def shifted : FunctionDef :=
  let name (id : String) : Expr := .name id .nowhere
  let item (id : String) (i : Int) : Expr := .subscript (name id) (.int i .nowhere) .nowhere
  ⟨"shifted", [⟨"a", some (.subscript (name "int32") (name "N") .nowhere), .nowhere⟩,
      ⟨"k", some (name "int8"), .nowhere⟩], .type (name "int64"),
    [.assign (name "b") (name "a") .nowhere,
      .assign (item "b" 1) (.binary (name "k") .mul (name "N") .nowhere) .nowhere,
      .augmented (item "b" 0) .add (item "b" 1) .nowhere,
      .annotated (name "x") (name "int16") (some (item "b" 0)) .nowhere,
      .returns (some (.binary (name "x") .sub (item "a" 0) .nowhere)) .nowhere], .nowhere⟩

/-- The parameter and the variable are narrower than what is assigned to them. -/
theorem FunctionDef.eval_build_shifted :
    let ctx := BuildContext.alone .default
    let args := [.tensor [2] #[.int 70000, .int 6], .scalar (.int 300)]
    shifted.execute ctx.options.indexSize [] args = some (.scalar (.int (-65448))) ∧
      ∃ g, shifted.build ctx [] .empty = (.ok g, .empty) ∧
        g.eval args = .ok [.scalar (.int (-65448))] := by
  intro ctx args
  have hexecute : shifted.execute ctx.options.indexSize [] args =
      some (.scalar (.int (-65448))) := by decide +kernel
  have hbuilds : (BuildM.runCall (shifted.build ctx []) .empty).1.isOk = true ∧
      (BuildM.runCall (shifted.build ctx []) .empty).2 = .empty := by decide +kernel
  refine ⟨hexecute, ?_⟩
  have hbuild : shifted.build ctx [] .empty = BuildM.runCall (shifted.build ctx []) .empty := rfl
  generalize BuildM.runCall (shifted.build ctx []) .empty = result at hbuilds hbuild
  obtain ⟨outcome, cache⟩ := result
  cases outcome with
  | error err => cases hbuilds.1
  | ok g =>
    obtain rfl : cache = .empty := hbuilds.2
    exact ⟨g, hbuild, eval_build shifted ctx [] .empty .empty g args _ hbuild hexecute⟩

end TensorKernel
