import TensorKernel.Proofs.Build.Renaming

/-!
# Building functions with renamed variables

Statements bind variables.  What a variable is bound to is found under its new name as long as
different variables have different new names; that a variable is free to be assigned to is found as long
as no parameter and no shape symbol gets another name.
-/

namespace TensorKernel

/-- The shape symbols in a type. -/
def KernelType.symbols (ty : KernelType) : List String :=
  ty.shape.filterMap fun d =>
    match d with
    | .sym name => some name
    | _ => none

theorem KernelType.mem_symbols {ty : KernelType} {name : String} (h : Dim.sym name ∈ ty.shape) :
    name ∈ ty.symbols :=
  List.mem_filterMap.mpr ⟨_, h, rfl⟩

/-- A renaming of variables under which the names in a declaration of parameters stay. -/
structure FixesParams (ρ : String → String) (params : List Param) (types : List KernelType) :
    Prop where
  ids : ∀ p ∈ params, ρ p.id = p.id
  hints : ∀ p ∈ params, ∀ hint, p.hint = some hint → ∀ ty, TypeHint.type hint = .ok ty →
    ∀ name ∈ ty.symbols, ρ name = name
  types : ∀ p ∈ params.zip types, p.1.hint = none → ∀ name ∈ p.2.symbols, ρ name = name

namespace FunctionBuilder

variable {ρ : String → String} {b b' : FunctionBuilder}

/-- Bindings that are found under the new names stay so. -/
theorem get?_insert_rename {ι : Type} (hρ : Function.Injective ρ) {table table' : Table String ι}
    (h : ∀ id, table'.get? (ρ id) = table.get? id) (key : String) (value : ι) (id : String) :
    (table'.insert (ρ key) value).get? (ρ id) = (table.insert key value).get? id := by
  rw [Table.get?_insert, Table.get?_insert, h]
  simp only [hρ.eq_iff]

namespace Alike

theorem contains_params (h : b.Alike ρ b') (id : String) :
    b'.params.contains (ρ id) = b.params.contains id := by
  rw [Table.contains, Table.contains, h.params_eq, h.params]

theorem contains_symbols (h : b.Alike ρ b') (id : String) :
    b'.symbols.contains (ρ id) = b.symbols.contains id := by
  rw [Table.contains, Table.contains, h.symbols_eq, h.symbols]

theorem contains_scalars (h : b.Alike ρ b') (id : String) :
    b'.scalars.contains (ρ id) = b.scalars.contains id := by
  rw [Table.contains, Table.contains, h.scalars]

theorem unknownSymbol? (h : b.Alike ρ b') (ty : KernelType) :
    b'.unknownSymbol? ty = b.unknownSymbol? ty := by
  rw [FunctionBuilder.unknownSymbol?, FunctionBuilder.unknownSymbol?, h.symbols_eq]

theorem insertScalar (hρ : Function.Injective ρ) (h : b.Alike ρ b') (id : String) (node : NodeId) :
    { b with scalars := b.scalars.insert id node }.Alike ρ
      { b' with scalars := b'.scalars.insert (ρ id) node } := by
  obtain ⟨graph, scalars, tensors, rfl⟩ := h.exists_eq
  exact ⟨rfl, h.graph, get?_insert_rename hρ h.scalars id node, h.tensors, h.params, h.symbols⟩

theorem insertTensor (hρ : Function.Injective ρ) (h : b.Alike ρ b') (id : String) (node : NodeId) :
    { b with tensors := b.tensors.insert id node }.Alike ρ
      { b' with tensors := b'.tensors.insert (ρ id) node } := by
  obtain ⟨graph, scalars, tensors, rfl⟩ := h.exists_eq
  exact ⟨rfl, h.graph, h.scalars, get?_insert_rename hρ h.tensors id node, h.params, h.symbols⟩

theorem insertSymbol (hρ : Function.Injective ρ) (h : b.Alike ρ b') {id : String} (hid : ρ id = id)
    (symbol : ShapeSymbol) :
    { b with symbols := b.symbols.insert id symbol }.Alike ρ
      { b' with symbols := b'.symbols.insert id symbol } := by
  obtain ⟨graph, scalars, tensors, rfl⟩ := h.exists_eq
  refine ⟨rfl, h.graph, h.scalars, h.tensors, h.params, fun other => ?_⟩
  have hinsert := get?_insert_rename hρ h.symbols id symbol other
  rwa [hid] at hinsert

theorem insertParam (hρ : Function.Injective ρ) (h : b.Alike ρ b') {id : String} (hid : ρ id = id)
    (node : NodeId) :
    { b with params := b.params.insert id node, inputs := b.inputs ++ [(id, node)] }.Alike ρ
      { b' with params := b'.params.insert id node, inputs := b'.inputs ++ [(id, node)] } := by
  obtain ⟨graph, scalars, tensors, rfl⟩ := h.exists_eq
  refine ⟨rfl, h.graph, h.scalars, h.tensors, fun other => ?_, h.symbols⟩
  have hinsert := get?_insert_rename hρ h.params id node other
  rwa [hid] at hinsert

end Alike

theorem alike_start (ρ : String → String) (name : String) : (start name).Alike ρ (start name) :=
  ⟨rfl, .refl _, fun _ => rfl, fun _ => rfl, fun _ => rfl, fun _ => rfl⟩

end FunctionBuilder

namespace BuildM

open FunctionBuilder (Alike)

variable {ρ : String → String} {ctx ctx' : BuildContext}

/-! ## Assignments -/

/-- The names of further nodes of a variable may differ. -/
theorem matches_freshName (id id' : String) :
    Matches ρ (fun _ _ => True) (freshName id) (freshName id') := by
  refine fun b b' h => matchesAt_get_bind ?_
  refine (matchesAt_set ?_).bind fun _ _ _ => matches_pure trivial
  obtain ⟨graph, scalars, tensors, rfl⟩ := h.exists_eq
  exact ⟨rfl, h.graph, h.scalars, h.tensors, h.params, h.symbols⟩

theorem same_addOfType (name name' : Option String) (ty : KernelType) :
    Same ρ (onGraph fun g => g.addOfType name ty) (onGraph fun g => g.addOfType name' ty) :=
  same_onGraph fun _ _ h => h.addOfType name name' ty

theorem same_variableType (id id' : String) (hint previous : Option KernelType) (value : KernelType)
    (span : Span) :
    Same ρ (variableType id hint previous value span) (variableType id' hint previous value span) := by
  unfold variableType
  split
  · exact matches_ite Iff.rfl (same_pure _) (matches_fail _ _ _ _)
  · exact same_pure _
  · exact same_pure _
  · exact same_pure _

theorem same_bindLocal (hρ : Function.Injective ρ) (id : String) (ty : KernelType) (node : NodeId) :
    Same ρ (bindLocal id ty node) (bindLocal (ρ id) ty node) := by
  refine same_modify fun b b' h => ?_
  split
  · exact h.insertScalar hρ id node
  · exact h.insertTensor hρ id node

theorem same_assignName (hρ : Function.Injective ρ) (id : String) (value : NodeId)
    (hint : Option KernelType) (span : Span) :
    Same ρ (assignName id value hint span) (assignName (ρ id) value hint span) := by
  refine matches_get_bind fun b b' h => ?_
  have htype : b'.graph.type = b.graph.type := funext h.type
  simp only [h.contains_params, h.contains_symbols, htype, h.local?]
  refine matches_ite Iff.rfl (matches_fail _ _ _ _) <| matches_ite Iff.rfl (matches_fail _ _ _ _) ?_
  refine (same_variableType _ _ _ _ _ _).bind fun ty => ?_
  refine matches_ite Iff.rfl (matches_fail _ _ _ _) ?_
  have hbind (name name' : String) (kind : OpKind) :
      Same ρ (do
        let dst ← onGraph fun g => g.addOfType (some name) ty
        let _ ← onGraph fun g => g.addOp kind [value] [dst]
        bindLocal id ty dst) (do
        let dst ← onGraph fun g => g.addOfType (some name') ty
        let _ ← onGraph fun g => g.addOp kind [value] [dst]
        bindLocal (ρ id) ty dst) :=
    (same_addOfType _ _ _).bind fun dst => (same_addOp _ _ _).bind fun _ => same_bindLocal hρ _ _ _
  exact matches_ite Iff.rfl ((matches_freshName _ _).bind fun name name' _ => hbind name name' _)
    ((matches_pure (R := fun _ _ => True) trivial).bind fun name name' _ => hbind name name' _)

theorem elements_rename (ρ : String → String) (index : Expr) :
    TypeHint.elements (index.rename ρ) = Expr.renames ρ (TypeHint.elements index) := by
  cases index <;> rfl

theorem same_targetIndices (hctx : ctx.Alike ctx') (index : Expr) (target : NodeId) (span : Span) :
    Same ρ (targetIndices ctx index target span) (targetIndices ctx' (index.rename ρ) target span) := by
  have hlength : (Expr.renames ρ (TypeHint.elements index)).length = (TypeHint.elements index).length := by
    rw [Expr.renames_eq_map, List.length_map]
  simp only [targetIndices, elements_rename, hlength]
  exact (same_indexedAxes _ _ _).bind fun axes =>
    same_axisIndices (renamesAll hctx (TypeHint.elements index)) axes span

theorem same_elementTarget (id : String) (span : Span) :
    Same ρ (elementTarget id span) (elementTarget (ρ id) span) := by
  refine matches_get_bind fun b b' h => ?_
  simp only [h.contains_params, h.tensors, h.contains_scalars]
  refine matches_ite Iff.rfl (matches_fail _ _ _ _) ?_
  split
  · exact same_pure _
  · exact matches_ite Iff.rfl (matches_fail _ _ _ _) (matches_fail _ _ _ _)

theorem same_assignElement (hρ : Function.Injective ρ) (hctx : ctx.Alike ctx') (target index : Expr)
    (value : NodeId) (span : Span) :
    Same ρ (assignElement ctx target index value span)
      (assignElement ctx' (target.rename ρ) (index.rename ρ) value span) := by
  cases target with
  | name id =>
    refine (same_elementTarget id span).bind fun tensor => matches_get_bind fun b b' h => ?_
    simp only [h.type]
    refine (same_targetIndices hctx index tensor span).bind fun choices => ?_
    split
    · refine matches_ite Iff.rfl (matches_fail _ _ _ _) (matches_get_bind fun c c' hc => ?_)
      simp only [hc.graph.isScalar]
      refine matches_ite Iff.rfl (matches_fail _ _ _ _) ?_
      exact (matches_freshName _ _).bind fun name name' _ => (same_addOfType _ _ _).bind fun dst =>
        (same_addOp _ _ _).bind fun _ => same_modify fun _ _ h => h.insertTensor hρ id dst
    · exact matches_fail _ _ _ _
  | _ => exact matches_fail _ _ _ _

theorem same_assign (hρ : Function.Injective ρ) (hctx : ctx.Alike ctx') (target value : Expr)
    (span : Span) :
    Same ρ (assign ctx target value span) (assign ctx' (target.rename ρ) (value.rename ρ) span) := by
  cases target with
  | name id => exact (same_expr hctx value).bind fun _ => same_assignName hρ _ _ _ _
  | subscript tensor index =>
    exact (same_expr hctx value).bind fun _ => same_assignElement hρ hctx _ _ _ _
  | _ => exact matches_fail _ _ _ _

theorem same_assignHinted (hρ : Function.Injective ρ) (hctx : ctx.Alike ctx') (target hint : Expr)
    (value : Option Expr) (span : Span) :
    Same ρ (assignHinted ctx target hint value span)
      (assignHinted ctx' (target.rename ρ) hint (value.map (Expr.rename ρ)) span) := by
  cases target with
  | name id =>
    cases value with
    | none => exact matches_fail _ _ _ _
    | some value =>
      refine (same_ofLocated _).bind fun ty => matches_get_bind fun b b' h => ?_
      simp only [h.unknownSymbol?]
      split
      · exact matches_fail _ _ _ _
      · exact (same_expr hctx value).bind fun _ => same_assignName hρ _ _ _ _
  | _ => cases value <;> exact matches_fail _ _ _ _

/-! ## Other statements -/

theorem same_returnNode (node : NodeId) (span : Span) :
    Same ρ (returnNode node span) (returnNode node span) := by
  refine fun b b' h => matchesAt_get_bind ?_
  have hplan : b'.returnPlan = b.returnPlan := by rw [h.eq]
  simp only [h.type, hplan]
  cases b.returnPlan with
  | static declared dst =>
    refine matches_ite Iff.rfl (matches_fail _ _ _ _) ?_ b b' h
    refine (same_addOp _ _ _).bind fun _ => same_modify fun c c' hc => ?_
    obtain ⟨graph, scalars, tensors, rfl⟩ := hc.exists_eq
    exact ⟨rfl, hc.graph, hc.scalars, hc.tensors, hc.params, hc.symbols⟩
  | void | template | dynamic =>
    obtain ⟨graph, scalars, tensors, rfl⟩ := h.exists_eq
    exact matchesAt_set ⟨rfl, h.graph, h.scalars, h.tensors, h.params, h.symbols⟩

theorem same_returns (hctx : ctx.Alike ctx') (value : Option Expr) (span : Span) :
    Same ρ (returns ctx value span) (returns ctx' (value.map (Expr.rename ρ)) span) := by
  have hreturned : Same ρ (modify fun b => { b with returned := true } : BuildM PUnit)
      (modify fun b => { b with returned := true }) := by
    refine same_modify fun b b' h => ?_
    obtain ⟨graph, scalars, tensors, rfl⟩ := h.exists_eq
    exact ⟨rfl, h.graph, h.scalars, h.tensors, h.params, h.symbols⟩
  refine hreturned.bind fun _ => matches_get_bind fun b b' h => ?_
  obtain ⟨graph, scalars, tensors, rfl⟩ := h.exists_eq
  cases value with
  | none =>
    cases b.returnPlan with
    | void => exact same_pure _
    | _ => exact matches_fail _ _ _ _
  | some e =>
    have hvalue := (same_expr (ρ := ρ) hctx e).bind fun node => same_returnNode node span
    cases b.returnPlan with
    | void => exact matches_fail _ _ _ _
    | _ => exact hvalue

/-- Building a statement matches building it with its variables renamed. -/
theorem same_stmt (hρ : Function.Injective ρ) (hctx : ctx.Alike ctx') (s : Stmt) :
    Same ρ (stmt ctx s) (stmt ctx' (s.rename ρ)) := by
  cases s with
  | assign target value => exact same_assign hρ hctx _ _ _
  | annotated target hint value => exact same_assignHinted hρ hctx _ _ _ _
  | augmented target op value span => exact same_assign hρ hctx target (.binary target op value span) _
  | returns value => exact same_returns hctx _ _
  | expr value =>
    cases value with
    | call func args keywords span =>
      exact (same_expr hctx (.call func args keywords span)).bind fun _ => same_pure _
    | string => exact same_pure _
    | _ => exact matches_fail _ _ _ _
  | pass => exact same_pure _
  | delete | conditional | loop | unsupported => exact matches_fail _ _ _ _

theorem same_body (hρ : Function.Injective ρ) (hctx : ctx.Alike ctx') (stmts : List Stmt) :
    Same ρ (body ctx stmts) (body ctx' (stmts.map (Stmt.rename ρ))) := by
  induction stmts with
  | nil => exact same_pure _
  | cons s rest ih =>
    refine matches_get_bind fun b b' h => ?_
    obtain ⟨graph, scalars, tensors, rfl⟩ := h.exists_eq
    exact matches_ite Iff.rfl (matches_fail _ _ _ _) ((same_stmt hρ hctx s).bind fun _ => ih)

/-! ## Parameters and results -/

theorem same_addSymbols (hρ : Function.Injective ρ) (indexSize : ElemSize) (arg : NodeId)
    (axes : Shape) : ∀ axis, (∀ name, Dim.sym name ∈ axes → ρ name = name) →
      Same ρ (addSymbols indexSize arg axis axes) (addSymbols indexSize arg axis axes) := by
  induction axes with
  | nil => exact fun _ _ => same_pure _
  | cons d rest ih =>
    intro axis hfixed
    have hrest := ih (axis + 1) fun name hname => hfixed name (List.mem_cons_of_mem _ hname)
    cases d with
    | const n => exact hrest
    | node id => exact hrest
    | sym name =>
      refine matches_get_bind fun b b' h => ?_
      simp only [h.symbols_eq]
      refine matches_ite Iff.rfl hrest ?_
      exact (same_onGraph fun _ _ hg => hg.addNode _ _ _).bind fun node =>
        (same_modify fun _ _ hc => hc.insertSymbol hρ (hfixed name List.mem_cons_self) _).bind
          fun _ => hrest

/-- The type of a parameter has symbols that keep their names. -/
theorem matches_paramType (function : String) {param : Param} {given : Option KernelType}
    (hhint : ∀ hint, param.hint = some hint → ∀ ty, TypeHint.type hint = .ok ty →
      ∀ name ∈ ty.symbols, ρ name = name)
    (hgiven : param.hint = none → ∀ ty ∈ given, ∀ name ∈ ty.symbols, ρ name = name) :
    Matches ρ (fun ty ty' => ty = ty' ∧ ∀ name ∈ ty.symbols, ρ name = name)
      (paramType function param given) (paramType function param given) := by
  unfold paramType
  cases hparam : param.hint with
  | some hint =>
    show Matches ρ _ (ofLocated (TypeHint.type hint)) (ofLocated (TypeHint.type hint))
    cases htype : TypeHint.type hint with
    | ok ty => exact matches_pure ⟨rfl, hhint hint hparam ty htype⟩
    | error err => exact matches_throw _ _
  | none =>
    cases given with
    | some ty => exact matches_pure ⟨rfl, hgiven hparam ty rfl⟩
    | none => exact matches_fail _ _ _ _

theorem same_addParam (hρ : Function.Injective ρ) (hctx : ctx.Alike ctx') (function : String)
    {param : Param} {given : Option KernelType} (hid : ρ param.id = param.id)
    (hhint : ∀ hint, param.hint = some hint → ∀ ty, TypeHint.type hint = .ok ty →
      ∀ name ∈ ty.symbols, ρ name = name)
    (hgiven : param.hint = none → ∀ ty ∈ given, ∀ name ∈ ty.symbols, ρ name = name) :
    Same ρ (addParam ctx function param given) (addParam ctx' function param given) := by
  refine matches_get_bind fun b b' h => ?_
  rw [h.params_eq]
  refine matches_ite Iff.rfl (matches_fail _ _ _ _) ?_
  refine (matches_paramType function hhint hgiven).bind fun ty ty' ⟨heq, hfixed⟩ => ?_
  subst heq
  refine (same_addOfType _ _ _).bind fun arg => ?_
  refine (same_modify fun _ _ hc => hc.insertParam hρ hid arg).bind fun _ => ?_
  rw [hctx.options]
  exact same_addSymbols hρ _ _ _ _ fun name hname => hfixed name (KernelType.mem_symbols hname)

theorem same_addParams (hρ : Function.Injective ρ) (hctx : ctx.Alike ctx') (function : String)
    (params : List Param) : ∀ types, FixesParams ρ params types →
      Same ρ (addParams ctx function params types) (addParams ctx' function params types) := by
  induction params with
  | nil => exact fun _ _ => same_pure _
  | cons param params ih =>
    intro types hfixes
    have hrest : FixesParams ρ params types.tail := by
      refine ⟨fun p hp => hfixes.ids p (List.mem_cons_of_mem _ hp),
        fun p hp => hfixes.hints p (List.mem_cons_of_mem _ hp), fun p hp => ?_⟩
      cases types with
      | nil => simp at hp
      | cons ty types => exact hfixes.types p (List.mem_cons_of_mem _ hp)
    refine (same_addParam hρ hctx function (hfixes.ids param List.mem_cons_self)
      (hfixes.hints param List.mem_cons_self) fun hnone ty hty => ?_).bind fun _ => ih _ hrest
    cases types with
    | nil => cases hty
    | cons first types =>
      obtain rfl := Option.some.inj hty
      exact hfixes.types (param, first) List.mem_cons_self hnone

theorem same_checkParamNames (params : List Param) :
    Same ρ (checkParamNames params) (checkParamNames params) := by
  refine matches_get_bind fun b b' h => ?_
  simp only [h.symbols_eq]
  split
  · exact matches_fail _ _ _ _
  · exact same_pure _

theorem same_planReturn (result : ReturnHint) : Same ρ (planReturn result) (planReturn result) := by
  have hplan (plan : ReturnPlan) (type : FunctionBuilder → Option KernelType)
      (htype : ∀ b b' : FunctionBuilder, b.Alike ρ b' → type b' = type b) :
      Same ρ (modify fun b => { b with returnPlan := plan, returnType := type b } : BuildM PUnit)
        (modify fun b => { b with returnPlan := plan, returnType := type b }) := by
    refine same_modify fun b b' h => ?_
    have hsame := htype b b' h
    obtain ⟨graph, scalars, tensors, rfl⟩ := h.exists_eq
    exact ⟨by simp only [hsame], h.graph, h.scalars, h.tensors, h.params, h.symbols⟩
  have hkept (b b' : FunctionBuilder) (h : b.Alike ρ b') : b'.returnType = b.returnType := by rw [h.eq]
  cases result with
  | void => exact hplan .void _ hkept
  | missing => exact hplan .template _ hkept
  | type hint =>
    refine (same_ofLocated _).bind fun ty => fun b b' h => matchesAt_get_bind ?_
    rw [h.unknownSymbol?]
    split
    · refine matchesAt_set ?_
      obtain ⟨graph, scalars, tensors, rfl⟩ := h.exists_eq
      exact ⟨rfl, h.graph, h.scalars, h.tensors, h.params, h.symbols⟩
    · exact ((same_addOfType none none ty).bind fun node =>
        hplan (.static ty node) (fun _ => some ty) fun _ _ _ => rfl) b b' h

theorem matches_finish (f : FunctionDef) (ρ' : String → String) :
    Matches ρ FunctionGraph.Alike (finish f) (finish (f.rename ρ')) := by
  refine matches_get_bind fun b b' h => ?_
  obtain ⟨graph, scalars, tensors, rfl⟩ := h.exists_eq
  refine matches_ite Iff.rfl (matches_fail _ _ _ _) (matches_pure ?_)
  have hgraph : b.graph.unnamed = graph.unnamed := h.graph
  simp only [FunctionGraph.Alike, FunctionGraph.unnamed, hgraph]

/-- Building a function matches building it with the variables of its body renamed. -/
theorem matches_function (hρ : Function.Injective ρ) (hctx : ctx.Alike ctx') {f : FunctionDef}
    {types : List KernelType} (hfixes : FixesParams ρ f.params types) :
    Matches ρ FunctionGraph.Alike (function ctx f types) (function ctx' (f.rename ρ) types) :=
  (same_addParams hρ hctx f.id f.params types hfixes).bind fun _ =>
    (same_checkParamNames f.params).bind fun _ => (same_planReturn f.result).bind fun _ =>
      (same_body hρ hctx f.body).bind fun _ => matches_finish f ρ

end BuildM

/-- The graph of a function is built alike with the variables of its body renamed. -/
theorem FunctionDef.build_rename {ρ : String → String} (hρ : Function.Injective ρ)
    {ctx ctx' : BuildContext} (hctx : ctx.Alike ctx') {f : FunctionDef} {types : List KernelType}
    (hfixes : FixesParams ρ f.params types) :
    AnswersAlike (f.build ctx types) ((f.rename ρ).build ctx' types) := by
  intro cache cache' hcache
  rw [f.build_eq, (f.rename ρ).build_eq]
  obtain ⟨hafter, hresult⟩ := BuildM.matches_function hρ hctx hfixes _ _
    (FunctionBuilder.alike_start ρ f.id) cache cache' hcache
  exact ⟨hafter, hresult.map fun _ _ h => h.1⟩

end TensorKernel
