import TensorKernel.Proofs.Broadcast
import TensorKernel.Proofs.NameTables
import TensorKernel.Proofs.TemplateKeys

/-!
# Shared dimensions of template arguments

Parameters of a template that are not annotated take the types of their arguments, and a dimension
that is shared in the caller is one symbol in all of them.  So they may be combined element by
element, anywhere in the body, if the arguments may.

An annotated parameter has the type that is written, which knows nothing of a call.
-/

namespace TensorKernel

open Relation (ReflTransGen)

/-! ## Registries while functions are built -/

namespace Registry

/-- What may be called next: anything, or what is called by the function being built. -/
def Admits (r : Registry) (id : String) : Prop :=
  ∀ caller ∈ r.active.head?, Calls r.functions caller id

/-- The registries of a module at any time, between its calls and while functions are being built. -/
inductive Arises (library : NumericLibrary) (options : Options) (functions : Table String FunctionDef) :
    Registry → Prop
  | fresh : Arises library options functions (fresh functions)
  | answered {r : Registry} {id : String} (h : Arises library options functions r)
    (hadmits : r.Admits id) (given : List KernelType) (span : Span) :
    Arises library options functions (r.instantiate library options id given span).2
  | entered {r : Registry} {id : String} (h : Arises library options functions r)
    (hadmits : r.Admits id) : Arises library options functions (r.enter id r.cache)

variable {library : NumericLibrary} {options : Options} {functions : Table String FunctionDef}
  {r : Registry} {id : String} {f : FunctionDef} {given : List KernelType} {span : Span}

/-- Whatever is cached at any time is what a registry that has built nothing answers. -/
theorem Arises.faithful (hplain : PlainNames functions) (h : Arises library options functions r) :
    r.functions = functions ∧ r.cache.Faithful library options functions ∧
      ∀ id, r.Admits id → Chained functions r id := by
  induction h with
  | fresh => exact ⟨rfl, nofun, fun _ _ => nofun⟩
  | @answered r id _ hadmits given span ih =>
    -- An answer changes the cache only, so the same functions call what comes next.
    obtain ⟨hr, hcache, hchained⟩ := ih
    obtain ⟨hfunctions, hactive⟩ := (r.answers_instantiate library options id given span).same
    refine ⟨hfunctions.trans hr, ?_, fun other hother => ?_⟩
    · exact instantiate_faithful hplain r hr hcache id (hchained id hadmits) given span
    · rw [Admits, hfunctions, hactive] at hother
      rw [Chained, hactive]
      exact hchained other hother
  | @entered r id _ hadmits ih =>
    obtain ⟨hr, hcache, hchained⟩ := ih
    refine ⟨hr, hcache, fun callee hcallee => ?_⟩
    have hstep : Calls functions id callee := hr ▸ hcallee id rfl
    exact (hchained id hadmits).enter hstep r.cache

/-- The graph of a call was built, now or before, for the types that the call gives the parameters. -/
theorem exists_build_of_instantiate (hplain : PlainNames functions)
    (h : Arises library options functions r) (hf : functions.get? id = some f)
    {types : Option (List KernelType)} (htypes : paramTypes f given span = .ok types)
    {g : FunctionGraph} (hg : (r.instantiate library options id given span).1 = .ok g) :
    ∃ ctx cache after, BuildM.runCall (f.build ctx (types.getD [])) cache = (.ok g, after) := by
  obtain ⟨hr, hcache, -⟩ := h.faithful hplain
  have hbuilt {r : Registry} (hbuild : (r.buildWith library options id f types).1 = .ok g) :
      ∃ ctx cache after, BuildM.runCall (f.build ctx (types.getD [])) cache = (.ok g, after) :=
    ⟨_, _, _, Prod.ext hbuild rfl⟩
  cases hfound : r.cache.get? (cacheKey id types) with
  | some g' =>
    -- What is cached was built by a registry that had built nothing else, maybe in another context.
    rw [instantiate_cached (hr ▸ hf) htypes hfound] at hg
    obtain rfl := Except.ok.inj hg
    have hanswer := (freshAnswer_of_cached hplain hcache hf htypes hfound).2
    exact hbuilt ((freshAnswer_eq hf htypes).symm.trans hanswer)
  | none =>
    rw [instantiate_missed (hr ▸ hf) htypes hfound] at hg
    split at hg
    · cases hg
    · exact hbuilt hg

end Registry

/-! ## Types of parameters -/

/-- The types of the parameters of a function. -/
def FunctionGraph.inputTypes (g : FunctionGraph) : List KernelType :=
  g.inputs.map fun p => g.graph.type p.2

/-- Each parameter takes its type from what is written about it, or from the argument in its place. -/
theorem Store.getElem?_paramTypes {params : List Param} :
    ∀ {given types : List KernelType} {i : Nat} {p : Param}, paramTypes params given = some types →
      params[i]? = some p → types[i]? = paramType p given[i]? := by
  induction params with
  | nil => exact fun _ hp => by cases hp
  | cons param params ih =>
    intro given types i p htypes hp
    obtain ⟨ty, hty, htypes⟩ := Option.bind_eq_some_iff.mp htypes
    obtain ⟨rest, hrest, htypes⟩ := Option.bind_eq_some_iff.mp htypes
    obtain rfl := Option.some.inj htypes
    cases i with
    | zero =>
      obtain rfl := Option.some.inj hp
      rw [List.getElem?_cons_zero, ← hty, List.head?_eq_getElem?]
    | succ i =>
      rw [List.getElem?_cons_succ, ih hrest hp, List.getElem?_tail]

/-- A parameter that is annotated has the type that is written. -/
theorem Store.exists_hinted {params : List Param} {given types : List KernelType}
    (htypes : paramTypes params given = some types) {i : Nat} {p : Param} (hp : params[i]? = some p)
    {hint : Expr} (hhint : p.hint = some hint) :
    ∃ ty, TypeHint.type hint = .ok ty ∧ types[i]? = some ty := by
  have hlt : i < types.length := length_paramTypes htypes ▸ (List.getElem?_eq_some_iff.mp hp).1
  have hty := getElem?_paramTypes htypes hp
  rw [paramType, hhint, List.getElem?_eq_getElem hlt] at hty
  exact ⟨types[i], ok_of_toOption hty.symm, List.getElem?_eq_getElem hlt⟩

/-- A parameter that is not annotated, and the type of the argument in its place. -/
structure FunctionDef.Infers (f : FunctionDef) (given : List KernelType) (i : Nat) (p : Param)
    (ty : KernelType) : Prop where
  param : f.params[i]? = some p
  hint : p.hint = none
  arg : given[i]? = some ty

section Templates

variable {f : FunctionDef} {given types : List KernelType} {i : Nat} {p : Param} {ty : KernelType}
  (htypes : Store.paramTypes f.params (generalizeTypes (f.params.map Param.id) given) = some types)
  (hlength : given.length = f.params.length)
include htypes hlength

/-- A parameter without annotation has the type of its argument, with symbols for its dimensions. -/
theorem FunctionDef.Infers.getElem?_types (h : f.Infers given i p ty) :
    types[i]? = some (ty.rename (callReplacement (f.params.map Param.id) given)) := by
  rw [Store.getElem?_paramTypes htypes h.param, Store.paramType, h.hint,
    generalizeTypes_eq (hlength.trans (List.length_map ..).symm), List.getElem?_map, h.arg]
  rfl

theorem FunctionDef.Infers.dimAt_types (h : f.Infers given i p ty) {axis : Nat} {d : Dim}
    (hd : ty.shape[axis]? = some d) :
    dimAt types i axis = some (d.rename (callReplacement (f.params.map Param.id) given)) := by
  rw [dimAt, h.getElem?_types htypes hlength, Option.bind_some, KernelType.shape_rename,
    List.getElem?_map, hd]
  rfl

end Templates

/-! ## Combined parameters -/

namespace FunctionBuilder

variable {ctx : BuildContext} {b₀ b : FunctionBuilder}

/-- The parameters that a builder declares are found by their names. -/
theorem Declares.exists_get? {params : List Param} {types : List KernelType}
    (h : b.Declares (params.map Param.id) types) (hnamed : b.Named) {i : Nat} {p : Param}
    (hp : params[i]? = some p) {ty : KernelType} (hty : types[i]? = some ty) :
    ∃ node, b.params.get? p.id = some node ∧ node.index < b.graph.nodes.size ∧
      b.graph.type node = ty := by
  have hname : (b.inputs.map Prod.fst)[i]? = some p.id := by rw [h.names, List.getElem?_map, hp]; rfl
  rw [← h.types, List.getElem?_map] at hty
  rw [List.getElem?_map] at hname
  obtain ⟨entry, hentry, hid⟩ := Option.map_eq_some_iff.mp hname
  rw [hentry] at hty
  have hmem := List.mem_of_getElem? hentry
  refine ⟨entry.2, ?_, h.lt entry hmem, Option.some.inj hty⟩
  rw [h.params]
  exact Table.get?_ofList_of_mem hnamed.nodup (hid ▸ hmem)

/-- The name of a parameter stands for the same node, of the same type, however a body goes on. -/
theorem Separate.resolve?_param (h : b₀.Separate) (hsteps : ReflTransGen (Step ctx) b₀ b) {id : String}
    {node : NodeId} (hnode : b₀.params.get? id = some node) (hlt : node.index < b₀.graph.nodes.size) :
    b.resolve? id = some node ∧ b.graph.type node = b₀.graph.type node := by
  obtain ⟨hseparate, hprecedes⟩ := h.steps hsteps
  refine ⟨hseparate.resolve?_eq ?_, hprecedes.graph.type_eq hlt⟩
  simp [lookups, hprecedes.params, hnode]

end FunctionBuilder

namespace BuildM

variable {ctx : BuildContext} {b : FunctionBuilder}

theorem run_get_bind {α : Type} (f : FunctionBuilder → BuildM α) (b : FunctionBuilder)
    (cache : GraphCache) : run (get >>= f) b cache = run (f b) b cache := rfl

theorem run_expr_name {id : String} {node : NodeId} (h : b.resolve? id = some node) (span : Span)
    (cache : GraphCache) : run (expr ctx (.name id span)) b cache = (.ok (node, b), cache) := by
  rw [expr, run_get_bind]
  simp only [h]
  rfl

/-- Types of one shape have a result shape, whichever of them are scalars. -/
theorem exists_resultShape (op : BinOp) {l r : KernelType} (hshape : l.shape = r.shape) (span : Span) :
    ∃ shape, resultShape op l r span = pure shape := by
  have hbroadcasts : (Shape.broadcast? l.shape r.shape).isSome = true := by
    rw [hshape, Shape.broadcast?_isSome, Shape.compatible_iff]
    exact fun axis => Dim.compatible_iff.mpr fun _ => .inl rfl
  obtain ⟨shape, hsome⟩ := Option.isSome_iff_exists.mp hbroadcasts
  rw [resultShape, hsome]
  split
  · exact ⟨none, rfl⟩
  · exact ⟨some shape, rfl⟩

/-- Nodes of one shape are combined by every operator that accepts their elements. -/
theorem exists_run_applyBinary {op : BinOp} {lhs rhs : NodeId}
    (hshape : b.graph.shape lhs = b.graph.shape rhs)
    (hbits : op.isBitwise = true → (b.graph.elemSize lhs).isFloatingPoint = false ∧
      (b.graph.elemSize rhs).isFloatingPoint = false) (span : Span) (cache : GraphCache) :
    ∃ result, run (applyBinary op lhs rhs span) b cache = (.ok result, cache) := by
  obtain ⟨shape, hcombines⟩ :=
    exists_resultShape op (l := b.graph.type lhs) (r := b.graph.type rhs) hshape span
  have haccepts : ¬(op.isBitwise && ((b.graph.type lhs).elemSize.isFloatingPoint ||
      (b.graph.type rhs).elemSize.isFloatingPoint)) = true := by
    rw [Bool.and_eq_true, Bool.or_eq_true]
    rintro ⟨hop, hfloat | hfloat⟩
    · exact Bool.false_ne_true ((hbits hop).1.symm.trans hfloat)
    · exact Bool.false_ne_true ((hbits hop).2.symm.trans hfloat)
  have hrun : run (applyBinary op lhs rhs span) b cache = run (onGraph fun g => g.applyBinary op lhs
      rhs (op.resultSize (b.graph.type lhs).elemSize (b.graph.type rhs).elemSize) shape) b cache := by
    rw [applyBinary, run_get_bind]
    dsimp only
    rw [if_neg haccepts, hcombines]
    rfl
  exact ⟨_, hrun⟩

/-- Two names are combined where their nodes have one shape, by operators that accept the elements. -/
theorem exists_run_binary {op : BinOp} {x y : String} {lhs rhs : NodeId}
    (hlhs : b.resolve? x = some lhs) (hrhs : b.resolve? y = some rhs)
    (hshape : b.graph.shape lhs = b.graph.shape rhs)
    (hbits : op.isBitwise = true → (b.graph.elemSize lhs).isFloatingPoint = false ∧
      (b.graph.elemSize rhs).isFloatingPoint = false) (span span' span'' : Span) (cache : GraphCache) :
    ∃ result, run (expr ctx (.binary (.name x span) op (.name y span') span'')) b cache =
      (.ok result, cache) := by
  obtain ⟨result, hresult⟩ := exists_run_applyBinary hshape hbits span'' cache
  refine ⟨result, ?_⟩
  rw [expr, run_bind, run_expr_name hlhs span cache]
  show run (expr ctx (.name y span') >>= fun rhs => _) b cache = _
  rw [run_bind, run_expr_name hrhs span' cache]
  exact hresult

end BuildM

/-- However the body of a template goes on, a parameter without annotation has its argument's type. -/
theorem FunctionDef.Infers.exists_resolve? {ctx : BuildContext} {b₀ b : FunctionBuilder}
    {cache after : GraphCache} {f : FunctionDef} {given : List KernelType} {i : Nat} {p : Param}
    {ty : KernelType} (h : f.Infers given i p ty) (hlength : given.length = f.params.length)
    (hstart : BuildM.run (BuildM.parameters ctx f (generalizeTypes (f.params.map Param.id) given))
      (.start f.id) cache = (.ok ((), b₀), after))
    (hsteps : ReflTransGen (FunctionBuilder.Step ctx) b₀ b) :
    ∃ node, b.resolve? p.id = some node ∧
      b.graph.type node = ty.rename (callReplacement (f.params.map Param.id) given) := by
  obtain ⟨hseparate, hnamed, types, htypes, hdeclares⟩ := (BuildM.yields_parameters f _).of_run hstart
  obtain ⟨node, hnode, hlt, htype⟩ :=
    hdeclares.exists_get? hnamed h.param (h.getElem?_types htypes hlength)
  obtain ⟨hname, hsame⟩ := hseparate.resolve?_param hsteps hnode hlt
  exact ⟨node, hname, hsame.trans htype⟩

/-! ## Calls of templates -/

namespace Registry

/-- Arguments of one unknown size. -/
def equalArgs (sz : ElemSize) (count : Nat) : List KernelType :=
  List.replicate count (.tensor sz [.sym "M"])

/-- A parameter, with the one size of a tensor of integers if that is written. -/
def vector (id : String) (size : Option String) : Param :=
  ⟨id, size.map fun size => .subscript (.name "int64" .nowhere) (.name size .nowhere) .nowhere, .nowhere⟩

/-- A function that returns the value of an expression. -/
def evaluating (id : String) (params : List Param) (value : Expr) : FunctionDef :=
  ⟨id, params, .missing, [.returns (some value) .nowhere], .nowhere⟩

/-- A function whose name is the key of a template, and this template. -/
def collidingVectors : List FunctionDef :=
  [evaluating "f(int64[x_dim0], int64[x_dim0])" [vector "x" (some "N"), vector "y" (some "K")]
      (.name "x" .nowhere),
    evaluating "f" [vector "x" none, vector "y" none] (.name "x" .nowhere)]

end Registry

end TensorKernel
