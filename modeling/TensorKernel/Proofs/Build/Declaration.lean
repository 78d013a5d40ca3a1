import TensorKernel.Proofs.Build.Registry

/-!
# What is declared

The parameters of a built function have different names.  If it declares the type of its result
without symbols of its own then its only output has this type.
-/

namespace TensorKernel

/-- What is planned for the result is what is written about it. -/
def FunctionBuilder.Plans (b : FunctionBuilder) (result : ReturnHint) : Prop :=
  match result with
  | .void => b.returnPlan = .void
  | .missing => b.returnPlan = .template
  | .type hint => ∃ ty, TypeHint.type hint = .ok ty ∧
      if (b.unknownSymbol? ty).isSome then b.returnPlan = .dynamic
      else ∃ dst, b.returnPlan = .static ty dst

/-- A plan to return a value of a type is there because this type is written. -/
theorem FunctionBuilder.Plans.static {b : FunctionBuilder} {result : ReturnHint}
    (h : b.Plans result) {ty : KernelType} {dst : NodeId} (hplan : b.returnPlan = .static ty dst) :
    ∃ hint, result = .type hint ∧ TypeHint.type hint = .ok ty := by
  cases result with
  | void => exact nomatch hplan.symm.trans h
  | missing => exact nomatch hplan.symm.trans h
  | type hint =>
    obtain ⟨ty', hty', hplan'⟩ := h
    split at hplan'
    · exact nomatch hplan.symm.trans hplan'
    · obtain ⟨dst', hplan'⟩ := hplan'
      obtain ⟨rfl, -⟩ := ReturnPlan.static.inj (hplan.symm.trans hplan')
      exact ⟨hint, rfl, hty'⟩

/-- The parameters added so far have different names, all of which are taken. -/
structure FunctionBuilder.Named (b : FunctionBuilder) : Prop where
  nodup : (b.inputs.map Prod.fst).Nodup
  taken : ∀ p ∈ b.inputs, b.params.contains p.1 = true

/-- How the graph of a function agrees with what the function declares. -/
structure FunctionGraph.Declared (f : FunctionDef) (g : FunctionGraph) : Prop where
  names : (g.inputs.map Prod.fst).Nodup
  result : g.returnKind = .static → ∃ hint ty dst, f.result = .type hint ∧
    TypeHint.type hint = .ok ty ∧ g.returnType = some ty ∧ g.outputs = [dst] ∧
    g.graph.type dst = ty

namespace BuildM

open FunctionBuilder (Continues Named)

variable {sz : ElemSize} {caches : GraphCache → Prop} {strict closed : Prop} {ctx : BuildContext}
  {b : FunctionBuilder}

/-! ## Parameters -/

/-- Shape symbols are new nodes, and the parameters stay as they are. -/
theorem meets_addSymbols_same (indexSize : ElemSize) (arg : NodeId) (axes : Shape) :
    ∀ {b : FunctionBuilder} (axis : Nat),
      Meets caches strict (addSymbols indexSize arg axis axes) b fun _ b' =>
        b'.inputs = b.inputs ∧ b'.params = b.params ∧ b.graph.Extends b'.graph := by
  induction axes with
  | nil => exact fun {b} _ => meets_pure ⟨rfl, rfl, .refl _⟩
  | cons d rest ih =>
    intro b axis
    cases d with
    | const n => exact ih (axis + 1)
    | node id => exact ih (axis + 1)
    | sym name =>
      refine meets_get_bind (meets_ite (fun _ => ih (axis + 1)) fun _ => ?_)
      refine (meets_onGraph (Q := fun _ b' =>
        b' = { b with graph := (b.graph.addScalar (some name) indexSize).2 }) rfl).bind
        fun node b₁ h₁ => ?_
      subst h₁
      refine (meets_modify (Q := fun _ b' => b'.inputs = b.inputs ∧ b'.params = b.params ∧
        b.graph.Extends b'.graph) ⟨rfl, rfl, (Graph.Extends.refl _).addNode _ _⟩).bind
        fun _ b₂ ⟨hinputs, hparams, hext⟩ => (ih (axis + 1)).mono fun _ b₃ ⟨hinputs', hparams', hext'⟩ =>
          ⟨hinputs'.trans hinputs, hparams'.trans hparams, hext.trans hext'⟩

/-- A parameter is refused if its name is taken. -/
theorem meets_addParam_named (function : String) (param : Param) {given : Option KernelType}
    (hb : b.Named) :
    Meets caches False (addParam ctx function param given) b fun _ b' => b'.Named := by
  refine meets_get_bind (meets_ite (fun _ => meets_throw False.elim) fun hnew => ?_)
  have hfresh : b.params.contains param.id = false := by simpa using hnew
  have htype : Meets caches False (paramType function param given) b fun _ b' => b' = b := by
    unfold paramType
    split
    · exact meets_ofLocated (fun _ _ => rfl) fun _ h => TypeHint.type_error h
    · exact meets_pure rfl
    · exact meets_throw False.elim
  refine htype.bind fun ty b₁ h₁ => ?_
  subst h₁
  refine (meets_onGraph (Q := fun _ b' => b'.inputs = b₁.inputs ∧ b'.params = b₁.params)
    ⟨rfl, rfl⟩).bind fun arg b₂ hsame => ?_
  obtain ⟨hinputs, hparams⟩ := hsame
  -- Adding symbols changes no names, so only the new name has to be distinct and known.
  refine (meets_modify (Q := fun _ b' => b'.Named) ⟨?_, fun p hp => ?_⟩).bind fun _ b₃ hb₃ =>
    (meets_addSymbols_same _ _ ty.shape 0).mono fun _ b₄ hsame => ?_
  rotate_right
  · obtain ⟨hinputs', hparams', -⟩ := hsame
    refine ⟨by rw [hinputs']; exact hb₃.nodup, fun p hp => ?_⟩
    rw [hparams']
    exact hb₃.taken p (hinputs' ▸ hp)
  · rw [hinputs, List.map_append, List.nodup_append]
    refine ⟨hb.nodup, List.nodup_singleton _, fun name hname other hother heq => ?_⟩
    obtain ⟨p, hp, rfl⟩ := List.mem_map.mp hname
    rw [heq, List.mem_singleton.mp hother] at hname
    obtain ⟨q, hq, hq'⟩ := List.mem_map.mp hname
    have htaken := hb.taken q hq
    rw [hq', hfresh] at htaken
    cases htaken
  · rw [hparams, Table.contains_insert]
    rw [hinputs] at hp
    rcases List.mem_append.mp hp with hp | hp
    · rw [hb.taken p hp, Bool.or_true]
    · rw [List.mem_singleton.mp hp]
      simp

theorem meets_addParams_named (function : String) (params : List Param) :
    ∀ {b : FunctionBuilder} {types : List KernelType}, b.Named →
      Meets caches False (addParams ctx function params types) b fun _ b' => b'.Named := by
  induction params with
  | nil => exact fun hb => meets_pure hb
  | cons param params ih =>
    exact fun hb => (meets_addParam_named function param hb).bind fun _ _ hb₁ => ih hb₁

/-! ## Results -/

/-- The plan for the result is what is written about it; nothing else is bound. -/
theorem meets_planReturn_plans (result : ReturnHint) :
    Meets caches strict (planReturn result) b fun _ b' => b'.Plans result ∧
      (∀ ty dst, b'.returnPlan = .static ty dst → b'.returnType = some ty) ∧
      b'.inputs = b.inputs ∧ b'.params = b.params ∧ b'.symbols = b.symbols ∧
      b'.scalars = b.scalars ∧ b'.tensors = b.tensors ∧ b'.outputs = b.outputs ∧
      b.graph.Extends b'.graph := by
  cases result with
  | missing => exact meets_modify ⟨rfl, nofun, rfl, rfl, rfl, rfl, rfl, rfl, .refl _⟩
  | void => exact meets_modify ⟨rfl, nofun, rfl, rfl, rfl, rfl, rfl, rfl, .refl _⟩
  | type hint =>
    refine (meets_ofLocated (Q := fun ty b' => TypeHint.type hint = .ok ty ∧ b' = b)
      (fun ty hty => ⟨hty, rfl⟩) fun _ h => TypeHint.type_error h).bind
      fun ty b₁ ⟨hty, hsame⟩ => meets_get_bind ?_
    subst hsame
    refine meets_ite (fun hdynamic => meets_set
      ⟨⟨ty, hty, (if_pos hdynamic).mpr rfl⟩, nofun, rfl, rfl, rfl, rfl, rfl, rfl, .refl _⟩)
      fun hstatic => ?_
    obtain ⟨kind, hadd, -, -⟩ := b₁.graph.addOfType_eq_addNode none ty
    refine (meets_onGraph (Q := fun _ b' =>
      b' = { b₁ with graph := (b₁.graph.addNode none kind).2 }) ?_).bind fun node b₂ h₂ =>
      meets_modify ?_
    · rw [hadd]
    · subst h₂
      refine ⟨⟨ty, hty, (if_neg hstatic).mpr ⟨node, rfl⟩⟩, fun ty' dst hplan => ?_, rfl, rfl, rfl,
        rfl, rfl, rfl, (Graph.Extends.refl _).addNode _ _⟩
      rw [(ReturnPlan.static.inj hplan).1]

/-- If the node of a declared result is the only one that is returned then it is the output. -/
theorem meets_finish_declared (f : FunctionDef) (hb : b.WellFormed sz)
    (hnames : (b.inputs.map Prod.fst).Nodup) (hplan : b.Plans f.result)
    (hresult : ∀ ty dst, b.returnPlan = .static ty dst →
      b.returnType = some ty ∧ ∀ id ∈ b.outputs, id = dst) :
    Meets caches False (finish f) b fun g _ => g.Declared f := by
  refine meets_get_bind (meets_ite (fun _ => meets_throw False.elim) fun hreturned =>
    meets_pure ⟨hnames, fun hkind => ?_⟩)
  have hkind' : b.returnPlan.kind = .static := hkind
  cases hstatic : b.returnPlan with
  | static ty dst =>
    obtain ⟨hint, hhint, hty⟩ := hplan.static hstatic
    obtain ⟨htype, houtputs⟩ := hresult ty dst hstatic
    refine ⟨hint, ty, dst, hhint, hty, htype, ?_, (hb.result hstatic).type⟩
    have hsingle := hb.single
    match hout : b.outputs with
    | [] => exact absurd ⟨Or.inl hkind', by rw [hout]; rfl⟩ hreturned
    | [id] =>
      obtain rfl := houtputs id (by rw [hout]; exact List.mem_singleton_self _)
      rfl
    | _ :: _ :: _ =>
      rw [hout] at hsingle
      simp at hsingle
  | _ =>
    rw [hstatic] at hkind'
    cases hkind'

/-! ## Functions -/

theorem meets_function_declared (hctx : ctx.Sound sz False False) (f : FunctionDef)
    {types : List KernelType} (htypes : ∀ ty ∈ types, ty.Closed) :
    Meets (GraphCache.Formed sz False) False (function ctx f types) (.start f.id) fun g _ =>
      g.Declared f := by
  refine ((meets_addParams hctx.size f.id f.params htypes (.start f.id)).and
    (meets_addParams_named f.id f.params ⟨List.nodup_nil, nofun⟩)).bind fun _ b₁ ⟨hpre, hnamed⟩ => ?_
  refine (meets_checkParamNames f.params).bind fun _ b₂ hsame => ?_
  subst hsame
  refine ((meets_planReturn f.result hpre).and (meets_planReturn_plans f.result)).bind
    fun _ b₃ ⟨⟨hb₃, _⟩, hplan, htype, hinputs, _, _, _, _, houtputs, _⟩ => ?_
  refine (keeps_body hctx f.body False.elim hb₃).bind fun _ b₄ ⟨hb₄, hcontinues⟩ => ?_
  refine meets_finish_declared f hb₄ ?_ ?_ fun ty dst hstatic => ?_
  · rw [hcontinues.inputs, hinputs]
    exact hnamed.nodup
  · unfold FunctionBuilder.Plans FunctionBuilder.unknownSymbol? at *
    rwa [hcontinues.plan, hcontinues.symbols]
  · rw [hcontinues.plan] at hstatic
    obtain ⟨hsame, hreturned⟩ := hcontinues.result ty dst hstatic
    refine ⟨hsame.trans (htype ty dst hstatic), fun id hid => (hreturned id hid).resolve_left ?_⟩
    rw [houtputs, hpre.outputs]
    exact List.not_mem_nil

end BuildM

/-- The graph of a main function agrees with what the function declares. -/
theorem buildGraph_declared {defs : List FunctionDef} {main : String} {options : Options}
    {g : FunctionGraph} (h : buildGraph defs main options = .ok g) :
    ∃ f ∈ defs, f.id = main ∧ g.Declared f := by
  obtain ⟨f, hf, hid, ctx, cache, hctx, hbuild⟩ := exists_build_of_buildGraph h
  refine ⟨f, hf, hid, ?_⟩
  have hclosed : ∀ ty ∈ ([] : List KernelType), ty.Closed := nofun
  have hresult := (BuildM.meets_function_declared hctx f hclosed .empty
    (GraphCache.Formed.empty _ _)).2
  have heq := f.build_eq ctx [] .empty
  rw [hbuild] at heq
  generalize BuildM.run (BuildM.function ctx f []) (.start f.id) .empty = result at heq hresult
  obtain ⟨outcome, after⟩ := result
  cases outcome with
  | error err => cases heq
  | ok p =>
    obtain rfl := Except.ok.inj (Prod.mk.inj heq).1
    exact hresult

end TensorKernel
