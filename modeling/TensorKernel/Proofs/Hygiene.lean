import TensorKernel.Proofs.Build.RenamedFunctions
import TensorKernel.Proofs.CacheTransparency

/-!
# Renaming a variable of a function

The parameters of a template that have no annotations take types with symbols that are invented for the
call, and these share one table of names with the variables of the body.  `instantiate_renameVariable`
says that a variable of the body may have any other name that does not occur in the definition, as long
as neither name is one of the invented symbols.  That they are not is not checked: an assignment to a
variable that happens to be named like an invented symbol is refused (`instantiate_capturedVariable`).
-/

namespace TensorKernel

/-! ## Names in annotations -/

theorem Expr.identifiers_subset {e : Expr} {es : List Expr} (h : e ∈ es) :
    e.identifiers ⊆ Expr.identifiersOfList es := by
  induction es with
  | nil => cases h
  | cons first es ih =>
    rw [identifiersOfList]
    rcases List.mem_cons.mp h with rfl | h
    · exact List.subset_append_left _ _
    · exact List.subset_append_of_subset_right _ (ih h)

namespace TypeHint

theorem mem_identifiers_of_dimension {e : Expr} {name : String} (h : dimension e = .ok (.sym name)) :
    name ∈ e.identifiers := by
  cases e with
  | name id span =>
    obtain rfl := Dim.sym.inj (Except.ok.inj h)
    exact List.mem_cons_self
  | int v span =>
    rw [dimension] at h
    split at h <;> cases h
  | _ => cases h

theorem elements_subset (index : Expr) : ∀ e ∈ elements index, e.identifiers ⊆ index.identifiers := by
  intro e he
  cases index with
  | tuple elems span => exact Expr.identifiers_subset he
  | _ => exact List.mem_singleton.mp he ▸ List.Subset.refl _

/-- The shape symbols of an annotation are among its identifiers. -/
theorem mem_identifiers {hint : Expr} {ty : KernelType} (h : TypeHint.type hint = .ok ty)
    {name : String} (hname : name ∈ ty.symbols) : name ∈ hint.identifiers := by
  cases hint with
  | name id span =>
    obtain ⟨sz, -, h⟩ := exists_of_bind_ok h
    obtain rfl := Except.ok.inj h
    cases hname
  | subscript target index span =>
    obtain ⟨sz, -, h⟩ := exists_of_bind_ok h
    obtain ⟨shape, hshape, h⟩ := exists_of_bind_ok h
    obtain rfl := Except.ok.inj h
    obtain ⟨d, hd, hsym⟩ := List.mem_filterMap.mp hname
    obtain ⟨e, he, hdim⟩ := exists_of_mem_mapM hshape d hd
    cases d with
    | sym other =>
      obtain rfl := Option.some.inj hsym
      exact List.mem_append_right _ (elements_subset index e he (mem_identifiers_of_dimension hdim))
    | const n => cases hsym
    | node id => cases hsym
  | _ => cases h

end TypeHint

/-- The names that a parameter declares: its own, and the shape symbols of its annotation. -/
def Param.declaredNames (p : Param) : List String :=
  p.id :: p.hint.elim [] fun hint => (TypeHint.type hint).toOption.elim [] KernelType.symbols

theorem Param.declaredNames_subset (p : Param) :
    p.declaredNames ⊆ p.id :: Expr.identifiersOfOption p.hint := by
  refine List.cons_subset_cons _ fun name hname => ?_
  cases hhint : p.hint with
  | none =>
    rw [hhint] at hname
    cases hname
  | some hint =>
    rw [hhint, Option.elim_some] at hname
    cases hty : TypeHint.type hint with
    | ok ty =>
      rw [hty] at hname
      exact TypeHint.mem_identifiers hty hname
    | error fault =>
      rw [hty] at hname
      cases hname

namespace FunctionDef

variable {f : FunctionDef}

/-- The names that the parameters of a function declare. -/
def declaredNames (f : FunctionDef) : List String :=
  f.params.flatMap Param.declaredNames

/-- The symbols that are invented for a call, as dimensions of the parameters without annotations. -/
def inventedSymbols (f : FunctionDef) (given : List KernelType) : List String :=
  ((f.params.zip (generalizeTypes (f.params.map Param.id) given)).filter
    fun p => p.1.hint.isNone).flatMap fun p => p.2.symbols

theorem id_mem_declaredNames {p : Param} (hp : p ∈ f.params) : p.id ∈ f.declaredNames :=
  List.mem_flatMap.mpr ⟨p, hp, List.mem_cons_self⟩

theorem symbol_mem_declaredNames {p : Param} (hp : p ∈ f.params) {hint : Expr}
    (hhint : p.hint = some hint) {ty : KernelType} (hty : TypeHint.type hint = .ok ty) {name : String}
    (hname : name ∈ ty.symbols) : name ∈ f.declaredNames := by
  refine List.mem_flatMap.mpr ⟨p, hp, List.mem_cons_of_mem _ ?_⟩
  rw [hhint, Option.elim_some, hty]
  exact hname

theorem declaredNames_subset_identifiers (f : FunctionDef) : f.declaredNames ⊆ f.identifiers := by
  intro name hname
  obtain ⟨p, hp, hname⟩ := List.mem_flatMap.mp hname
  have hparam : name ∈ f.paramIdentifiers :=
    List.mem_flatMap.mpr ⟨p, hp, p.declaredNames_subset hname⟩
  simp only [identifiers, List.mem_cons, List.mem_append]
  exact Or.inr (Or.inl (Or.inl hparam))

/-- Two names may be exchanged if neither is declared nor invented. -/
theorem fixesParams_swap {given : List KernelType} {x y : String} (hx : x ∉ f.declaredNames)
    (hy : y ∉ f.declaredNames) (hx' : x ∉ f.inventedSymbols given) (hy' : y ∉ f.inventedSymbols given)
    {span : Span} {types : Option (List KernelType)}
    (htypes : Registry.paramTypes f given span = .ok types) :
    FixesParams (Equiv.swap x y) f.params (types.getD []) := by
  have hfixed {name : String} {names : List String} (hname : name ∈ names) (hx : x ∉ names)
      (hy : y ∉ names) : Equiv.swap x y name = name :=
    Equiv.swap_apply_of_ne_of_ne (fun heq => hx (heq ▸ hname)) fun heq => hy (heq ▸ hname)
  refine ⟨fun p hp => ?_, fun p hp hint hhint ty hty name hname => ?_, fun p hp hnone name hname => ?_⟩
  · exact hfixed (id_mem_declaredNames hp) hx hy
  · exact hfixed (symbol_mem_declaredNames hp hhint hty hname) hx hy
  · rw [Registry.paramTypes] at htypes
    split at htypes
    · split at htypes
      · obtain rfl := Except.ok.inj htypes
        refine hfixed (List.mem_flatMap.mpr ⟨p, List.mem_filter.mpr ⟨hp, ?_⟩, hname⟩) hx' hy'
        rw [hnone]
        rfl
      · cases htypes
    · obtain rfl := Except.ok.inj htypes
      simp at hp

end FunctionDef

/-! ## Registries with one definition renamed -/

theorem GraphCache.Alike.insert {cache cache' : GraphCache} (h : cache.Alike cache')
    {g g' : FunctionGraph} (hg : g.Alike g') (key : String) :
    GraphCache.Alike (cache.insert key g) (cache'.insert key g') := by
  intro other
  rw [Table.get?_insert, Table.get?_insert]
  split
  · exact congrArg some hg
  · exact h other

namespace Registry

variable {library : NumericLibrary} {options : Options} {ρ : String → String} {name : String}
  {f : FunctionDef} {r r' : Registry}

/-- Answers that are both failures or graphs that are alike, and that leave caches that are alike. -/
def SameAnswer (answer answer' : Except BuildError FunctionGraph × Registry) : Prop :=
  Coincide FunctionGraph.Alike answer.1 answer'.1 ∧ answer.2.cache.Alike answer'.2.cache

/-- The second registry has the variables of one function renamed. -/
structure Redefines (ρ : String → String) (name : String) (f : FunctionDef) (r r' : Registry) :
    Prop where
  before : r.functions.get? name = some f
  after : r'.functions.get? name = some (f.rename ρ)
  others : ∀ other, other ≠ name → r'.functions.get? other = r.functions.get? other
  active : r'.active = r.active
  cache : r.cache.Alike r'.cache

theorem Redefines.enter (h : Redefines ρ name f r r') (id : String) {cache cache' : GraphCache}
    (hcache : cache.Alike cache') : Redefines ρ name f (r.enter id cache) (r'.enter id cache') :=
  ⟨h.before, h.after, h.others, congrArg (id :: ·) h.active, hcache⟩

/--
A function is answered alike by two registries that have built the same, if it is built alike where it
is built.
-/
theorem instantiate_alike {id : String} {f : FunctionDef} (hf : r.functions.get? id = some f)
    (hf' : r'.functions.get? id = some (f.rename ρ)) (hactive : r'.active = r.active)
    (hcache : r.cache.Alike r'.cache) {given : List KernelType} {span : Span}
    (hbuild : id ∉ r.active → ∀ types, paramTypes f given span = .ok types →
      AnswersAlike (f.build (r.context library options id) (types.getD []))
        ((f.rename ρ).build (r'.context library options id) (types.getD []))) :
    SameAnswer (r.instantiate library options id given span)
      (r'.instantiate library options id given span) := by
  have hparams : paramTypes (f.rename ρ) given span = paramTypes f given span := rfl
  rw [instantiate_eq_answerWith, instantiate_eq_answerWith, answerWith, answerWith, hf, hf']
  simp only [hparams, hactive]
  cases htypes : paramTypes f given span with
  | error err => exact ⟨trivial, hcache⟩
  | ok types =>
    -- The caches hold alike graphs under the same keys, so both registries hit or both miss.
    have hcached := hcache (cacheKey id types)
    cases hg : r.cache.get? (cacheKey id types) with
    | some g =>
      obtain ⟨g', hg', halike⟩ : ∃ g', r'.cache.get? (cacheKey id types) = some g' ∧
          g'.unnamed = g.unnamed := by
        rw [hg] at hcached
        exact Option.map_eq_some_iff.mp hcached.symm
      simp only [hg, hg']
      exact ⟨halike.symm, hcache⟩
    | none =>
      have hnone : r'.cache.get? (cacheKey id types) = none := by
        rw [hg] at hcached
        exact Option.map_eq_none_iff.mp hcached.symm
      simp only [hg, hnone, List.contains_iff_mem]
      split
      · exact ⟨trivial, hcache⟩
      · next hidle =>
        obtain ⟨hafter, hresult⟩ := hbuild hidle types htypes r.cache r'.cache hcache
        unfold buildWith
        revert hafter hresult
        rcases BuildM.runCall (f.build (r.context library options id) (types.getD [])) r.cache with
          ⟨result, after⟩
        rcases BuildM.runCall ((f.rename ρ).build (r'.context library options id) (types.getD []))
          r'.cache with ⟨result', after'⟩
        intro hafter hresult
        cases result with
        | ok g =>
          cases result' with
          | ok g' => exact ⟨hresult, GraphCache.Alike.insert hafter hresult _⟩
          | error err' => exact hresult.elim
        | error err =>
          cases result' with
          | ok g' => exact hresult.elim
          | error err' => exact ⟨trivial, hafter⟩

/-- While a function is being built it is not built again, so it does not matter how it is defined. -/
theorem Redefines.sameAnswer_of_active (r : Registry) :
    ∀ r', Redefines ρ name f r r' → name ∈ r.active → ∀ id given span,
      SameAnswer (r.instantiate library options id given span)
        (r'.instantiate library options id given span) := by
  induction r using induction_enter with
  | step r ih =>
    intro r' h hname id given span
    by_cases hid : id = name
    · subst hid
      exact instantiate_alike h.before h.after h.active h.cache fun hidle => absurd hname hidle
    · cases hg : r.functions.get? id with
      | none =>
        rw [instantiate_unknown hg, instantiate_unknown ((h.others id hid).trans hg)]
        exact ⟨trivial, h.cache⟩
      | some g =>
        -- The other function is the same in both registries, so all its variables keep their names.
        have hg' : r'.functions.get? id = some (g.rename fun name => name) := by
          rw [h.others id hid, hg, g.rename_self]
        refine instantiate_alike hg hg' h.active h.cache fun hidle types _ => ?_
        have hknown : r.functions.contains id = true := by
          rw [Table.contains, hg]
          rfl
        have hctx : (r.context library options id).Alike (r'.context library options id) :=
          ⟨rfl, rfl, fun callee types span cache cache' hcache =>
            (ih id cache hknown hidle _ (h.enter id hcache) (List.mem_cons_of_mem _ hname) callee types
              span).symm⟩
        exact FunctionDef.build_rename Function.injective_id hctx
          ⟨fun _ _ => rfl, fun _ _ _ _ _ _ _ _ => rfl, fun _ _ _ _ _ => rfl⟩

/-- The function itself is answered alike if the names in its declaration stay. -/
theorem Redefines.sameAnswer (h : Redefines ρ name f r r') (hρ : Function.Injective ρ)
    {given : List KernelType} {span : Span} (hfixes : ∀ types, paramTypes f given span = .ok types →
      FixesParams ρ f.params (types.getD [])) :
    SameAnswer (r.instantiate library options name given span)
      (r'.instantiate library options name given span) := by
  refine instantiate_alike h.before h.after h.active h.cache fun _ types htypes => ?_
  have hctx : (r.context library options name).Alike (r'.context library options name) :=
    ⟨rfl, rfl, fun callee types span cache cache' hcache =>
      (Redefines.sameAnswer_of_active _ _ (h.enter name hcache) List.mem_cons_self callee types
        span).symm⟩
  exact FunctionDef.build_rename hρ hctx (hfixes types htypes)

/--
A variable of a function can have any other name that does not occur in the definition, as long as no
symbol that is invented for the call has one of both names: either way there is no graph, or the graphs
differ in the names of their nodes only.
-/
theorem instantiate_renameVariable (library : NumericLibrary) (options : Options) {r : Registry}
    {cache' : GraphCache} (hcache : r.cache.Alike cache') {id : String} {f : FunctionDef}
    (hf : r.functions.get? id = some f) (given : List KernelType) (span : Span) {x y : String}
    (hx : x ∉ f.declaredNames) (hy : y ∉ f.identifiers) (hx' : x ∉ f.inventedSymbols given)
    (hy' : y ∉ f.inventedSymbols given) :
    SameAnswer (r.instantiate library options id given span)
      (instantiate library options
        ⟨r.functions.insert id (f.renameVariable x y), cache', r.active⟩ id given span) := by
  rw [FunctionDef.renameVariable_eq hy]
  have hredefines : Redefines (Equiv.swap x y) id f r
      ⟨r.functions.insert id (f.rename (Equiv.swap x y)), cache', r.active⟩ := by
    refine ⟨hf, ?_, fun other hother => ?_, rfl, hcache⟩
    · rw [Table.get?_insert, if_pos rfl]
    · rw [Table.get?_insert, if_neg hother]
  have hdeclared : y ∉ f.declaredNames := fun hmem => hy (f.declaredNames_subset_identifiers hmem)
  exact hredefines.sameAnswer (Equiv.injective _) fun types htypes =>
    FunctionDef.fixesParams_swap hx hdeclared hx' hy' htypes

/-- A template that doubles its argument in a variable that is assigned twice. -/
def doubling (total : String) : FunctionDef :=
  ⟨"f", [⟨"y", none, .nowhere⟩], .missing,
    [.assign (.name total .nowhere) (.name "y" .nowhere) .nowhere,
      .augmented (.name total .nowhere) .add (.name "y" .nowhere) .nowhere,
      .returns (some (.name total .nowhere)) .nowhere], .nowhere⟩

theorem exists_instantiate_doubling :
    ∃ g, ((ofDefs [doubling "t"]).instantiate .standard .default "f" [.tensor .i64 [.sym "M"]]
      .nowhere).1 = .ok g := by
  have hbuilds : ((ofDefs [doubling "t"]).instantiate .standard .default "f" [.tensor .i64 [.sym "M"]]
      .nowhere).1.toOption.any (fun _ => true) = true := by decide +kernel
  obtain ⟨g, hg, -⟩ := exists_of_any_toOption hbuilds
  exact ⟨g, hg⟩

theorem instantiate_renameVariable_doubling :
    (∃ g, ((ofDefs [doubling "t"]).instantiate .standard .default "f" [.tensor .i64 [.sym "M"]]
      .nowhere).1 = .ok g) ∧
    SameAnswer
      ((ofDefs [doubling "t"]).instantiate .standard .default "f" [.tensor .i64 [.sym "M"]] .nowhere)
      ((ofDefs [doubling "total"]).instantiate .standard .default "f" [.tensor .i64 [.sym "M"]]
        .nowhere) := by
  have hx : "t" ∉ (doubling "t").declaredNames := by decide
  have hy : "total" ∉ (doubling "t").identifiers := by decide
  have hx' : "t" ∉ (doubling "t").inventedSymbols [.tensor .i64 [.sym "M"]] := by decide
  have hy' : "total" ∉ (doubling "t").inventedSymbols [.tensor .i64 [.sym "M"]] := by decide
  exact ⟨exists_instantiate_doubling,
    instantiate_renameVariable .standard .default (fun _ => rfl) rfl _ .nowhere hx hy hx' hy'⟩

/-- A variable that is named like an invented symbol is taken for the symbol. -/
theorem instantiate_capturedVariable :
    "t" ∉ (doubling "t").declaredNames ∧ "y_dim0" ∉ (doubling "t").identifiers ∧
    (∃ g, ((ofDefs [doubling "t"]).instantiate .standard .default "f" [.tensor .i64 [.sym "M"]]
      .nowhere).1 = .ok g) ∧
    ((ofDefs [(doubling "t").renameVariable "t" "y_dim0"]).instantiate .standard .default "f"
      [.tensor .i64 [.sym "M"]] .nowhere).1 = .error ⟨.reassignedSymbol "y_dim0", .nowhere⟩ :=
  ⟨by decide, by decide, exists_instantiate_doubling, by decide +kernel⟩

end Registry

end TensorKernel
