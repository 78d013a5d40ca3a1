import TensorKernel.Build.Registry
import TensorKernel.Proofs.Build.Function

/-!
# Built modules

Whatever a registry builds is well-formed, however deep the calls go.  The induction is on the
number of functions that are not being built, along which the registry itself recurses.
-/

namespace TensorKernel

/-! ## Types of templates -/

namespace DimNames

/-- A dimension of a replaced shape is a symbol, or a constant that was there. -/
theorem mem_replaceShape (param : String) (shape : Shape) :
    ∀ {names : DimNames} {axis : Nat} {d : Dim}, d ∈ (replaceShape param names axis shape).1 →
      (∃ name, d = .sym name) ∨ ∃ n, d = .const n ∧ d ∈ shape := by
  induction shape with
  | nil =>
    intro names axis d hd
    cases hd
  | cons head rest ih =>
    intro names axis d hd
    have hrest {names : DimNames} {axis : Nat} (hd : d ∈ (replaceShape param names axis rest).1) :
        (∃ name, d = .sym name) ∨ ∃ n, d = .const n ∧ d ∈ head :: rest :=
      (ih hd).imp_right fun ⟨n, hn, hmem⟩ => ⟨n, hn, List.mem_cons_of_mem _ hmem⟩
    cases head with
    | const n =>
      rcases List.mem_cons.mp hd with rfl | hd
      · exact Or.inr ⟨n, rfl, List.mem_cons_self ..⟩
      · exact hrest hd
    | sym _ | node _ =>
      simp only [replaceShape] at hd
      split at hd <;>
        rcases List.mem_cons.mp hd with rfl | hd
      · exact Or.inl ⟨_, rfl⟩
      · exact hrest hd
      · exact Or.inl ⟨_, rfl⟩
      · exact hrest hd

/-- The types of a template's parameters have symbols and constants of the arguments. -/
theorem mem_replaceTypes (given : List (String × KernelType)) :
    ∀ {names : DimNames}, ∀ ty ∈ replaceTypes names given, ∀ d ∈ ty.shape,
      (∃ name, d = .sym name) ∨ ∃ n, d = .const n ∧ ∃ entry ∈ given, d ∈ entry.2.shape := by
  induction given with
  | nil =>
    intro names ty hty
    cases hty
  | cons entry rest ih =>
    intro names ty hty d hd
    obtain ⟨param, given⟩ := entry
    rcases List.mem_cons.mp hty with rfl | hty
    · cases given with
      | scalar size => cases hd
      | tensor size shape =>
        exact (mem_replaceShape param shape hd).imp_right fun ⟨n, hn, hmem⟩ =>
          ⟨n, hn, _, List.mem_cons_self .., hmem⟩
    · exact (ih ty hty d hd).imp_right fun ⟨n, hn, entry, hentry, hmem⟩ =>
        ⟨n, hn, entry, List.mem_cons_of_mem _ hentry, hmem⟩

end DimNames

/-- Building a function runs its steps from the start and forgets the builder. -/
theorem FunctionDef.build_eq (f : FunctionDef) (ctx : BuildContext) (types : List KernelType)
    (cache : GraphCache) : BuildM.runCall (f.build ctx types) cache =
      ((BuildM.run (BuildM.function ctx f types) (.start f.id) cache).1.map Prod.fst,
        (BuildM.run (BuildM.function ctx f types) (.start f.id) cache).2) := by
  have hmap : ∀ x : CacheM (FunctionGraph × FunctionBuilder),
      BuildM.runCall (Prod.fst <$> x) cache =
        ((BuildM.runCall x cache).1.map Prod.fst, (BuildM.runCall x cache).2) := by
    intro x
    unfold BuildM.runCall
    simp only [Functor.map, ExceptT.map, ExceptT.mk, bind, StateT.bind]
    rcases x cache with ⟨r, cache'⟩
    cases r <;> rfl
  exact hmap (BuildM.function ctx f types (.start f.id))

namespace Registry

/-- The parameters of a template have symbols and constants of the arguments as dimensions. -/
theorem mem_paramTypes {f : FunctionDef} {given : List KernelType} {span : Span}
    {types : Option (List KernelType)} (h : paramTypes f given span = .ok types) :
    ∀ ty ∈ types.getD [], ∀ d ∈ ty.shape,
      (∃ name, d = .sym name) ∨ ∃ n, d = .const n ∧ ∃ ty' ∈ given, d ∈ ty'.shape := by
  unfold paramTypes at h
  split at h
  · split at h
    · obtain rfl := Except.ok.inj h
      exact fun ty hty d hd => (DimNames.mem_replaceTypes _ ty hty d hd).imp_right
        fun ⟨n, hn, entry, hentry, hmem⟩ => ⟨n, hn, entry.2, (List.of_mem_zip hentry).2, hmem⟩
    · cases h
  · obtain rfl := Except.ok.inj h
    intro ty hty
    cases hty

theorem paramTypes_ok {f : FunctionDef} {given : List KernelType} {span : Span}
    {types : Option (List KernelType)} (h : paramTypes f given span = .ok types) :
    ∀ ty ∈ types.getD [], ty.Closed := by
  rintro ty hty d hd id rfl
  rcases mem_paramTypes h ty hty _ hd with ⟨name, hname⟩ | ⟨n, hn, -⟩
  · cases hname
  · cases hn

/-- A function that is given no arguments is no template, or none of its parameters takes a type. -/
theorem paramTypes_nil {f : FunctionDef} {span : Span} {types : Option (List KernelType)}
    (h : paramTypes f [] span = .ok types) : types.getD [] = [] := by
  unfold paramTypes at h
  split at h
  · split at h
    · obtain rfl := Except.ok.inj h
      simp [generalizeTypes, DimNames.replaceTypes]
    · cases h
  · obtain rfl := Except.ok.inj h
    rfl

theorem paramTypes_error {f : FunctionDef} {given : List KernelType} {span : Span}
    {err : BuildError} (h : paramTypes f given span = .error err) : err.kind = .syntaxError := by
  unfold paramTypes at h
  split at h
  · split at h
    · cases h
    · obtain rfl := Except.error.inj h
      rfl
  · cases h

/-! ## Registries -/

/-- The functions of the standard library have neutral elements. -/
theorem standard_sound {name : String} {f : Reduction}
    (h : NumericLibrary.standard.functions.get? name = some f) : f.Sound := by
  have hmem := Table.mem_of_get?_ofList h
  simp only [List.mem_cons, Prod.mk.injEq, List.not_mem_nil, or_false] at hmem
  rcases hmem with ⟨-, rfl⟩ | ⟨-, rfl⟩ | ⟨-, rfl⟩ | ⟨-, rfl⟩ <;> simp [Reduction.Sound]

/-- What a registry provides for a call, whether it succeeds or not. -/
structure Provides (sz : ElemSize) (strict closed : Prop)
    (result : Except BuildError FunctionGraph × Registry) : Prop where
  cache : result.2.cache.Formed sz closed
  ok : ∀ g, result.1 = .ok g → g.Formed sz closed
  error : ∀ err, result.1 = .error err → BuildM.Permitted strict err

/-- Building a function provides its graph, which is cached if it succeeds. -/
theorem provides_build {sz : ElemSize} {strict closed : Prop} {ctx : BuildContext}
    (hctx : ctx.Sound sz strict closed) {f : FunctionDef} (hf : strict → f.BooleansNonempty)
    {types : List KernelType} (htypes : ∀ ty ∈ types, ty.Closed) {r : Registry}
    (hcache : r.cache.Formed sz closed) (key : String) :
    Provides sz strict closed
      (match f.build ctx types r.cache with
      | (.ok g, cache) => (.ok g, { r with cache := cache.insert key g })
      | (.error e, cache) => (.error e, { r with cache })) := by
  obtain ⟨hsound, houtcome⟩ := BuildM.meets_function hctx f hf htypes r.cache hcache
  have hbuild : f.build ctx types r.cache = _ := f.build_eq ctx types r.cache
  rw [hbuild]
  generalize BuildM.run (BuildM.function ctx f types) (.start f.id) r.cache = result at *
  obtain ⟨outcome, cache⟩ := result
  cases outcome with
  | ok p =>
    exact ⟨GraphCache.Formed.insert hsound houtcome, fun g h => Except.ok.inj h ▸ houtcome,
      fun err h => by cases h⟩
  | error err => exact ⟨hsound, fun g h => (by cases h), fun err' h => Except.error.inj h ▸ houtcome⟩

/-- What the function `active` of a module may refer to while it is being built. -/
def context (library : NumericLibrary) (options : Options) (r : Registry) (active : String) :
    BuildContext where
  options := options
  library := library
  call function types span := fun cache =>
    let (result, after) := (r.enter active cache).instantiate library options function types span
    (result, after.cache)

theorem runCall_context (library : NumericLibrary) (options : Options) (r : Registry)
    (active function : String) (types : List KernelType) (span : Span) (cache : GraphCache) :
    BuildM.runCall ((r.context library options active).call function types span) cache =
      (((r.enter active cache).instantiate library options function types span).1,
        ((r.enter active cache).instantiate library options function types span).2.cache) := rfl

/-- What is provided for calls is sound if the functions that are idle provide well-formed graphs. -/
theorem context_sound {options : Options} {strict closed : Prop} {r : Registry} {active : String}
    (hcalls : ∀ (callee : String) (types : List KernelType) (span : Span) (cache : GraphCache),
      cache.Formed options.indexSize closed → Provides options.indexSize strict closed
        (instantiate .standard options (r.enter active cache) callee types span)) :
    (r.context .standard options active).Sound options.indexSize strict closed := by
  refine ⟨rfl, standard_sound, fun callee types span cache hsound => ?_,
    fun callee types span cache hsound => ?_⟩
  · have h := hcalls callee types span cache hsound
    rw [runCall_context]
    exact ⟨h.cache, h.ok⟩
  · have h := hcalls callee types span cache hsound
    rw [runCall_context]
    exact h.error

/-- A registry provides graphs as its cache has them, and adds only such graphs to it. -/
theorem instantiate_provides (options : Options) (strict closed : Prop)
    (functions : Table String FunctionDef)
    (hfunctions : strict → ∀ {id f}, functions.get? id = some f → f.BooleansNonempty) :
    ∀ (n : Nat) (r : Registry), r.functions = functions → r.idle.length = n →
      r.cache.Formed options.indexSize closed → ∀ id given span,
        Provides options.indexSize strict closed (instantiate .standard options r id given span) := by
  intro n
  induction n using Nat.strongRecOn with
  | ind n ih =>
    intro r hr hn hcache id given span
    have keep : ∀ {err : BuildError}, BuildM.Permitted strict err →
        Provides options.indexSize strict closed (.error err, r) := fun herr =>
      ⟨hcache, fun g h => (by cases h), fun err' h => by rw [← Except.error.inj h]; exact herr⟩
    rw [instantiate]
    split
    · exact keep fun _ => by rintro ⟨⟩
    · next f hf =>
      split
      · next err herr =>
        refine keep fun _ => ?_
        rw [paramTypes_error herr]
        decide
      · next types htypes =>
        split
        · next g hg =>
          exact ⟨hcache, fun g' h => Except.ok.inj h ▸ hcache _ _ hg, fun err h => by cases h⟩
        · split
          · exact keep fun _ => by rintro ⟨⟩
          · next hidle =>
            have hlt : ∀ cache, (r.enter id cache).idle.length < n := fun cache => by
              rw [← hn]
              exact idle_enter_lt r id cache (by simp [Table.contains, hf]) (by simpa using hidle)
            -- The calls of the function leave fewer functions to build.
            have hcalls : ∀ (callee : String) (types : List KernelType) (span : Span)
                (cache : GraphCache), cache.Formed options.indexSize closed →
                Provides options.indexSize strict closed
                  (instantiate .standard options (r.enter id cache) callee types span) :=
              fun callee types span cache hsound =>
                ih _ (hlt cache) (r.enter id cache) hr rfl hsound callee types span
            exact provides_build (context_sound hcalls) (fun hs => hfunctions hs (hr ▸ hf))
              (paramTypes_ok htypes) hcache _

/-- The registry of a module has built nothing, so it provides well-formed graphs. -/
theorem ofDefs_provides (options : Options) {strict : Prop} (closed : Prop) (defs : List FunctionDef)
    (hdefs : strict → ∀ f ∈ defs, f.BooleansNonempty) (main : String) (span : Span) :
    Provides options.indexSize strict closed
      ((ofDefs defs).instantiate .standard options main [] span) := by
  have hfunctions : strict → ∀ {id f}, (ofDefs defs).functions.get? id = some f →
      f.BooleansNonempty := by
    intro hs id f hf
    obtain ⟨f', hf', heq⟩ := List.mem_map.mp (Table.mem_of_get?_ofList hf)
    rw [← (Prod.mk.inj heq).2]
    exact hdefs hs f' hf'
  have hcache : (ofDefs defs).cache.Formed options.indexSize closed := GraphCache.Formed.empty _ _
  exact instantiate_provides options strict closed (ofDefs defs).functions hfunctions
    (ofDefs defs).idle.length (ofDefs defs) rfl rfl hcache main [] span

end Registry

/-! ## Modules -/

/-- The graph of a main function is well-formed and orderly. -/
theorem buildGraph_formed {defs : List FunctionDef} {main : String} {options : Options}
    {g : FunctionGraph} (h : buildGraph defs main options = .ok g) :
    g.Formed options.indexSize True := by
  have hprovides := Registry.ofDefs_provides options True defs False.elim main
  unfold buildGraph at h
  split at h
  · split at h
    · cases h
    · exact (hprovides _).ok g h
  · exact (hprovides _).ok g h

theorem buildGraph_wellFormed {defs : List FunctionDef} {main : String} {options : Options}
    {g : FunctionGraph} (h : buildGraph defs main options = .ok g) :
    g.WellFormed options.indexSize :=
  (buildGraph_formed h).wellFormed

/-- The slices of the graph of a main function have the sizes that their indices stand for. -/
theorem buildGraph_measured {defs : List FunctionDef} {main : String} {options : Options}
    {g : FunctionGraph} (h : buildGraph defs main options = .ok g) :
    g.graph.Measured options.indexSize g.symbols :=
  ((buildGraph_formed h).orderly trivial).measured

/--
The graph of a main function is the one that building a definition of the module gives, with nothing
built before and with no types for its parameters.
-/
theorem exists_build_of_buildGraph {defs : List FunctionDef} {main : String} {options : Options}
    {g : FunctionGraph} (h : buildGraph defs main options = .ok g) :
    ∃ f ∈ defs, f.id = main ∧ ∃ ctx cache, ctx.Sound options.indexSize False False ∧
      BuildM.runCall (f.build ctx []) .empty = (.ok g, cache) := by
  have hbuild : ∃ span,
      ((Registry.ofDefs defs).instantiate .standard options main [] span).1 = .ok g := by
    unfold buildGraph at h
    split at h
    · split at h
      · cases h
      · exact ⟨_, h⟩
    · exact ⟨_, h⟩
  obtain ⟨span, hspan⟩ := hbuild
  let r := Registry.ofDefs defs
  have hcalls : ∀ (callee : String) (types : List KernelType) (span : Span) (cache : GraphCache),
      cache.Formed options.indexSize False → Registry.Provides options.indexSize False False
        (Registry.instantiate .standard options (r.enter main cache) callee types span) :=
    fun callee types span cache hsound => Registry.instantiate_provides options False False
      (r.enter main cache).functions False.elim _ (r.enter main cache) rfl rfl hsound callee types
      span
  -- Nothing is cached or active yet, so the definition is found and built.
  rw [Registry.instantiate] at hspan
  split at hspan
  · cases hspan
  · next f hf =>
    split at hspan
    · cases hspan
    · next types htypes =>
      obtain ⟨f', hf', heq⟩ := List.mem_map.mp (Table.mem_of_get?_ofList hf)
      obtain ⟨hid, rfl⟩ := Prod.mk.inj heq
      refine ⟨f', hf', hid, r.context .standard options main, ?_⟩
      rw [Registry.paramTypes_nil htypes] at hspan
      split at hspan
      · next hcached => cases hcached
      · split at hspan
        · cases hspan
        · have hresult : (match f'.build (r.context .standard options main) [] r.cache with
              | (.ok g, cache) => (.ok g, { r with
                cache := cache.insert (Registry.cacheKey main types) g })
              | (.error e, cache) => (.error e, { r with cache }) :
                Except BuildError FunctionGraph × Registry).1 = .ok g := hspan
          have hrun : BuildM.runCall (f'.build (r.context .standard options main) []) .empty =
              f'.build (r.context .standard options main) [] r.cache := rfl
          rw [hrun]
          generalize f'.build (r.context .standard options main) [] r.cache = result at hresult
          obtain ⟨outcome, cache⟩ := result
          cases outcome with
          | error err => cases hresult
          | ok g' =>
            cases hresult
            exact ⟨cache, Registry.context_sound hcalls, rfl⟩

/-- Building a main function fails with no internal error. -/
theorem buildGraph_error_kind {defs : List FunctionDef} {main : String} {options : Options}
    (hdefs : ∀ f ∈ defs, f.BooleansNonempty) {err : BuildError}
    (h : buildGraph defs main options = .error err) : err.kind ≠ .internalError := by
  have hprovides := Registry.ofDefs_provides options False defs (fun _ : True => hdefs) main
  unfold buildGraph at h
  split at h
  · split at h
    · obtain rfl := Except.error.inj h
      rintro ⟨⟩
    · exact (hprovides _).error err h trivial
  · exact (hprovides _).error err h trivial

end TensorKernel
