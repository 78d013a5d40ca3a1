import TensorKernel.Proofs.Build.FunctionCalls
import TensorKernel.Proofs.Build.Registry

/-!
# What a registry does about a call

`Registry.Answers` lists what can happen when a graph is asked for: the request is refused, or
answered from the cache, or the function is built, whose calls are asked for in turn.  What is to be
proved of all calls is proved along `Registry.induction_enter`, where a function that is built may
only call what is proved already.
-/

namespace TensorKernel

/-! ## Building a function as a dialogue -/

/-- Building a function asks for what its body calls, and settles what computes each node. -/
theorem FunctionDef.exists_dialogue (f : FunctionDef) (ctx : BuildContext) (types : List KernelType) :
    ∃ d : Dialogue FunctionGraph,
      (∀ call cache, BuildM.runCall (f.build (ctx.calling call) types) cache = d.run call cache) ∧
      d.Consults f.calls ∧ ((∀ ty ∈ types, ty.Bounded) →
        d.Yields KernelType.Bounded FunctionGraph.Settled FunctionGraph.Settled) := by
  obtain ⟨d, hrun, hd, hyields⟩ := @BuildM.consults_function ctx f types
  refine ⟨d.bind fun p => .done (.ok p.1), fun call cache => ?_,
    (hd.bind fun p => Dialogue.consults_ok p.1).congr fun id => by rw [List.append_nil],
    fun htypes => Dialogue.Yields.bind (Q := fun p => p.1.Settled) (hyields htypes) fun p hp => ?_⟩
  · rw [f.build_eq, hrun, Dialogue.run_bind]
    rcases d.run call cache with ⟨r, after⟩
    cases r <;> rfl
  · exact hp

namespace Registry

variable {library : NumericLibrary} {options : Options} {r : Registry} {id : String}
  {given : List KernelType} {span : Span}

/-! ## One call -/

/-- The graph of a function for parameters of the given types, and the cache afterwards. -/
def buildWith (library : NumericLibrary) (options : Options) (r : Registry) (id : String)
    (f : FunctionDef) (types : Option (List KernelType)) : Except BuildError FunctionGraph × GraphCache :=
  BuildM.runCall (f.build (r.context library options id) (types.getD [])) r.cache

/-- What a registry may answer to a call, with the registry afterwards. -/
inductive Answers (library : NumericLibrary) (options : Options) (r : Registry) (id : String)
    (given : List KernelType) (span : Span) : Except BuildError FunctionGraph × Registry → Prop
  | unknown (hf : r.functions.get? id = none) :
    Answers library options r id given span (.error ⟨.unknownFunction id, span⟩, r)
  | arguments {f : FunctionDef} {err : BuildError} (hf : r.functions.get? id = some f)
    (htypes : paramTypes f given span = .error err) :
    Answers library options r id given span (.error err, r)
  | cached {f : FunctionDef} {types : Option (List KernelType)} {g : FunctionGraph}
    (hf : r.functions.get? id = some f) (htypes : paramTypes f given span = .ok types)
    (hg : r.cache.get? (cacheKey id types) = some g) :
    Answers library options r id given span (.ok g, r)
  | active {f : FunctionDef} {types : Option (List KernelType)}
    (hf : r.functions.get? id = some f) (htypes : paramTypes f given span = .ok types)
    (hactive : id ∈ r.active) :
    Answers library options r id given span (.error ⟨.recursiveCall id, span⟩, r)
  | failed {f : FunctionDef} {types : Option (List KernelType)} {err : BuildError} {cache : GraphCache}
    (hf : r.functions.get? id = some f) (htypes : paramTypes f given span = .ok types)
    (hidle : id ∉ r.active) (hbuild : r.buildWith library options id f types = (.error err, cache)) :
    Answers library options r id given span (.error err, { r with cache })
  | built {f : FunctionDef} {types : Option (List KernelType)} {g : FunctionGraph} {cache : GraphCache}
    (hf : r.functions.get? id = some f) (htypes : paramTypes f given span = .ok types)
    (hidle : id ∉ r.active) (hbuild : r.buildWith library options id f types = (.ok g, cache)) :
    Answers library options r id given span
      (.ok g, { r with cache := cache.insert (cacheKey id types) g })

theorem answers_instantiate (library : NumericLibrary) (options : Options) (r : Registry) (id : String)
    (given : List KernelType) (span : Span) :
    Answers library options r id given span (r.instantiate library options id given span) := by
  rw [instantiate]
  split
  · next hf => exact .unknown hf
  · next f hf =>
    split
    · next err htypes => exact .arguments hf htypes
    · next types htypes =>
      split
      · next g hg => exact .cached hf htypes hg
      · split
        · next hactive => exact .active hf htypes (by simpa using hactive)
        · next hidle =>
          have hnot : id ∉ r.active := by simpa using hidle
          dsimp only
          split
          · next g cache hbuild => exact .built hf htypes hnot hbuild
          · next err cache hbuild => exact .failed hf htypes hnot hbuild

/-- What a call leaves of a registry: only the cache may change. -/
theorem Answers.same {result : Except BuildError FunctionGraph × Registry}
    (h : Answers library options r id given span result) :
    result.2.functions = r.functions ∧ result.2.active = r.active := by
  cases h <;> exact ⟨rfl, rfl⟩

/-! ## Nested calls -/

/--
What holds of the registries in which one more function is being built holds of a registry.  A
function that is being built is not built again, so there are ever fewer left.
-/
theorem induction_enter {P : Registry → Prop}
    (step : ∀ r, (∀ id cache, r.functions.contains id = true → id ∉ r.active → P (r.enter id cache)) →
      P r) (r : Registry) : P r := by
  obtain ⟨n, hn⟩ : ∃ n, r.idle.length = n := ⟨_, rfl⟩
  induction n using Nat.strongRecOn generalizing r with
  | ind n ih =>
    refine step r fun id cache hknown hidle => ih _ ?_ _ rfl
    rw [← hn]
    exact idle_enter_lt r id cache hknown (by simpa using hidle)

/-- Building a function is a dialogue with the registry in which it is being built. -/
theorem exists_dialogue (library : NumericLibrary) (options : Options) (r : Registry) (id : String)
    (f : FunctionDef) (types : Option (List KernelType)) :
    ∃ d : Dialogue FunctionGraph,
      (∀ r : Registry, r.buildWith library options id f types =
        d.run (r.context library options id).call r.cache) ∧
      d.Consults f.calls ∧ ((∀ ty ∈ types.getD [], ty.Bounded) →
        d.Yields KernelType.Bounded FunctionGraph.Settled FunctionGraph.Settled) := by
  obtain ⟨d, hrun, hd, hyields⟩ :=
    f.exists_dialogue (r.context library options id) (types.getD [])
  exact ⟨d, fun r => hrun (r.context library options id).call r.cache, hd, hyields⟩

end Registry

/-! ## Settled graphs -/

/-- The parameters of a template have bounded types if the arguments do. -/
theorem Registry.paramTypes_bounded {f : FunctionDef} {given : List KernelType} {span : Span}
    {types : Option (List KernelType)} (h : paramTypes f given span = .ok types)
    (hgiven : ∀ ty ∈ given, ty.Bounded) : ∀ ty ∈ types.getD [], ty.Bounded := by
  intro ty hty d hd
  rcases mem_paramTypes h ty hty d hd with ⟨name, rfl⟩ | ⟨n, rfl, ty', hty', hmem⟩
  · trivial
  · exact hgiven ty' hty' _ hmem

/-- What computes each node of a cached graph is settled. -/
def GraphCache.Settled (cache : GraphCache) : Prop :=
  ∀ key g, cache.get? key = some g → g.Settled

theorem GraphCache.Settled.insert {cache : GraphCache} (h : cache.Settled) {key : String}
    {g : FunctionGraph} (hg : g.Settled) : GraphCache.Settled (cache.insert key g) :=
  Table.forall_get?_insert h key hg

/-- A registry whose cached graphs are settled provides settled graphs for bounded types. -/
theorem Registry.instantiate_settled (library : NumericLibrary) (options : Options) (r : Registry) :
    r.cache.Settled → ∀ id given span, (∀ ty ∈ given, ty.Bounded) →
      (r.instantiate library options id given span).2.cache.Settled ∧
        ∀ g, (r.instantiate library options id given span).1 = .ok g → g.Settled := by
  induction r using Registry.induction_enter with
  | step r ih =>
    intro hcache id given span hgiven
    -- The callees answer by induction on the definitions that are not active.
    have hbuild {f : FunctionDef} {types : Option (List KernelType)}
        {result : Except BuildError FunctionGraph × GraphCache}
        (hf : r.functions.get? id = some f) (htypes : paramTypes f given span = .ok types)
        (hidle : id ∉ r.active) (hresult : r.buildWith library options id f types = result) :
        result.2.Settled ∧ ∀ g, result.1 = .ok g → g.Settled := by
      have hknown : r.functions.contains id = true := by simp [Table.contains, hf]
      have hserves : Dialogue.Serves (r.context library options id).call GraphCache.Settled
          KernelType.Bounded FunctionGraph.Settled f.calls :=
        fun callee _ types span cache htypes hcache =>
          ih id cache hknown hidle hcache callee types span htypes
      obtain ⟨d, hrun, hd, hyields⟩ := r.exists_dialogue library options id f types
      rw [← hresult, hrun]
      exact Dialogue.run_yields hserves hd.asks (hyields (paramTypes_bounded htypes hgiven)) hcache
    have hanswers := r.answers_instantiate library options id given span
    generalize r.instantiate library options id given span = result at hanswers
    cases hanswers with
    | unknown _ | arguments _ _ | active _ _ _ => exact ⟨hcache, fun _ h => by cases h⟩
    | cached _ _ hg => exact ⟨hcache, fun g h => Except.ok.inj h ▸ hcache _ _ hg⟩
    | failed hf htypes hidle hresult =>
      exact ⟨(hbuild hf htypes hidle hresult).1, fun _ h => by cases h⟩
    | built hf htypes hidle hresult =>
      obtain ⟨hafter, hgraph⟩ := hbuild hf htypes hidle hresult
      exact ⟨hafter.insert (hgraph _ rfl), fun g hg => Except.ok.inj hg ▸ hgraph _ rfl⟩

/-- In the graph of a main function it is settled what computes each node. -/
theorem buildGraph_settled {defs : List FunctionDef} {main : String} {options : Options}
    {g : FunctionGraph} (h : buildGraph defs main options = .ok g) : g.Settled := by
  have hempty : (Registry.ofDefs defs).cache.Settled := by
    intro key g hg
    cases hg
  have hnone : ∀ ty ∈ ([] : List KernelType), ty.Bounded := fun ty hty => by cases hty
  unfold buildGraph at h
  split at h
  · split at h
    · cases h
    · exact (Registry.instantiate_settled _ _ _ hempty _ _ _ hnone).2 g h
  · exact (Registry.instantiate_settled _ _ _ hempty _ _ _ hnone).2 g h

end TensorKernel
