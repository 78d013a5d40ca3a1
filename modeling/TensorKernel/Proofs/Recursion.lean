import TensorKernel.Proofs.Build.CacheKey
import TensorKernel.Proofs.Build.Instantiation

/-!
# Recursive kernels

Functions are built on demand, and a function that is being built is not built again.  So no more
functions are ever being built at once than there are definitions.  A function from which some chain
of calls never ends is not built: the calls of a built function were all answered, and what is cached
was built before.  And only such a function is refused as recursive.

A cached graph is found by a text.  That it belongs to the function that is called relies on names
without brackets.
-/

namespace TensorKernel

open Relation (ReflTransGen TransGen)

/-! ## Calls -/

/-- The body of a function calls another function by its bare name. -/
def Calls (functions : Table String FunctionDef) (caller callee : String) : Prop :=
  ∃ f, functions.get? caller = some f ∧ callee ∈ f.calls

/-- Every chain of calls that starts with a function ends. -/
def Grounded (functions : Table String FunctionDef) (id : String) : Prop :=
  Acc (fun callee caller => Calls functions caller callee) id

section Grounded

variable {functions : Table String FunctionDef} {id callee : String}

theorem Grounded.trans (h : Grounded functions id) (hcalls : ReflTransGen (Calls functions) id callee) :
    Grounded functions callee := by
  induction hcalls with
  | refl => exact h
  | tail _ hstep ih => exact ih.inv hstep

/-- A function from which every chain of calls ends calls itself in no way. -/
theorem Grounded.irrefl (h : Grounded functions id) : ¬ TransGen (Calls functions) id id := by
  have hirrefl := h.transGen
  induction hirrefl with
  | intro id _ ih =>
    intro hcycle
    have hcycle' : TransGen (fun callee caller => Calls functions caller callee) id id :=
      Relation.transGen_swap.mpr hcycle
    exact ih id hcycle' h hcycle

end Grounded

/-- Every cached graph is that of a function from which every chain of calls ends. -/
def GraphCache.Acyclic (functions : Table String FunctionDef) (cache : GraphCache) : Prop :=
  ∀ key g, cache.get? key = some g → ∃ id types, key = Registry.cacheKey id types ∧
    functions.contains id = true ∧ Grounded functions id

namespace Registry

variable {library : NumericLibrary} {options : Options} {functions : Table String FunctionDef}

/-- A registry builds a function only if every chain of calls from it ends. -/
theorem instantiate_grounded (library : NumericLibrary) (options : Options)
    (hnames : ∀ id, functions.contains id = true → '(' ∉ id.toList) (r : Registry) :
    r.functions = functions → r.cache.Acyclic functions → ∀ id given span,
      (r.instantiate library options id given span).2.cache.Acyclic functions ∧
        ∀ g, (r.instantiate library options id given span).1 = .ok g → Grounded functions id := by
  induction r using induction_enter with
  | step r ih =>
    intro hr hcache id given span
    have hknown {f : FunctionDef} (hf : r.functions.get? id = some f) :
        functions.contains id = true := by simp [Table.contains, ← hr, hf]
    have hbuild {f : FunctionDef} {types : Option (List KernelType)}
        {result : Except BuildError FunctionGraph × GraphCache}
        (hf : r.functions.get? id = some f) (hidle : id ∉ r.active)
        (hresult : r.buildWith library options id f types = result) :
        result.2.Acyclic functions ∧ ∀ g, result.1 = .ok g → Grounded functions id := by
      have hcalls (cache : GraphCache) := ih id cache (hr ▸ hknown hf) hidle hr
      obtain ⟨d, hrun, hd, -⟩ := r.exists_dialogue library options id f types
      have hmaintains : Dialogue.Maintains (r.context library options id).call
          (GraphCache.Acyclic functions) f.calls :=
        fun callee _ types span cache hcache => (hcalls cache hcache callee types span).1
      rw [← hresult, hrun]
      refine ⟨Dialogue.run_maintains hmaintains hd.asks hcache, fun g hg => ⟨id, ?_⟩⟩
      -- Every call was answered, so every chain of calls from there ends.
      rintro callee ⟨f', hf', hcallee⟩
      obtain rfl := Option.some.inj (hf.symm.trans (hr ▸ hf'))
      obtain ⟨types', span', before, hbefore, g', hg'⟩ :=
        Dialogue.exists_answer hmaintains hd.asks (hd.demands callee hcallee) hcache hg
      exact (hcalls before hbefore callee types' span').2 g' hg'
    have hanswers := r.answers_instantiate library options id given span
    generalize r.instantiate library options id given span = result at hanswers
    cases hanswers with
    | unknown _ | arguments _ _ | active _ _ _ => exact ⟨hcache, fun _ h => by cases h⟩
    | cached hf _ hg =>
      refine ⟨hcache, fun _ _ => ?_⟩
      obtain ⟨id', types', hkey, hid', hgrounded⟩ := hcache _ _ hg
      rwa [cacheKey_id (hnames id (hknown hf)) (hnames id' hid') hkey]
    | failed hf _ hidle hresult => exact ⟨(hbuild hf hidle hresult).1, fun _ h => by cases h⟩
    | built hf _ hidle hresult =>
      obtain ⟨hafter, hgraph⟩ := hbuild hf hidle hresult
      refine ⟨fun key g' hg' => ?_, fun g hg => hgraph _ rfl⟩
      rw [Table.get?_insert] at hg'
      split at hg'
      · next hkey => exact ⟨id, _, hkey, hknown hf, hgraph _ rfl⟩
      · exact hafter key g' hg'

/--
If a call is refused as recursive then the function it names is called in turn, and it is being
built or calls itself.
-/
theorem recursion_cases (library : NumericLibrary) (options : Options) (r : Registry) :
    r.functions = functions → ∀ id given span err g,
      (r.instantiate library options id given span).1 = .error err → err.fault = .recursiveCall g →
        ReflTransGen (Calls functions) id g ∧ (g ∈ r.active ∨ TransGen (Calls functions) g g) := by
  induction r using induction_enter with
  | step r ih =>
    intro hr id given span err g herr hfault
    have hanswers := r.answers_instantiate library options id given span
    generalize r.instantiate library options id given span = result at hanswers herr
    cases hanswers with
    | unknown _ =>
      obtain rfl := Except.error.inj herr
      cases hfault
    | arguments _ htypes =>
      obtain rfl := Except.error.inj herr
      have hkind := paramTypes_error htypes
      rw [BuildError.kind, hfault] at hkind
      cases hkind
    | cached _ _ _ => cases herr
    | active _ _ hactive =>
      obtain rfl := Except.error.inj herr
      obtain rfl := BuildFault.recursiveCall.inj hfault
      exact ⟨.refl, Or.inl hactive⟩
    | @failed f types err' cache hf _ hidle hresult =>
      obtain rfl := Except.error.inj herr
      obtain ⟨d, hrun, hd, -⟩ := r.exists_dialogue library options id f types
      have hmaintains : Dialogue.Maintains (r.context library options id).call (fun _ => True)
          f.calls := fun _ _ _ _ _ _ => trivial
      have hrun' := congrArg Prod.fst ((hrun r).symm.trans hresult)
      rcases Dialogue.error_cases hmaintains hd.asks hd.fails trivial hrun' with
        hown | ⟨callee, hcallee, types', span', before, -, hcall⟩
      · exact absurd hfault (hown g)
      -- The failure is one of a call, so the function it names is called from the callee in turn.
      · have hknown : r.functions.contains id = true := by simp [Table.contains, hf]
        have hstep : Calls functions id callee := ⟨f, hr ▸ hf, hcallee⟩
        obtain ⟨hreach, hcases⟩ := ih id before hknown hidle hr callee types' span' err' g hcall hfault
        refine ⟨.head hstep hreach, ?_⟩
        rcases hcases with hactive | hcycle
        · rcases List.mem_cons.mp hactive with rfl | hactive
          · exact Or.inr (TransGen.head' hstep hreach)
          · exact Or.inl hactive
        · exact Or.inr hcycle
    | built _ _ _ _ => cases herr

/-! ## Nesting -/

/-- What a registry answers to a call, if functions are built in the given way. -/
def answerWith (r : Registry)
    (build : String → FunctionDef → Option (List KernelType) →
      Except BuildError FunctionGraph × GraphCache)
    (id : String) (given : List KernelType) (span : Span) :
    Except BuildError FunctionGraph × Registry :=
  match r.functions.get? id with
  | none => (.error ⟨.unknownFunction id, span⟩, r)
  | some f =>
    match paramTypes f given span with
    | .error err => (.error err, r)
    | .ok types =>
      match r.cache.get? (cacheKey id types) with
      | some g => (.ok g, r)
      | none =>
        if r.active.contains id then (.error ⟨.recursiveCall id, span⟩, r)
        else
          match build id f types with
          | (.ok g, cache) => (.ok g, { r with cache := cache.insert (cacheKey id types) g })
          | (.error err, cache) => (.error err, { r with cache })

theorem instantiate_eq_answerWith (library : NumericLibrary) (options : Options) (r : Registry) :
    r.instantiate library options = r.answerWith (r.buildWith library options) := by
  funext id given span
  rw [instantiate, answerWith]
  split
  · next hf => rw [hf]
  · next f hf =>
    rw [hf]
    rfl

/-- Ways to build that agree on the functions that may be built give the same answers. -/
theorem answerWith_congr {r : Registry}
    {build build' : String → FunctionDef → Option (List KernelType) →
      Except BuildError FunctionGraph × GraphCache}
    (h : ∀ id f types, r.functions.get? id = some f → id ∉ r.active →
      build id f types = build' id f types) : r.answerWith build = r.answerWith build' := by
  funext id given span
  unfold answerWith
  cases hf : r.functions.get? id with
  | none => rfl
  | some f =>
    dsimp only
    cases paramTypes f given span with
    | error err => rfl
    | ok types =>
      dsimp only
      cases r.cache.get? (cacheKey id types) with
      | some g => rfl
      | none =>
        dsimp only
        split
        · rfl
        · next hidle => rw [h id f types hf (by simpa using hidle)]

/--
What a registry answers if no more than a number of functions may be being built at once.  Functions
that would be built beyond that are built in some other way.
-/
def instantiateWithin (library : NumericLibrary) (options : Options)
    (deeper : Registry → String → FunctionDef → Option (List KernelType) →
      Except BuildError FunctionGraph × GraphCache) :
    Nat → Registry → String → List KernelType → Span → Except BuildError FunctionGraph × Registry
  | 0, r => r.answerWith (deeper r)
  | n + 1, r => r.answerWith fun id f types =>
    BuildM.runCall (f.build
      { options, library
        call := fun callee types span cache =>
          let (result, after) :=
            instantiateWithin library options deeper n (r.enter id cache) callee types span
          (result, after.cache) }
      (types.getD [])) r.cache

/-- No more functions are being built at once than were not being built before. -/
theorem instantiateWithin_eq (library : NumericLibrary) (options : Options)
    (deeper : Registry → String → FunctionDef → Option (List KernelType) →
      Except BuildError FunctionGraph × GraphCache) (n : Nat) :
    ∀ r : Registry, r.idle.length ≤ n →
      instantiateWithin library options deeper n r = r.instantiate library options := by
  induction n with
  | zero =>
    intro r hr
    rw [instantiate_eq_answerWith]
    refine answerWith_congr fun id f types hf hidle => ?_
    -- Nothing is left to build.
    have hlt := idle_enter_lt r id r.cache (by simp [Table.contains, hf]) (by simpa using hidle)
    omega
  | succ n ih =>
    intro r hr
    rw [instantiate_eq_answerWith]
    refine answerWith_congr fun id f types hf hidle => ?_
    have hnested (cache : GraphCache) : instantiateWithin library options deeper n
        (r.enter id cache) = (r.enter id cache).instantiate library options := by
      refine ih _ (Nat.le_of_lt_succ (Nat.lt_of_lt_of_le ?_ hr))
      exact idle_enter_lt r id cache (by simp [Table.contains, hf]) (by simpa using hidle)
    simp only [hnested]
    rfl

/-- The functions of a module that are not being built are no more than its definitions. -/
theorem idle_ofDefs_le (defs : List FunctionDef) : (ofDefs defs).idle.length ≤ defs.length := by
  refine (List.length_filter_le _ _).trans ?_
  have hkeys := Table.length_keys_ofList_le (defs.map fun f => (f.id, f))
  rwa [List.length_map] at hkeys

/-! ## Sessions -/

/-- A call of a function with arguments of the given types, at a place in the source. -/
structure Request where
  id : String
  given : List KernelType
  span : Span

/-- The registry after a number of calls, whether they succeeded or not. -/
def after (library : NumericLibrary) (options : Options) (r : Registry) (requests : List Request) :
    Registry :=
  requests.foldl (fun r q => (r.instantiate library options q.id q.given q.span).2) r

/-- Calls leave the functions of a registry as they are, and none of them is being built. -/
theorem after_same (library : NumericLibrary) (options : Options) (requests : List Request) :
    ∀ r : Registry, (r.after library options requests).functions = r.functions ∧
      (r.after library options requests).active = r.active := by
  induction requests with
  | nil => exact fun r => ⟨rfl, rfl⟩
  | cons q requests ih =>
    intro r
    obtain ⟨hfunctions, hactive⟩ := (r.answers_instantiate library options q.id q.given q.span).same
    obtain ⟨hfunctions', hactive'⟩ := ih (r.instantiate library options q.id q.given q.span).2
    exact ⟨hfunctions'.trans hfunctions, hactive'.trans hactive⟩

end Registry

/-! ## Modules -/

/-- A function of a module calls another function by its bare name. -/
def ModuleCalls (defs : List FunctionDef) (caller callee : String) : Prop :=
  ∃ f ∈ defs, f.id = caller ∧ callee ∈ f.calls

section Modules

variable {defs : List FunctionDef}

theorem ModuleCalls.of_calls {caller callee : String}
    (h : Calls (Registry.ofDefs defs).functions caller callee) : ModuleCalls defs caller callee := by
  obtain ⟨f, hf, hcallee⟩ := h
  obtain ⟨f', hmem, heq⟩ := List.mem_map.mp (Table.mem_of_get?_ofList hf)
  obtain ⟨hid, rfl⟩ := Prod.mk.inj heq
  exact ⟨f', hmem, hid, hcallee⟩

/-- With different names every definition of a module counts. -/
theorem ModuleCalls.calls (hdistinct : (defs.map FunctionDef.id).Nodup) {caller callee : String}
    (h : ModuleCalls defs caller callee) :
    Calls (Registry.ofDefs defs).functions caller callee := by
  obtain ⟨f, hmem, rfl, hcallee⟩ := h
  refine ⟨f, Table.get?_ofList_of_mem ?_ (List.mem_map_of_mem hmem), hcallee⟩
  rwa [List.map_map]

/-- The graph of a main function is built by the registry of its module. -/
theorem buildGraph_cases (defs : List FunctionDef) (main : String) (options : Options) :
    (∃ f, buildGraph defs main options = .error ⟨.templateMain main, f⟩) ∨
      ∃ span, buildGraph defs main options =
        ((Registry.ofDefs defs).instantiate .standard options main [] span).1 := by
  unfold buildGraph
  split
  · split
    · exact Or.inl ⟨_, rfl⟩
    · exact Or.inr ⟨_, rfl⟩
  · exact Or.inr ⟨_, rfl⟩

/-- A registry that only builds what does not call itself has no graph of a main function that does. -/
theorem buildGraph_grounded (hnames : ∀ f ∈ defs, '(' ∉ f.id.toList) {main : String}
    {options : Options} {g : FunctionGraph} (h : buildGraph defs main options = .ok g) :
    Grounded (Registry.ofDefs defs).functions main := by
  have hplain : ∀ id, (Registry.ofDefs defs).functions.contains id = true → '(' ∉ id.toList := by
    intro id hid
    obtain ⟨f, hf⟩ := Table.get?_eq_some_of_contains hid
    obtain ⟨f', hmem, heq⟩ := List.mem_map.mp (Table.mem_of_get?_ofList hf)
    exact (Prod.mk.inj heq).1 ▸ hnames f' hmem
  have hempty : (Registry.ofDefs defs).cache.Acyclic (Registry.ofDefs defs).functions := nofun
  rcases buildGraph_cases defs main options with ⟨f, hresult⟩ | ⟨span, hresult⟩
  · rw [hresult] at h
    cases h
  · rw [hresult] at h
    exact (Registry.instantiate_grounded .standard options hplain _ rfl hempty main [] span).2 g h

/--
Building is bounded and refuses exactly recursion as recursive: no more functions are being built at
once than there are definitions; a main function that leads to recursive calls has no graph; and a
call that is refused as recursive, now or after any number of other calls, is recursive.
-/
theorem buildGraph_recursion (hdistinct : (defs.map FunctionDef.id).Nodup)
    (hnames : ∀ f ∈ defs, '(' ∉ f.id.toList) (main : String) (options : Options) :
    (∀ deeper span, Registry.instantiateWithin .standard options deeper defs.length
        (Registry.ofDefs defs) main [] span =
      (Registry.ofDefs defs).instantiate .standard options main [] span) ∧
    ((∃ g, ReflTransGen (ModuleCalls defs) main g ∧ TransGen (ModuleCalls defs) g g) →
      ∃ err, buildGraph defs main options = .error err) ∧
    (∀ err g, buildGraph defs main options = .error err → err.fault = .recursiveCall g →
      ReflTransGen (ModuleCalls defs) main g ∧ TransGen (ModuleCalls defs) g g) ∧
    ∀ library requests id given span err g,
      (((Registry.ofDefs defs).after library options requests).instantiate library options id given
        span).1 = .error err → err.fault = .recursiveCall g →
      ReflTransGen (ModuleCalls defs) id g ∧ TransGen (ModuleCalls defs) g g := by
  have hrecursive : ∀ library (r : Registry), r.functions = (Registry.ofDefs defs).functions →
      r.active = [] → ∀ id given span err g,
      (r.instantiate library options id given span).1 = .error err → err.fault = .recursiveCall g →
      ReflTransGen (ModuleCalls defs) id g ∧ TransGen (ModuleCalls defs) g g := by
    intro library r hr hactive id given span err g herr hfault
    obtain ⟨hreach, hcases⟩ :=
      r.recursion_cases library options hr id given span err g herr hfault
    refine ⟨ReflTransGen.mono (fun _ _ => ModuleCalls.of_calls) _ _ hreach, ?_⟩
    rw [hactive] at hcases
    exact TransGen.mono (fun _ _ => ModuleCalls.of_calls) _ _ (hcases.resolve_left List.not_mem_nil)
  refine ⟨fun deeper span => ?_, ?_, fun err g herr hfault => ?_, fun library requests => ?_⟩
  · rw [Registry.instantiateWithin_eq _ _ _ _ _ (Registry.idle_ofDefs_le defs)]
  -- A graph would have every chain of calls end, and a cycle has none that does.
  · rintro ⟨g, hreach, hcycle⟩
    cases hresult : buildGraph defs main options with
    | error err => exact ⟨err, rfl⟩
    | ok graph =>
      have hgrounded := (buildGraph_grounded hnames hresult).trans
        (ReflTransGen.mono (fun _ _ => ModuleCalls.calls hdistinct) _ _ hreach)
      exact absurd (TransGen.mono (fun _ _ => ModuleCalls.calls hdistinct) _ _ hcycle) hgrounded.irrefl
  · rcases buildGraph_cases defs main options with ⟨f, hresult⟩ | ⟨span, hresult⟩
    · rw [hresult] at herr
      obtain rfl := Except.error.inj herr
      cases hfault
    · exact hrecursive .standard _ rfl rfl main [] span err g (hresult ▸ herr) hfault
  · obtain ⟨hfunctions, hactive⟩ :=
      (Registry.ofDefs defs).after_same library options requests
    exact hrecursive library _ hfunctions hactive

end Modules

/-- A function with a parameter of 64 bits, or a template, that returns an expression. -/
def returning (id param : String) (hint : Option String) (value : Expr) : FunctionDef :=
  ⟨id, [⟨param, hint.map fun name => .name name .nowhere, .nowhere⟩], .missing,
    [.returns (some value) .nowhere], .nowhere⟩

/-- A call of a function with one argument. -/
def calling (id : String) (arg : Expr) : Expr :=
  .call (.name id .nowhere) [arg] [] .nowhere

/-- A main function that leads to two functions which call each other. -/
def mutualModule : List FunctionDef :=
  [returning "main" "x" (some "int64") (calling "even" (.name "x" .nowhere)),
    returning "even" "x" none (calling "odd" (.name "x" .nowhere)),
    returning "odd" "x" (some "int64") (calling "even" (.name "x" .nowhere))]

theorem buildGraph_recursion_mutualModule :
    ∃ err, buildGraph mutualModule "main" .default = .error err := by
  have hmain : ModuleCalls mutualModule "main" "even" :=
    ⟨_, List.mem_cons_self .., rfl, by decide +kernel⟩
  have heven : ModuleCalls mutualModule "even" "odd" :=
    ⟨_, List.mem_cons_of_mem _ (List.mem_cons_self ..), rfl, by decide +kernel⟩
  have hodd : ModuleCalls mutualModule "odd" "even" :=
    ⟨_, List.mem_cons_of_mem _ (List.mem_cons_of_mem _ (List.mem_cons_self ..)), rfl,
      by decide +kernel⟩
  exact (buildGraph_recursion (by decide) (by decide) "main" .default).2.1
    ⟨"even", .single hmain, .head heven (.single hodd)⟩

/--
A module with a template that calls itself, and a function whose name is the key of that template
for an argument of 64 bits.
-/
def hiddenRecursion : List FunctionDef :=
  [⟨"main", [⟨"x", some (.name "int64" .nowhere), .nowhere⟩], .missing,
      [.assign (.name "a" .nowhere) (calling "f(int64)" (.name "x" .nowhere)) .nowhere,
        .returns (some (calling "f" (.name "x" .nowhere))) .nowhere], .nowhere⟩,
    returning "f(int64)" "y" (some "int64") (.name "y" .nowhere),
    returning "f" "y" none (calling "f" (.name "y" .nowhere))]

/-- A cached graph under the key of a recursive template hides the recursion. -/
theorem buildGraph_hiddenRecursion :
    (hiddenRecursion.map FunctionDef.id).Nodup ∧
      (∃ g, ReflTransGen (ModuleCalls hiddenRecursion) "main" g ∧
        TransGen (ModuleCalls hiddenRecursion) g g) ∧
      ∃ graph, buildGraph hiddenRecursion "main" .default = .ok graph := by
  have hmain : ModuleCalls hiddenRecursion "main" "f" :=
    ⟨_, List.mem_cons_self .., rfl, by decide +kernel⟩
  have hself : ModuleCalls hiddenRecursion "f" "f" :=
    ⟨_, List.mem_cons_of_mem _ (List.mem_cons_of_mem _ (List.mem_cons_self ..)), rfl,
      by decide +kernel⟩
  refine ⟨by decide, ⟨"f", .single hmain, .single hself⟩, ?_⟩
  exact exists_of_isOk (by decide +kernel)

end TensorKernel
