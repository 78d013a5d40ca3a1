import TensorKernel.Proofs.Recursion

/-!
# The cache of a registry

What a registry answers to a call does not depend on what it has built before.  The cache only holds
graphs of functions from which every chain of calls ends, and each of them is the one that a registry
without a cache builds.  For such a function it does not matter what is being built either, so that a
cached graph stands for what building it again would give, wherever the call is made.

Graphs are found by texts, and plain names keep the texts of different calls apart.
-/

namespace TensorKernel

open Relation (ReflTransGen TransGen)

/-- The functions of a module and their parameters have plain names. -/
def PlainNames (functions : Table String FunctionDef) : Prop :=
  ∀ id f, functions.get? id = some f → PlainName id ∧ ∀ p ∈ f.params, PlainName p.id

namespace Registry

variable {library : NumericLibrary} {options : Options} {functions : Table String FunctionDef}

/-- The registry that has built nothing. -/
def fresh (functions : Table String FunctionDef) : Registry := ⟨functions, .empty, []⟩

/-- What a registry that has built nothing answers to a call. -/
def freshAnswer (library : NumericLibrary) (options : Options) (functions : Table String FunctionDef)
    (id : String) (given : List KernelType) (span : Span) : Except BuildError FunctionGraph :=
  ((fresh functions).instantiate library options id given span).1

end Registry

/--
Every cached graph is what a registry that has built nothing answers to some call with its key, and
every chain of calls from the function ends.
-/
def GraphCache.Faithful (library : NumericLibrary) (options : Options)
    (functions : Table String FunctionDef) (cache : GraphCache) : Prop :=
  ∀ key g, cache.get? key = some g → ∃ id f given span types,
    functions.get? id = some f ∧ Registry.paramTypes f given span = .ok types ∧
      key = Registry.cacheKey id types ∧ Grounded functions id ∧
      Registry.freshAnswer library options functions id given span = .ok g

theorem PlainName.no_bracket {name : String} (h : PlainName name) : '(' ∉ name.toList :=
  fun hmem => h _ hmem (by decide)

theorem GraphCache.Faithful.acyclic {library : NumericLibrary} {options : Options}
    {functions : Table String FunctionDef} {cache : GraphCache}
    (h : cache.Faithful library options functions) : cache.Acyclic functions := by
  intro key g hg
  obtain ⟨id, f, given, span, types, hf, -, hkey, hgrounded, -⟩ := h key g hg
  exact ⟨id, types, hkey, by simp [Table.contains, hf], hgrounded⟩

namespace Registry

variable {library : NumericLibrary} {options : Options} {functions : Table String FunctionDef}
  {r r' : Registry} {id : String} {f : FunctionDef} {given : List KernelType} {span : Span}
  {types : Option (List KernelType)}

/-! ## Answers by their cases -/

theorem instantiate_unknown (hf : r.functions.get? id = none) :
    r.instantiate library options id given span = (.error ⟨.unknownFunction id, span⟩, r) := by
  rw [instantiate_eq_answerWith, answerWith, hf]

theorem instantiate_arguments (hf : r.functions.get? id = some f) {err : BuildError}
    (htypes : paramTypes f given span = .error err) :
    r.instantiate library options id given span = (.error err, r) := by
  rw [instantiate_eq_answerWith, answerWith, hf]
  simp only [htypes]

theorem instantiate_cached (hf : r.functions.get? id = some f)
    (htypes : paramTypes f given span = .ok types) {g : FunctionGraph}
    (hg : r.cache.get? (cacheKey id types) = some g) :
    r.instantiate library options id given span = (.ok g, r) := by
  rw [instantiate_eq_answerWith, answerWith, hf]
  simp only [htypes, hg]

/-- What is not cached is built, unless it is being built. -/
theorem instantiate_missed (hf : r.functions.get? id = some f)
    (htypes : paramTypes f given span = .ok types) (hmiss : r.cache.get? (cacheKey id types) = none) :
    (r.instantiate library options id given span).1 =
      if id ∈ r.active then .error ⟨.recursiveCall id, span⟩
      else (r.buildWith library options id f types).1 := by
  rw [instantiate_eq_answerWith, answerWith, hf]
  simp only [htypes, hmiss, List.contains_iff_mem]
  split
  · rfl
  · rcases r.buildWith library options id f types with ⟨result, cache⟩
    cases result <;> rfl

theorem freshAnswer_eq (hf : functions.get? id = some f)
    (htypes : paramTypes f given span = .ok types) :
    freshAnswer library options functions id given span =
      ((fresh functions).buildWith library options id f types).1 := by
  rw [freshAnswer, instantiate_missed hf htypes rfl]
  exact if_neg List.not_mem_nil

/-- A graph that is built as a registry without a cache builds it may be cached. -/
theorem faithful_insert {cache : GraphCache} (hcache : cache.Faithful library options functions)
    (hf : functions.get? id = some f) (htypes : paramTypes f given span = .ok types)
    (hgrounded : Grounded functions id) {g : FunctionGraph}
    (hanswer : freshAnswer library options functions id given span = .ok g) :
    GraphCache.Faithful library options functions (cache.insert (cacheKey id types) g) := by
  intro key g' hg'
  rw [Table.get?_insert] at hg'
  split at hg'
  · next hkey =>
    exact ⟨id, f, given, span, types, hf, htypes, hkey, hgrounded, Option.some.inj hg' ▸ hanswer⟩
  · exact hcache key g' hg'

/-! ## What is being built -/

/-- While a function is being called, whatever is being built calls it. -/
def Chained (functions : Table String FunctionDef) (r : Registry) (id : String) : Prop :=
  ∀ other ∈ r.active, TransGen (Calls functions) other id

theorem Chained.enter {callee : String} (h : Chained functions r id)
    (hstep : Calls functions id callee) (cache : GraphCache) :
    Chained functions (r.enter id cache) callee := by
  intro other hmem
  rcases List.mem_cons.mp hmem with rfl | hmem
  · exact .single hstep
  · exact .tail (h other hmem) hstep

/-- What is being built calls the function, so it is not called by the function. -/
theorem Chained.avoids (h : Chained functions r id) (hgrounded : Grounded functions id) :
    ∀ other, ReflTransGen (Calls functions) id other → other ∉ r.active :=
  fun other hreach hmem => (hgrounded.trans hreach).irrefl (TransGen.trans_left (h other hmem) hreach)

/-! ## Answers that do not depend on the registry -/

/-- A registry of faithful graphs in which nothing is being built that may be called from a function. -/
structure Offers (library : NumericLibrary) (options : Options) (functions : Table String FunctionDef)
    (r : Registry) (id : String) : Prop where
  same : r.functions = functions
  faithful : r.cache.Faithful library options functions
  idle : ∀ other, ReflTransGen (Calls functions) id other → other ∉ r.active

/-- All registries give the answers to a function that the one that has built nothing gives. -/
def AnsweredAlike (library : NumericLibrary) (options : Options)
    (functions : Table String FunctionDef) (id : String) : Prop :=
  ∀ r : Registry, Offers library options functions r id → ∀ given span,
    (r.instantiate library options id given span).1 =
        freshAnswer library options functions id given span ∧
      (r.instantiate library options id given span).2.cache.Faithful library options functions

theorem offers_fresh : Offers library options functions (fresh functions) id :=
  ⟨rfl, nofun, fun _ _ => List.not_mem_nil⟩

/-- While a function is built whose chains of calls end, its callees are offered as well. -/
theorem Offers.enter {callee : String} (h : Offers library options functions r id)
    (hgrounded : Grounded functions id) (hstep : Calls functions id callee) {cache : GraphCache}
    (hcache : cache.Faithful library options functions) :
    Offers library options functions (r.enter id cache) callee := by
  refine ⟨h.same, hcache, fun other hreach hmem => ?_⟩
  rcases List.mem_cons.mp hmem with rfl | hmem
  · exact hgrounded.irrefl (TransGen.head' hstep hreach)
  · exact h.idle other (.head hstep hreach) hmem

/-- What is built of a function does not depend on the registry if its callees are answered alike. -/
theorem buildWith_alike (hgrounded : Grounded functions id)
    (hcallees : ∀ callee, Calls functions id callee → AnsweredAlike library options functions callee)
    (hf : functions.get? id = some f) (types : Option (List KernelType))
    (h : Offers library options functions r id) (h' : Offers library options functions r' id) :
    (r.buildWith library options id f types).1 = (r'.buildWith library options id f types).1 ∧
      (r.buildWith library options id f types).2.Faithful library options functions := by
  have hcalls {callee : String} (hcallee : callee ∈ f.calls) {r : Registry}
      (h : Offers library options functions r id) (cache : GraphCache)
      (hcache : cache.Faithful library options functions) :=
    have hstep : Calls functions id callee := ⟨f, hf, hcallee⟩
    hcallees callee hstep (r.enter id cache) (h.enter hgrounded hstep hcache)
  obtain ⟨d, hrun, hd, -⟩ := r.exists_dialogue library options id f types
  have hmaintains {r : Registry} (h : Offers library options functions r id) :
      Dialogue.Maintains (r.context library options id).call
        (GraphCache.Faithful library options functions) f.calls :=
    fun callee hcallee types span cache hcache => (hcalls hcallee h cache hcache types span).2
  rw [hrun r, hrun r']
  refine ⟨Dialogue.run_agree (hmaintains h) (hmaintains h') ?_ hd.asks h.faithful h'.faithful,
    Dialogue.run_maintains (hmaintains h) hd.asks h.faithful⟩
  intro callee hcallee types span cache cache' hcache hcache'
  exact (hcalls hcallee h cache hcache types span).1.trans
    (hcalls hcallee h' cache' hcache' types span).1.symm

/-! ## Functions from which every chain of calls ends -/

section Faithful

variable (hplain : PlainNames functions)
include hplain

/-- What is cached for a call is what a registry that has built nothing answers. -/
theorem freshAnswer_of_cached {cache : GraphCache} (hcache : cache.Faithful library options functions)
    (hf : functions.get? id = some f) (htypes : paramTypes f given span = .ok types)
    {g : FunctionGraph} (hg : cache.get? (cacheKey id types) = some g) :
    Grounded functions id ∧ freshAnswer library options functions id given span = .ok g := by
  obtain ⟨id', f', given', span', types', hf', htypes', hkey, hgrounded, hanswer⟩ := hcache _ _ hg
  obtain rfl := cacheKey_id (hplain id f hf).1.no_bracket (hplain id' f' hf').1.no_bracket hkey
  obtain rfl := Option.some.inj (hf.symm.trans hf')
  obtain rfl := cacheKey_types (fun tys h => keyed_paramTypes (hplain id f hf).2 (h ▸ htypes))
    (fun tys h => keyed_paramTypes (hplain id f hf).2 (h ▸ htypes')) hkey
  refine ⟨hgrounded, ?_⟩
  rw [freshAnswer_eq hf htypes, ← freshAnswer_eq hf htypes', hanswer]

/--
A function from which every chain of calls ends has one answer, whatever is cached, and whatever else
is being built.
-/
theorem answer_of_grounded (hgrounded : Grounded functions id) :
    AnsweredAlike library options functions id := by
  induction hgrounded with
  | intro id hacc ih =>
    have hgrounded : Grounded functions id := ⟨id, hacc⟩
    intro r h given span
    have hanswers := r.answers_instantiate library options id given span
    generalize hresult : r.instantiate library options id given span = result at hanswers
    have hfresh {f : FunctionDef} {types : Option (List KernelType)}
        (hf : functions.get? id = some f) (htypes : paramTypes f given span = .ok types) :
        freshAnswer library options functions id given span =
            (r.buildWith library options id f types).1 ∧
          (r.buildWith library options id f types).2.Faithful library options functions := by
      obtain ⟨hsame, hafter⟩ := buildWith_alike hgrounded ih hf types h offers_fresh
      exact ⟨(freshAnswer_eq hf htypes).trans hsame.symm, hafter⟩
    cases hanswers with
    | unknown hf =>
      have hf' : (fresh functions).functions.get? id = none := h.same ▸ hf
      exact ⟨by rw [freshAnswer, instantiate_unknown hf'], h.faithful⟩
    | @arguments f _ hf htypes =>
      have hf' : (fresh functions).functions.get? id = some f := h.same ▸ hf
      exact ⟨by rw [freshAnswer, instantiate_arguments hf' htypes], h.faithful⟩
    | cached hf htypes hg =>
      exact ⟨(freshAnswer_of_cached hplain h.faithful (h.same ▸ hf) htypes hg).2.symm, h.faithful⟩
    | active _ _ hmem => exact absurd hmem (h.idle id .refl)
    | failed hf htypes _ hbuilt =>
      have hanswer := hfresh (h.same ▸ hf) htypes
      rw [hbuilt] at hanswer
      exact ⟨hanswer.1.symm, hanswer.2⟩
    | built hf htypes _ hbuilt =>
      have hanswer := hfresh (h.same ▸ hf) htypes
      rw [hbuilt] at hanswer
      exact ⟨hanswer.1.symm,
        faithful_insert hanswer.2 (h.same ▸ hf) htypes hgrounded hanswer.1⟩

/-! ## All functions -/

/-- What is cached after a call is still what a registry that has built nothing answers. -/
theorem instantiate_faithful (r : Registry) :
    r.functions = functions → r.cache.Faithful library options functions → ∀ id,
      Chained functions r id → ∀ given span,
      (r.instantiate library options id given span).2.cache.Faithful library options functions := by
  induction r using induction_enter with
  | step r ih =>
    intro hr hcache id hchain given span
    by_cases hgrounded : Grounded functions id
    · exact (answer_of_grounded hplain hgrounded r ⟨hr, hcache, hchain.avoids hgrounded⟩ given span).2
    · have hacyclic := (instantiate_grounded library options (fun id hid => ?_) r hr
        hcache.acyclic id given span).2
      have hanswers := r.answers_instantiate library options id given span
      generalize r.instantiate library options id given span = result at hanswers hacyclic
      cases hanswers with
      | unknown _ | arguments _ _ | active _ _ _ | cached _ _ _ => exact hcache
      | @failed f types _ _ hf _ hidle hbuilt =>
        have hf' : functions.get? id = some f := hr ▸ hf
        obtain ⟨d, hrun, hd, -⟩ := r.exists_dialogue library options id f types
        have hmaintains : Dialogue.Maintains (r.context library options id).call
            (GraphCache.Faithful library options functions) f.calls :=
          fun callee hcallee types span cache hcache =>
            ih id cache (by simp [Table.contains, hf]) hidle hr hcache callee
              (hchain.enter ⟨f, hf', hcallee⟩ cache) types span
        have hafter := Dialogue.run_maintains hmaintains hd.asks hcache
        rwa [← hrun, hbuilt] at hafter
      | built _ _ _ _ => exact absurd (hacyclic _ rfl) hgrounded
      obtain ⟨f, hf⟩ := Table.get?_eq_some_of_contains hid
      exact (hplain id f hf).1.no_bracket

/--
Registries in which the same functions are being built give the same answer, whatever is cached.  A
function from which some chain of calls never ends is not cached, and its calls are answered alike.
-/
theorem answer_congr (r : Registry) :
    r.functions = functions → r.cache.Faithful library options functions → ∀ r' : Registry,
      r'.functions = functions → r'.cache.Faithful library options functions → r'.active = r.active →
      ∀ id, Chained functions r id → ∀ given span,
        (r.instantiate library options id given span).1 =
          (r'.instantiate library options id given span).1 := by
  induction r using induction_enter with
  | step r ih =>
    intro hr hcache r' hr' hcache' hactive id hchain given span
    have hchain' : Chained functions r' id := by rwa [Chained, hactive]
    -- A grounded function has one answer; any other one is never cached, so that both build it.
    by_cases hgrounded : Grounded functions id
    · have hanswer := answer_of_grounded hplain hgrounded r ⟨hr, hcache, hchain.avoids hgrounded⟩
      have hanswer' := answer_of_grounded hplain hgrounded r'
        ⟨hr', hcache', hchain'.avoids hgrounded⟩
      exact (hanswer given span).1.trans (hanswer' given span).1.symm
    · cases hf : functions.get? id with
      | none => rw [instantiate_unknown (hr ▸ hf), instantiate_unknown (hr' ▸ hf)]
      | some f =>
        cases htypes : paramTypes f given span with
        | error err =>
          rw [instantiate_arguments (hr ▸ hf) htypes, instantiate_arguments (hr' ▸ hf) htypes]
        | ok types =>
          have hmiss : ∀ {cache : GraphCache}, cache.Faithful library options functions →
              cache.get? (cacheKey id types) = none := fun hcache =>
            Option.eq_none_iff_forall_ne_some.mpr fun g hg =>
              hgrounded (freshAnswer_of_cached hplain hcache hf htypes hg).1
          rw [instantiate_missed (hr ▸ hf) htypes (hmiss hcache),
            instantiate_missed (hr' ▸ hf) htypes (hmiss hcache'), hactive]
          split
          · rfl
          · next hidle =>
            obtain ⟨d, hrun, hd, -⟩ := r.exists_dialogue library options id f types
            have hmaintains {r : Registry} (hr : r.functions = functions)
                (hchain : Chained functions r id) :
                Dialogue.Maintains (r.context library options id).call
                  (GraphCache.Faithful library options functions) f.calls :=
              fun callee hcallee types span cache hcache => instantiate_faithful hplain
                (r.enter id cache) hr hcache callee (hchain.enter ⟨f, hf, hcallee⟩ cache) types span
            rw [hrun r, hrun r']
            refine Dialogue.run_agree (hmaintains hr hchain) (hmaintains hr' hchain') ?_ hd.asks
              hcache hcache'
            intro callee hcallee types span cache cache' hcache hcache'
            exact ih id cache (by simp [Table.contains, hr, hf]) hidle hr hcache
              (r'.enter id cache') hr' hcache' (congrArg (id :: ·) hactive) callee
              (hchain.enter ⟨f, hf, hcallee⟩ cache) types span

end Faithful

/-! ## Sessions -/

theorem faithful_after (hplain : PlainNames functions) (requests : List Request) :
    ∀ r : Registry, r.functions = functions → r.active = [] →
      r.cache.Faithful library options functions →
      (r.after library options requests).cache.Faithful library options functions := by
  induction requests with
  | nil => exact fun _ _ _ h => h
  | cons q requests ih =>
    intro r hr hactive hcache
    obtain ⟨hfunctions, hsame⟩ := (r.answers_instantiate library options q.id q.given q.span).same
    refine ih _ (hfunctions.trans hr) (hsame.trans hactive) ?_
    exact instantiate_faithful hplain r hr hcache q.id (by simp [Chained, hactive]) q.given q.span

/--
After any number of calls, successful or not, no function is being built, and a call is answered as
by a registry that holds the same definitions and has built nothing.
-/
theorem instantiate_after (library : NumericLibrary) (options : Options) (defs : List FunctionDef)
    (hplain : ∀ f ∈ defs, PlainName f.id ∧ ∀ p ∈ f.params, PlainName p.id)
    (requests : List Request) :
    ((ofDefs defs).after library options requests).active = [] ∧ ∀ id given span,
      (((ofDefs defs).after library options requests).instantiate library options id given span).1 =
        ((ofDefs defs).instantiate library options id given span).1 := by
  have hnames : PlainNames (ofDefs defs).functions := by
    intro id f hf
    obtain ⟨f', hmem, heq⟩ := List.mem_map.mp (Table.mem_of_get?_ofList hf)
    obtain ⟨rfl, rfl⟩ := Prod.mk.inj heq
    exact hplain f' hmem
  have hempty : (ofDefs defs).cache.Faithful library options (ofDefs defs).functions := nofun
  obtain ⟨hfunctions, hactive⟩ := (ofDefs defs).after_same library options requests
  refine ⟨hactive, fun id given span => ?_⟩
  refine answer_congr hnames _ hfunctions (faithful_after hnames requests _ rfl rfl hempty)
    (ofDefs defs) rfl hempty hactive.symm id (fun other hmem => ?_) given span
  rw [hactive] at hmem
  cases hmem

/-- A template that adds its argument to itself, and a main function that calls it. -/
def doublingModule : List FunctionDef :=
  [returning "twice" "x" none (.binary (.name "x" .nowhere) .add (.name "x" .nowhere) .nowhere),
    returning "main" "x" (some "int64") (calling "twice" (.name "x" .nowhere))]

/-- Calls of which the second one fails. -/
def doublingRequests : List Request :=
  [⟨"twice", [.tensor .i8 [.sym "M"]], .nowhere⟩, ⟨"twice", [], .nowhere⟩, ⟨"main", [], .nowhere⟩]

theorem instantiate_after_doublingModule :
    (((ofDefs doublingModule).after .standard .default doublingRequests).instantiate .standard
        .default "main" [] .nowhere).1 =
      ((ofDefs doublingModule).instantiate .standard .default "main" [] .nowhere).1 :=
  (instantiate_after .standard .default doublingModule (by decide) _).2 "main" [] .nowhere

/-- A template, and a function whose name is the key of that template for an argument of 64 bits. -/
def collidingNames : List FunctionDef :=
  [returning "f(int64)" "y" (some "int64") (.name "y" .nowhere),
    returning "f" "y" none (.binary (.name "y" .nowhere) .add (.name "y" .nowhere) .nowhere)]

/-- A template whose second parameter is named like a dimension and the start of a symbol. -/
def collidingParams : List FunctionDef :=
  [⟨"f", [⟨"q", none, .nowhere⟩, ⟨"1, q", none, .nowhere⟩], .missing,
    [.returns (some (.name "q" .nowhere)) .nowhere], .nowhere⟩]

/-- With separators in the names of functions or of parameters, different calls share a key. -/
theorem instantiate_after_collision :
    (∃ requests, (((ofDefs collidingNames).after .standard .default requests).instantiate .standard
        .default "f" [.scalar .i64] .nowhere).1 ≠
      ((ofDefs collidingNames).instantiate .standard .default "f" [.scalar .i64] .nowhere).1) ∧
    ∃ requests, (((ofDefs collidingParams).after .standard .default requests).instantiate .standard
        .default "f" [.tensor .i8 [.sym "M"], .tensor .i8 [.const 1, .sym "M"]] .nowhere).1 ≠
      ((ofDefs collidingParams).instantiate .standard .default "f"
        [.tensor .i8 [.sym "M"], .tensor .i8 [.const 1, .sym "M"]] .nowhere).1 := by
  have hsize {l r : Except BuildError FunctionGraph}
      (h : l.toOption.map (·.graph.nodes.size) ≠ r.toOption.map (·.graph.nodes.size)) : l ≠ r :=
    fun heq => h (heq ▸ rfl)
  refine ⟨⟨[⟨"f(int64)", [], .nowhere⟩], hsize ?_⟩,
    ⟨[⟨"f", [.tensor .i8 [.sym "M"], .tensor .i8 [.sym "K"]], .nowhere⟩], hsize ?_⟩⟩
  · decide +kernel
  · decide +kernel

end Registry

end TensorKernel
