import TensorKernel.Proofs.Build.Generalization
import TensorKernel.Proofs.CacheTransparency

/-!
# The keys of template calls

Two calls of a template share a graph exactly if the argument types of one are those of the other up
to the dimensions that are not constants, and these are shared in the same places.
-/

namespace TensorKernel

/-- The dimension at an axis of an argument, if there is one. -/
def dimAt (given : List KernelType) (i axis : Nat) : Option Dim :=
  given[i]?.bind fun ty => ty.shape[axis]?

section Renaming

variable {σ : Dim → Dim} {given : List KernelType}

theorem dimAt_map_rename (i axis : Nat) :
    dimAt (given.map (KernelType.rename σ)) i axis = (dimAt given i axis).map (Dim.rename σ) := by
  rw [dimAt, dimAt, List.getElem?_map]
  cases given[i]? with
  | none => rfl
  | some ty => simp

theorem mem_openDims_of_dimAt {i axis : Nat} {d : Dim} (h : dimAt given i axis = some d)
    (hstatic : d.isStatic = false) : d ∈ openDims given := by
  obtain ⟨ty, hty, hd⟩ := Option.bind_eq_some_iff.mp h
  exact ⟨hstatic, ty, List.mem_of_getElem? hty, List.mem_of_getElem? hd⟩

/-- A renaming that tells the open dimensions apart keeps which places hold the same dimension. -/
theorem dimAt_map_rename_eq_iff (hinj : Set.InjOn σ (openDims given))
    (hopen : ∀ d ∈ openDims given, (σ d).isStatic = false) (i axis j axis' : Nat) :
    dimAt (given.map (KernelType.rename σ)) i axis = dimAt (given.map (KernelType.rename σ)) j axis' ↔
      dimAt given i axis = dimAt given j axis' := by
  rw [dimAt_map_rename, dimAt_map_rename]
  cases hd : dimAt given i axis with
  | none => cases dimAt given j axis' <;> simp
  | some d =>
    cases he : dimAt given j axis' with
    | none => simp
    | some e =>
      rw [Option.map_some, Option.map_some, Option.some.injEq, Option.some.injEq]
      exact Dim.rename_inj hinj hopen (mem_openDims_of_dimAt hd) (mem_openDims_of_dimAt he)

end Renaming

namespace Registry

/--
The key under which the registries of a module look for the graph of a call, and under which they
have it after the call has succeeded.
-/
structure CachedUnder (library : NumericLibrary) (options : Options)
    (functions : Table String FunctionDef) (id : String) (given : List KernelType) (span : Span)
    (key : String) : Prop where
  found : ∀ r : Registry, r.functions = functions → ∀ g, r.cache.get? key = some g →
    r.instantiate library options id given span = (.ok g, r)
  kept : ∀ r : Registry, r.functions = functions → ∀ g,
    (r.instantiate library options id given span).1 = .ok g →
      (r.instantiate library options id given span).2.cache.get? key = some g

variable {library : NumericLibrary} {options : Options} {functions : Table String FunctionDef}
  {id : String} {f : FunctionDef} {given : List KernelType} {span : Span}

/-- There is one such key: a registry finds a graph under it whatever is cached under others. -/
theorem CachedUnder.unique {key key' : String}
    (h : CachedUnder library options functions id given span key)
    (h' : CachedUnder library options functions id given span key') : key = key' := by
  -- Otherwise a cache could hold different graphs under the two, and both would be the answer.
  by_contra hne
  let named (name : String) : FunctionGraph := { (default : FunctionGraph) with name }
  let cache : GraphCache := .insert (.insert .empty key (named "f")) key' (named "g")
  have hf : cache.get? key = some (named "f") := by simp [cache, Table.get?_insert, hne]
  have hg : cache.get? key' = some (named "g") := Table.get?_insert_self ..
  have hsame := (h.found ⟨functions, cache, []⟩ rfl _ hf).symm.trans
    (h'.found ⟨functions, cache, []⟩ rfl _ hg)
  have hname := congrArg FunctionGraph.name (Except.ok.inj (Prod.mk.inj hsame).1)
  exact absurd hname (by decide)

/-- A call is cached under the text of the function's name and the types of its parameters. -/
theorem cachedUnder_cacheKey (hf : functions.get? id = some f) {types : Option (List KernelType)}
    (htypes : paramTypes f given span = .ok types) :
    CachedUnder library options functions id given span (cacheKey id types) where
  found r hr g hg := instantiate_cached (hr ▸ hf) htypes hg
  kept r hr g hg := by
    have hanswers := r.answers_instantiate library options id given span
    generalize r.instantiate library options id given span = result at hanswers hg
    have hsame {f' : FunctionDef} {types' : Option (List KernelType)}
        (hf' : r.functions.get? id = some f') (htypes' : paramTypes f' given span = .ok types') :
        types' = types := by
      obtain rfl := Option.some.inj ((hr ▸ hf' : functions.get? id = some f').symm.trans hf)
      exact Except.ok.inj (htypes'.symm.trans htypes)
    cases hanswers with
    | unknown _ | arguments _ _ | active _ _ _ | failed _ _ _ _ => cases hg
    | cached hf' htypes' hcached =>
      obtain rfl := Except.ok.inj hg
      rwa [hsame hf' htypes'] at hcached
    | built hf' htypes' _ _ =>
      obtain rfl := Except.ok.inj hg
      rw [← hsame hf' htypes']
      exact Table.get?_insert_self ..

/--
A template's calls are cached under the same key exactly if their arguments agree on being scalars or
tensors, in element size, rank and constant dimensions, and a bijection between the other dimensions
carries the arguments of one call to those of the other.  Then the same places of both calls hold the
same dimension.
-/
theorem cachedUnder_eq_iff (hf : functions.get? id = some f) (htemplate : f.isTemplate = true)
    (hplain : ∀ p ∈ f.params, PlainName p.id) (hdistinct : (f.params.map Param.id).Nodup)
    {given given' : List KernelType} (hlength : given.length = f.params.length)
    (hlength' : given'.length = f.params.length) (span span' : Span) :
    (∃ key, CachedUnder library options functions id given span key) ∧
      (∃ key', CachedUnder library options functions id given' span' key') ∧
      ∀ key key', CachedUnder library options functions id given span key →
        CachedUnder library options functions id given' span' key' →
          (key = key' ↔ List.Forall₂ KernelType.SameForm given given' ∧
            ∃ σ, Set.BijOn σ (openDims given) (openDims given') ∧
              given' = given.map (KernelType.rename σ)) ∧
          (key = key' → ∀ i axis j axis',
            dimAt given i axis = dimAt given j axis' ↔
              dimAt given' i axis = dimAt given' j axis') := by
  have htypes {given : List KernelType} (hlength : given.length = f.params.length) (span : Span) :
      paramTypes f given span = .ok (some (generalizeTypes (f.params.map Param.id) given)) := by
    rw [paramTypes, if_pos htemplate, if_pos hlength.symm]
  have hcount {given : List KernelType} (hlength : given.length = f.params.length) :
      given.length = (f.params.map Param.id).length := by
    rw [hlength, List.length_map]
  -- The key tells the types, which are a renaming of the arguments.
  have hkey : cacheKey id (some (generalizeTypes (f.params.map Param.id) given)) =
      cacheKey id (some (generalizeTypes (f.params.map Param.id) given')) ↔
      ∃ σ, Set.BijOn σ (openDims given) (openDims given') ∧
        given' = given.map (KernelType.rename σ) := by
    rw [← generalizeTypes_eq_iff (hcount hlength) hdistinct (hcount hlength')]
    refine ⟨fun h => ?_, fun h => by rw [h]⟩
    refine Option.some.inj (cacheKey_types ?_ ?_ h)
    · rintro types ⟨⟩
      exact keyed_paramTypes hplain (htypes hlength span)
    · rintro types ⟨⟩
      exact keyed_paramTypes hplain (htypes hlength' span')
  have hcached : CachedUnder library options functions id given span _ :=
    cachedUnder_cacheKey hf (htypes hlength span)
  have hcached' : CachedUnder library options functions id given' span' _ :=
    cachedUnder_cacheKey hf (htypes hlength' span')
  refine ⟨⟨_, hcached⟩, ⟨_, hcached'⟩, fun key key' h h' => ?_⟩
  rw [h.unique hcached, h'.unique hcached', hkey]
  constructor
  · refine ⟨fun ⟨σ, hσ, heq⟩ => ⟨?_, σ, hσ, heq⟩, And.right⟩
    rw [heq, List.forall₂_map_right_iff, List.forall₂_same]
    exact fun ty hty => KernelType.sameForm_rename fun d hd hstatic =>
      (hσ.mapsTo ⟨hstatic, ty, hty, hd⟩).1
  · rintro ⟨σ, hσ, rfl⟩ i axis j axis'
    exact (dimAt_map_rename_eq_iff hσ.injOn (fun d hd => (hσ.mapsTo hd).1) i axis j axis').symm

/-- A template that adds its arguments. -/
def adder : FunctionDef where
  id := "add"
  params := [⟨"x", none, .nowhere⟩, ⟨"y", none, .nowhere⟩]
  result := .missing
  body := [.returns (some (.binary (.name "x" .nowhere) .add (.name "y" .nowhere) .nowhere)) .nowhere]
  span := .nowhere

/-- Arguments of one size and arguments of two sizes do not share a graph. -/
theorem cachedUnder_adder_ne :
    (∃ key, CachedUnder .standard .default (ofDefs [adder]).functions "add"
        [.tensor .i64 [.sym "M"], .tensor .i64 [.sym "M"]] .nowhere key) ∧
      (∃ key, CachedUnder .standard .default (ofDefs [adder]).functions "add"
        [.tensor .i64 [.sym "M"], .tensor .i64 [.node ⟨3⟩]] .nowhere key) ∧
      ∀ key key', CachedUnder .standard .default (ofDefs [adder]).functions "add"
          [.tensor .i64 [.sym "M"], .tensor .i64 [.sym "M"]] .nowhere key →
        CachedUnder .standard .default (ofDefs [adder]).functions "add"
          [.tensor .i64 [.sym "M"], .tensor .i64 [.node ⟨3⟩]] .nowhere key' → key ≠ key' := by
  have hadder : (ofDefs [adder]).functions.get? "add" = some adder := rfl
  obtain ⟨hkey, hkey', hsame⟩ := @cachedUnder_eq_iff .standard .default _ _ _ hadder rfl (by decide)
    (by decide) [.tensor .i64 [.sym "M"], .tensor .i64 [.sym "M"]]
    [.tensor .i64 [.sym "M"], .tensor .i64 [.node ⟨3⟩]] rfl rfl .nowhere .nowhere
  refine ⟨hkey, hkey', fun key key' h h' heq => ?_⟩
  have hplaces := ((hsame key key' h h').2 heq) 0 0 1 0
  revert hplaces
  decide

end Registry

end TensorKernel
