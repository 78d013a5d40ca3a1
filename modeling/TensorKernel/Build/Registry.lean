import TensorKernel.Build.Function

/-!
# Kernel registries

The kernel functions of a module, which are built on demand the first time they are called.  A
template is built once for every pattern of argument types: the dimensions of its arguments are
replaced by symbols, so that its graph does not depend on the shapes of the caller.

`Registry.active` lists the functions that are being built.  None of them may be called again, so
every nested call leaves fewer functions to build, and the calls end.
-/

namespace TensorKernel

/-- The symbols that were chosen for the dimensions of a template's arguments. -/
abbrev DimNames := List (Dim × String)

namespace DimNames

/-- The symbol chosen for a dimension. -/
def symbol? (names : DimNames) (d : Dim) : Option String :=
  (List.find? (fun entry => entry.1 = d) names).map Prod.snd

/--
Replaces the dimensions of one argument.  Constants stay; another dimension becomes the symbol that
was chosen for it, or a new one named after the parameter and the axis.
-/
def replaceShape (param : String) : DimNames → Nat → Shape → Shape × DimNames
  | names, _, [] => ([], names)
  | names, axis, .const n :: rest =>
    let (shape, names) := replaceShape param names (axis + 1) rest
    (.const n :: shape, names)
  | names, axis, d :: rest =>
    match names.symbol? d with
    | some name =>
      let (shape, names) := replaceShape param names (axis + 1) rest
      (.sym name :: shape, names)
    | none =>
      let name := s!"{param}_dim{axis}"
      let (shape, names) := replaceShape param (names ++ [(d, name)]) (axis + 1) rest
      (.sym name :: shape, names)

/-- Replaces the dimensions of one argument type. -/
def replaceType (param : String) (names : DimNames) : KernelType → KernelType × DimNames
  | .scalar sz => (.scalar sz, names)
  | .tensor sz shape =>
    let (shape, names) := replaceShape param names 0 shape
    (.tensor sz shape, names)

/-- Replaces the dimensions of argument types, each for the next parameter. -/
def replaceTypes : DimNames → List (String × KernelType) → List KernelType
  | _, [] => []
  | names, (param, ty) :: rest =>
    let (ty, names) := replaceType param names ty
    ty :: replaceTypes names rest

end DimNames

/--
The types of a template's parameters for a call.  Dimensions that are equal in the caller become the
same symbol, so the types record which dimensions are shared, and nothing else of the caller.
-/
def generalizeTypes (params : List String) (given : List KernelType) : List KernelType :=
  DimNames.replaceTypes [] (params.zip given)

/-- The kernel functions of a module, the graphs built so far, and the functions being built. -/
structure Registry where
  functions : Table String FunctionDef
  cache : GraphCache
  active : List String

namespace Registry

/-- The registry of a list of definitions; of several with one name the last counts. -/
def ofDefs (defs : List FunctionDef) : Registry where
  functions := .ofList (defs.map fun f => (f.id, f))
  cache := .empty
  active := []

/-- The functions that are not being built. -/
def idle (r : Registry) : List String :=
  r.functions.keys.filter fun id => !r.active.contains id

/-- The registry while a function is being built. -/
def enter (r : Registry) (id : String) (cache : GraphCache) : Registry :=
  { r with cache, active := id :: r.active }

/-- Of the keys that are not active, fewer are left once one more of them is active. -/
theorem length_filter_cons_lt (id : String) (active : List String) {keys : List String}
    (hkey : id ∈ keys) (hidle : active.contains id = false) :
    (keys.filter fun key => !(id :: active).contains key).length <
      (keys.filter fun key => !active.contains key).length := by
  induction keys with
  | nil => cases hkey
  | cons key rest ih =>
    have hle : (rest.filter fun key => !(id :: active).contains key).length ≤
        (rest.filter fun key => !active.contains key).length := by
      rw [← List.countP_eq_length_filter, ← List.countP_eq_length_filter]
      exact List.countP_mono_left fun k _ hk => by simp_all
    by_cases same : key = id
    · subst same
      simp only [List.filter_cons, hidle]
      simp
      simpa using Nat.lt_succ_of_le hle
    · have hrest : id ∈ rest := by
        rcases List.mem_cons.mp hkey with h | h
        · exact absurd h.symm same
        · exact h
      have hlt := ih hrest
      have hkeep : (id :: active).contains key = active.contains key := by
        simp [same]
      simp only [List.filter_cons, hkeep]
      split
      · simpa using hlt
      · exact hlt

/-- Entering an idle function leaves fewer idle functions. -/
theorem idle_enter_lt (r : Registry) (id : String) (cache : GraphCache)
    (hkey : r.functions.contains id = true) (hidle : r.active.contains id = false) :
    (r.enter id cache).idle.length < r.idle.length :=
  length_filter_cons_lt id r.active ((Table.contains_iff_mem_keys _ _).mp hkey) hidle

/-- The types that the parameters of a function take in a call, and none if they are annotated. -/
def paramTypes (f : FunctionDef) (given : List KernelType) (span : Span) :
    Except BuildError (Option (List KernelType)) :=
  if f.isTemplate then
    if f.params.length = given.length then
      .ok (some (generalizeTypes (f.params.map Param.id) given))
    else .error ⟨.argumentCount f.id f.params.length given.length, span⟩
  else .ok none

/-- The name under which a graph is cached: that of the function, for a template with its types. -/
def cacheKey (id : String) : Option (List KernelType) → String
  | none => id
  | some types =>
    let text := ", ".intercalate (types.map KernelType.text)
    s!"{id}({text})"

/--
The graph of a function for a call with arguments of the given types, and the registry afterwards,
whose cache has grown by the graphs that were built on the way.
-/
def instantiate (library : NumericLibrary) (options : Options) (r : Registry) (id : String)
    (given : List KernelType) (span : Span) : Except BuildError FunctionGraph × Registry :=
  match _hf : r.functions.get? id with
  | none => (.error ⟨.unknownFunction id, span⟩, r)
  | some f =>
    match paramTypes f given span with
    | .error e => (.error e, r)
    | .ok types =>
      match r.cache.get? (cacheKey id types) with
      | some g => (.ok g, r)
      | none =>
        if _hactive : r.active.contains id then (.error ⟨.recursiveCall id, span⟩, r)
        else
          let ctx : BuildContext :=
            { options, library
              call := fun callee types span cache =>
                let (result, after) :=
                  instantiate library options (r.enter id cache) callee types span
                (result, after.cache) }
          match f.build ctx (types.getD []) r.cache with
          | (.ok g, cache) => (.ok g, { r with cache := cache.insert (cacheKey id types) g })
          | (.error e, cache) => (.error e, { r with cache })
termination_by r.idle.length
decreasing_by
  exact idle_enter_lt r id cache (by simp [Table.contains, _hf]) (by simpa using _hactive)

end Registry

/--
Builds the graph of the main function of a module.  The first definition of that name decides
whether it is a template, which a main function must not be, and where errors about it are placed.
-/
def buildGraph (defs : List FunctionDef) (main : String) (options : Options) :
    Except BuildError FunctionGraph :=
  let build (span : Span) :=
    ((Registry.ofDefs defs).instantiate .standard options main [] span).1
  match defs.find? fun f => f.id = main with
  | some f => if f.isTemplate then .error ⟨.templateMain main, f.span⟩ else build f.span
  | none => build .nowhere

end TensorKernel
