import TensorKernel.Build.Statement

/-!
# Building functions

The graph of a function starts with its parameters, each followed by the shape symbols that it is
the first to introduce, and the node of a declared result.  Then its statements are built.
-/

namespace TensorKernel

namespace BuildM

/-- The type of a parameter: its annotation, or the type of the argument. -/
def paramType (function : String) (param : Param) (given : Option KernelType) : BuildM KernelType :=
  match param.hint, given with
  | some hint, _ => ofLocated (TypeHint.type hint)
  | none, some ty => pure ty
  | none, none => fail param.span (.missingHint param.id function)

/-- Adds the symbols among the axes of a parameter that are not known yet. -/
def addSymbols (indexSize : ElemSize) (arg : NodeId) : Nat → Shape → BuildM Unit
  | _, [] => pure ()
  | axis, .sym name :: rest => do
    if (← get).symbols.contains name then addSymbols indexSize arg (axis + 1) rest
    else do
      let node ← onGraph fun g => g.addScalar (some name) indexSize
      modify fun b => { b with symbols := b.symbols.insert name ⟨node, arg, axis⟩ }
      addSymbols indexSize arg (axis + 1) rest
  | axis, _ :: rest => addSymbols indexSize arg (axis + 1) rest

/-- Adds a parameter. -/
def addParam (ctx : BuildContext) (function : String) (param : Param) (given : Option KernelType) :
    BuildM Unit := do
  if (← get).params.contains param.id then fail param.span (.duplicateParameter param.id)
  else do
    let ty ← paramType function param given
    let arg ← onGraph fun g => g.addOfType (some param.id) ty
    modify fun b => { b with
      params := b.params.insert param.id arg
      inputs := b.inputs ++ [(param.id, arg)] }
    addSymbols ctx.options.indexSize arg 0 ty.shape

/-- Adds the parameters of a function, each with the type of its argument if there is one. -/
def addParams (ctx : BuildContext) (function : String) : List Param → List KernelType → BuildM Unit
  | [], _ => pure ()
  | param :: params, types => do
    addParam ctx function param types.head?
    addParams ctx function params types.tail

/-- No parameter may have the name of a shape symbol. -/
def checkParamNames (params : List Param) : BuildM Unit := do
  let b ← get
  match params.find? fun param => b.symbols.contains param.id with
  | some param => fail param.span (.parameterNamedAsSymbol param.id)
  | none => pure ()

/-- Plans the result of a function as it is declared. -/
def planReturn (result : ReturnHint) : BuildM Unit :=
  match result with
  | .void => modify fun b => { b with returnPlan := .void }
  | .missing => modify fun b => { b with returnPlan := .template }
  | .type hint => do
    let ty ← ofLocated (TypeHint.type hint)
    let b ← get
    if (b.unknownSymbol? ty).isSome then
      set { b with returnPlan := .dynamic, returnType := some ty }
    else do
      let node ← onGraph fun g => g.addOfType none ty
      modify fun b => { b with returnPlan := .static ty node, returnType := some ty }

/-- The graph of a function after its last statement. -/
def finish (f : FunctionDef) : BuildM FunctionGraph := do
  let b ← get
  let kind := b.returnPlan.kind
  if (kind = .static ∨ kind = .dynamic) ∧ b.outputs.isEmpty then
    fail f.span (.missingValue f.id)
  else
    pure
      { name := b.name
        graph := b.graph
        inputs := b.inputs
        outputs := b.outputs
        symbols := b.symbols
        returnKind := kind
        returnType := b.returnType
        canInline := kind ≠ .void && !b.outputs.isEmpty }

/-- Builds a function, whose parameters without annotation take the given types. -/
def function (ctx : BuildContext) (f : FunctionDef) (types : List KernelType) :
    BuildM FunctionGraph := do
  addParams ctx f.id f.params types
  checkParamNames f.params
  planReturn f.result
  body ctx f.body
  finish f

end BuildM

/-- The graph of a function, whose parameters without annotation take the given types. -/
def FunctionDef.build (f : FunctionDef) (ctx : BuildContext) (types : List KernelType) :
    CacheM FunctionGraph :=
  (BuildM.function ctx f types).run' (.start f.id)

end TensorKernel
