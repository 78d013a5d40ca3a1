import TensorKernel.Build.Fault
import TensorKernel.Graph.Apply
import TensorKernel.Graph.FunctionGraph
import TensorKernel.Kernel.Tree
import TensorKernel.Numeric.Reduction
import TensorKernel.Options

/-!
# Building state

Building the graph of a kernel function walks its statements with a growing graph and four tables of
names: parameters, shape symbols, scalar variables and tensor variables.

A call to another kernel function needs the graph of that function.  `BuildContext.call` stands for
whatever provides it; the graphs provided so far are kept in a cache, which survives a failure.
-/

namespace TensorKernel

/-- What a function declares about its result, with the node that takes a declared result. -/
inductive ReturnPlan where
  | void
  | template
  | static (type : KernelType) (node : NodeId)
  | dynamic
deriving DecidableEq, Inhabited

/-- The kind of result that a plan is for. -/
def ReturnPlan.kind : ReturnPlan → ReturnKind
  | void => .void
  | template => .template
  | static _ _ => .static
  | dynamic => .dynamic

/-- The graph of a function as far as it has been built, and what its names stand for. -/
structure FunctionBuilder where
  name : String
  graph : Graph
  inputs : List (String × NodeId)
  params : Table String NodeId
  scalars : Table String NodeId
  tensors : Table String NodeId
  symbols : Table String ShapeSymbol
  rebindings : Nat
  returnPlan : ReturnPlan
  returnType : Option KernelType
  outputs : List NodeId
  returned : Bool
deriving DecidableEq, Inhabited

namespace FunctionBuilder

/-- The builder of a function before its parameters are added. -/
def start (name : String) : FunctionBuilder where
  name := name
  graph := .empty
  inputs := []
  params := .empty
  scalars := .empty
  tensors := .empty
  symbols := .empty
  rebindings := 0
  returnPlan := .template
  returnType := none
  outputs := []
  returned := false

/-- The node a variable is bound to. -/
def local? (b : FunctionBuilder) (id : String) : Option NodeId :=
  (b.scalars.get? id).or (b.tensors.get? id)

/-- The node a name stands for: a variable, a shape symbol or a parameter. -/
def resolve? (b : FunctionBuilder) (id : String) : Option NodeId :=
  (b.local? id).or (((b.symbols.get? id).map ShapeSymbol.node).or (b.params.get? id))

/-- The first symbol of a type that no parameter introduces. -/
def unknownSymbol? (b : FunctionBuilder) (ty : KernelType) : Option String :=
  ty.shape.findSome? fun d =>
    match d with
    | .sym name => if b.symbols.contains name then none else some name
    | _ => none

/-- The value of an integer constant. -/
def constantInt? (b : FunctionBuilder) (id : NodeId) : Option Int64 :=
  match (b.graph.node id).constant? with
  | some (.int v) => some v
  | _ => none

end FunctionBuilder

/-- The graphs that were built before, by the function and the types it was called with. -/
abbrev GraphCache := Table String FunctionGraph

/-- Steps that use and extend the cache; a failure leaves the cache extended. -/
abbrev CacheM := ExceptT BuildError (StateM GraphCache)

/-- Steps of building one function. -/
abbrev BuildM := StateT FunctionBuilder CacheM

/-- What the steps of building a function may refer to. -/
structure BuildContext where
  options : Options
  library : NumericLibrary
  call : String → List KernelType → Span → CacheM FunctionGraph

namespace BuildM

variable {α : Type}

/-- Stops at a place in the source. -/
def fail (span : Span) (fault : BuildFault) : BuildM α :=
  throw ⟨fault, span⟩

/-- Stops because the graph is not as it should be; this concerns no place in the source. -/
def failInternal (fault : BuildFault) : BuildM α :=
  throw ⟨fault, .nowhere⟩

/-- The result of a step that may fail, as a step at a place in the source. -/
def ofExcept (span : Span) : Except BuildFault α → BuildM α
  | .ok a => pure a
  | .error fault => fail span fault

/-- Extends the graph. -/
def onGraph (f : Graph → α × Graph) : BuildM α := do
  let b ← get
  let (a, graph) := f b.graph
  set { b with graph }
  pure a

end BuildM

end TensorKernel
