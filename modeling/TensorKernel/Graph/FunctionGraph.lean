import TensorKernel.Graph.Basic
import TensorKernel.Table

/-!
# Function graphs

The graph of a kernel function together with its parameters, its results and the symbols that its
parameters introduce.
-/

namespace TensorKernel

/--
What a function declares about its result.

* `void`: it returns nothing;
* `template`: nothing is declared, and the returned value decides;
* `static`: every dimension of the declared type is known from the parameters;
* `dynamic`: the declared type has symbols that no parameter introduces.
-/
inductive ReturnKind where
  | void
  | template
  | static
  | dynamic
deriving DecidableEq, Inhabited

/-- How a kind of result is shown. -/
def ReturnKind.text : ReturnKind → String
  | void => "Void"
  | template => "Template"
  | static => "Static"
  | dynamic => "Dynamic"

/-- A shape symbol: the scalar that holds its value, and the parameter and axis it stands for. -/
structure ShapeSymbol where
  node : NodeId
  arg : NodeId
  axis : Nat
deriving DecidableEq, Inhabited

/-- The graph of a kernel function. -/
structure FunctionGraph where
  name : String
  graph : Graph
  inputs : List (String × NodeId)
  outputs : List NodeId
  symbols : Table String ShapeSymbol
  returnKind : ReturnKind
  returnType : Option KernelType
  canInline : Bool
deriving DecidableEq, Inhabited

end TensorKernel
