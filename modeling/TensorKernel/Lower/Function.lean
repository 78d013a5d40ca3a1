import TensorKernel.Lower.Operator
import TensorKernel.Options

/-!
# Lowering functions

`FunctionGraph.lower` emits the function of a buffer program for a function graph: the sizes that
the shape symbols stand for, what the results need, and the return of the results.
-/

namespace TensorKernel

namespace LowerM

/-- Binds the parameters to their identifiers. -/
def bindParams (g : Graph) : List (String × NodeId) → LowerM (List Buffer.Operand)
  | [] => pure []
  | (id, node) :: rest => do
    let name := Name.plain (sanitize id)
    bind node name
    let params ← bindParams g rest
    pure (⟨name, g.valueType node⟩ :: params)

/-- Binds shape symbols to the sizes of the axes they stand for, as indices and as scalars. -/
def bindSymbols (g : Graph) : List (String × ShapeSymbol) → LowerM Unit
  | [] => pure ()
  | (id, symbol) :: rest => do
    let src ← operand g (node g (depth g)) symbol.arg
    let axis ← indexConstant (Int64.ofNat symbol.axis).toInt
    let size ← fresh (sanitize id ++ "_idx")
    emit (.dim size src axis)
    modify fun s => { s with symbols := s.symbols.insert id size }
    let v ← fresh (sanitize id)
    emit (.cast v .indexCast size .index (.scalar (g.elemSize symbol.node)))
    bind symbol.node v
    bindSymbols g rest

/-- Emits a function. -/
def function (f : FunctionGraph) (options : Options) : LowerM Buffer.Function := do
  let params ← bindParams f.graph f.inputs
  bindSymbols f.graph f.symbols.entries
  let values ← operands f.graph (node f.graph (depth f.graph)) f.outputs
  emit (.returns values)
  let s ← get
  pure
    { name := options.functionName.getD f.name
      params
      results := values.map Buffer.Operand.type
      body := s.block }

end LowerM

/-- The function of a buffer program that computes a function graph. -/
def FunctionGraph.lower (f : FunctionGraph) (options : Options) :
    Except LoweringFault Buffer.Function :=
  (LowerM.function f options).run' .start

end TensorKernel
