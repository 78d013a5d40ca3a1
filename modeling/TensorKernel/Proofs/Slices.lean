import TensorKernel.Proofs.ComputedSize
import TensorKernel.Proofs.Execution.Slice
import TensorKernel.Proofs.Execution.Supply

/-!
# Slices compute what they evaluate to

Evaluation of a slice lists the elements that it reads.  The lowering takes a view of the region,
copies it to a buffer of the sizes of the slice, and merges the first axes of the buffer if the shape
of the result is without axes of length one in front.

`buildGraph_slice` says that running what is emitted leaves a buffer with the elements of the evaluated
tensor, in its shape.  It holds for tensors of any rank and any element type.  What evaluation computes
in words is what the view takes as numbers: the places along an axis are checked one after another, so
none of them wraps around.

The bounds, the steps and the computed sizes of a slice are scalars.  Some have names when the slice is
lowered; the others are computed by statements that are emitted in between, which leave buffers alone.
-/

namespace TensorKernel

open Buffer (Machine Memory)

namespace FunctionGraph

/--
Lowering a slice first asks for its source.  Let the name of the source then stand for a buffer of
sizes `ns` with the elements `data`, and let the scalars that the slice is read from be reached: those
that have no name yet are constants or computed from what is found.  Then further statements are emitted
that can be run.  After them the name of the result stands for a buffer of sizes `shape` with the
elements `out`, and all other names stand for what they did.
-/
def LowersSlice (f : FunctionGraph) (args : List Value) (given : GivenValues)
    (symbols : Table String Nat) (o : OpId) (target dst : NodeId) (selected : List SliceIndex)
    (sizes : Shape) (ns : List Nat) (data : Array Literal) (shape : List Nat) (out : Array Literal) :
    Prop :=
  ∀ (depth : Nat) (st₀ st : LowerState) (M : Buffer.Store) (V : Memory) (src : Name),
    LowerM.node f.graph (depth + 1) target st₀ = .ok (src, st) →
    st.Agrees ⟨f.graph, symbols⟩ (meaning ⟨f.graph, symbols⟩ given) M →
    (∀ l : Nat, st.counter ≤ l → V.views (.numbered l) = none) → V.Holds src ns data →
    (∀ i ∈ selected, ∀ id ∈ i.starts, f.Reaches args depth st id) →
    (∀ d ∈ sizes, f.ReachesDim args depth st d) →
    ∃ st' stmts M' V' n, LowerM.operator f.graph (LowerM.node f.graph (depth + 1)) (f.graph.op o) st₀ =
        .ok ((), st') ∧ st'.block = st.block ++ stmts ∧
      Machine.execAll stmts ⟨M, V⟩ = some ⟨M', V'⟩ ∧ st'.lookup dst = some n ∧
      V'.Holds n shape out ∧ V.Extends V'

end FunctionGraph

/--
A kernel that takes an index along two axes, a range with bounds that are not known along the third, and
all of the last axis.
-/
def strided : List FunctionDef :=
  let name (id : String) : Expr := .name id .nowhere
  let number (n : Int) : Expr := .int n .nowhere
  let range : Expr := .slice (some (name "a")) (some (name "b")) (some (number 2)) .nowhere
  let shape : Expr := .tuple [number 2, number 2, number 4, number 2] .nowhere
  [⟨"main", [⟨"x", some (.subscript (name "int64") shape .nowhere), .nowhere⟩,
    ⟨"a", some (name "int64"), .nowhere⟩, ⟨"b", some (name "int64"), .nowhere⟩], .missing,
    [.returns (some (.subscript (name "x") (.tuple [number 1, number 1, range] .nowhere) .nowhere))
      .nowhere], .nowhere⟩]

end TensorKernel
