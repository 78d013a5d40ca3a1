import TensorKernel.Proofs.Build.Declaration
import TensorKernel.Proofs.Eval.Faults
import TensorKernel.Proofs.SingleAssignment

/-!
# Evaluation is type sound

What a function evaluates to has the types of its results, and if it does not evaluate then the
arguments are the reason.  A tensor has as many elements as its sizes say if the sizes of every
tensor multiply to a number that fits into a word.  Without this condition it need not: elements are
counted in a word, so an argument whose sizes multiply to a multiple of 2 ^ 64 may have none.
-/

namespace TensorKernel

/-- Whether the sizes of a node of the graph, as far as they are known, fit into a word. -/
def Meaning.fitsWordAt (ctx : EvalContext) (val : Valuation) (id : NodeId) : Bool :=
  ctx.graph.isScalar id ||
    match dims ctx val (ctx.graph.shape id) with
    | .ok ns => Index.size ns < Word.count
    | .error _ => true

/-- Only the nodes of the graph have to be looked at. -/
theorem Meaning.fitsWord_of_all {ctx : EvalContext} {val : Valuation}
    (h : (List.range ctx.graph.nodes.size).all fun i => fitsWordAt ctx val ⟨i⟩) :
    FitsWord ctx val := by
  intro id ns hscalar hns
  have hlt : id.index < ctx.graph.nodes.size := by
    by_contra hge
    rw [Graph.isScalar, Graph.node_of_size_le (Nat.le_of_not_lt hge)] at hscalar
    cases hscalar
  have hat : fitsWordAt ctx val id = true := List.all_eq_true.mp h _ (List.mem_range.mpr hlt)
  simpa [fitsWordAt, hscalar, hns] using hat

/-- A kernel with a slice of its parameter, whose size depends on another parameter. -/
def dropped : FunctionDef :=
  let name (id : String) : Expr := .name id .nowhere
  let rest : Expr := .subscript (name "x") (.slice (some (name "k")) none none .nowhere) .nowhere
  ⟨"dropped", [⟨"x", some (.subscript (name "int32") (name "N") .nowhere), .nowhere⟩,
      ⟨"k", some (name "int8"), .nowhere⟩], .missing, [.returns (some rest) .nowhere], .nowhere⟩

/-- A kernel that returns its parameter. -/
def matrixIdentity : FunctionDef :=
  let name (id : String) : Expr := .name id .nowhere
  ⟨"same", [⟨"x", some (.subscript (name "int64") (.tuple [name "M", name "N"] .nowhere) .nowhere),
    .nowhere⟩], .missing, [.returns (some (name "x")) .nowhere], .nowhere⟩

end TensorKernel
