import TensorKernel.Build.Fault
import TensorKernel.Kernel.Tree

/-!
# Annotations

An annotation is the name of an element size, alone or with dimensions in brackets.  A dimension is
a positive integer of 64 bits or a name, which is a shape symbol.
-/

namespace TensorKernel

namespace TypeHint

/-- The element size an annotation, or the part of it before the brackets, names. -/
def elemSize (hint : Expr) : Expr → Except BuildError ElemSize
  | .name id span =>
    match ElemSize.ofTypeName? id with
    | some sz => .ok sz
    | none => .error ⟨.unknownElementType id, span⟩
  | e => .error ⟨.unsupportedHint hint.text, e.span⟩

/-- The dimension an expression in brackets stands for. -/
def dimension : Expr → Except BuildError Dim
  | .name id _ => .ok (.sym id)
  | .int v span =>
    if 0 < v ∧ v ≤ Dim.maxConst then .ok (.const v)
    else .error ⟨.unsupportedDimension (Expr.int v span).text, span⟩
  | e => .error ⟨.unsupportedDimension e.text, e.span⟩

/-- The expressions in brackets: the elements of a tuple, or the only one. -/
def elements : Expr → List Expr
  | .tuple elems _ => elems
  | e => [e]

/-- The type an annotation stands for. -/
def type (hint : Expr) : Except BuildError KernelType :=
  match hint with
  | .name _ _ => do
    let sz ← elemSize hint hint
    .ok (.scalar sz)
  | .subscript target index _ => do
    let sz ← elemSize hint target
    let shape ← (elements index).mapM dimension
    .ok (.tensor sz shape)
  | e => .error ⟨.unsupportedHint e.text, e.span⟩

end TypeHint

end TensorKernel
