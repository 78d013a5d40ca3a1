import TensorKernel.ElemSize
import TensorKernel.Word

/-!
# Shapes and types

A dimension of a tensor is a constant, a symbol that a parameter annotation introduced, or the value
of a scalar node of the graph.  Two shapes broadcast if, aligned at their last dimensions, each pair
of dimensions is equal or holds a one.
-/

namespace TensorKernel

/-- A node of a graph, by its place in the graph. -/
structure NodeId where
  index : Nat
deriving DecidableEq, Inhabited

namespace NodeId

instance : LT NodeId := ⟨fun l r => l.index < r.index⟩

instance : DecidableLT NodeId := fun l r => inferInstanceAs (Decidable (l.index < r.index))

/-- How a node is shown. -/
def text (id : NodeId) : String :=
  s!"n{id.index}"

end NodeId

/-- The size of one axis of a tensor. -/
inductive Dim where
  | const (size : Int)
  | sym (name : String)
  | node (id : NodeId)
deriving DecidableEq, Inhabited

namespace Dim

/-- Whether a dimension is the constant one, which broadcasts. -/
def isOne (d : Dim) : Bool :=
  d == const 1

/-- Whether a dimension is a constant. -/
def isStatic : Dim → Bool
  | const _ => true
  | _ => false

/-- The greatest constant dimension. -/
def maxConst : Int := 9223372036854775807

/-- The size a constant stands for: itself, and for a negative one its word without a sign. -/
def constSize (n : Int) : Nat :=
  Word.ofInt n

/-- How a dimension is shown. -/
def text : Dim → String
  | const size => toString size
  | sym name => name
  | node id => id.text

/-- Constants come before symbols and symbols before nodes; each kind is ordered by its content. -/
def compare : Dim → Dim → Ordering
  | const l, const r => compareOfLessAndEq l r
  | sym l, sym r => compareOfLessAndEq l r
  | node l, node r => compareOfLessAndEq l.index r.index
  | const _, _ => .lt
  | _, const _ => .gt
  | sym _, node _ => .lt
  | node _, sym _ => .gt

/-- Two dimensions may be paired if they are equal or one of them is a one. -/
def compatible (l r : Dim) : Bool :=
  l == r || l.isOne || r.isOne

/-- It does not matter which of two dimensions is on the left. -/
theorem compatible_comm (l r : Dim) : l.compatible r = r.compatible l := by
  simp only [compatible, Bool.or_assoc, Bool.or_comm r.isOne, BEq.comm (a := l)]

end Dim

/-- The dimensions of a tensor, outermost first. -/
abbrev Shape := List Dim

namespace Shape

/-- Pairs the dimensions of two shapes from the first one on, and keeps what is left of either. -/
def alignedCompatible : List Dim → List Dim → Bool
  | l :: ls, r :: rs => l.compatible r && alignedCompatible ls rs
  | _, _ => true

/-- Whether two shapes broadcast: they are aligned at their last dimensions. -/
def compatible (l r : Shape) : Bool :=
  alignedCompatible l.reverse r.reverse

/-- The dimension of the result for a pair of dimensions: a one gives way. -/
def join (l r : Dim) : Dim :=
  if l.isOne then r else l

/-- Joins the dimensions of two shapes from the first one on, and keeps what is left of either. -/
def alignedJoin : List Dim → List Dim → List Dim
  | l :: ls, r :: rs => join l r :: alignedJoin ls rs
  | [], rs => rs
  | ls, [] => ls

/-- The shape of an elementwise combination of two shapes, if they broadcast. -/
def broadcast? (l r : Shape) : Option Shape :=
  if compatible l r then some (alignedJoin l.reverse r.reverse).reverse else none

/-- How a list of dimensions is shown. -/
def text (shape : Shape) : String :=
  ", ".intercalate (shape.map Dim.text)

end Shape

/-- The type of a value: a scalar, or a tensor of a shape, which may have no dimensions. -/
inductive KernelType where
  | scalar (size : ElemSize)
  | tensor (size : ElemSize) (shape : Shape)
deriving DecidableEq, Inhabited

namespace KernelType

/-- The element size of a type. -/
def elemSize : KernelType → ElemSize
  | scalar sz => sz
  | tensor sz _ => sz

/-- The dimensions of a type; a scalar has none. -/
def shape : KernelType → Shape
  | scalar _ => []
  | tensor _ shape => shape

/-- The number of dimensions of a type. -/
def rank (ty : KernelType) : Nat :=
  ty.shape.length

/-- Whether it is the type of a scalar; a tensor without dimensions is none. -/
def isScalar : KernelType → Bool
  | scalar _ => true
  | tensor _ _ => false

/-- The same element size, the same rank and compatible dimensions. -/
def compatible (l r : KernelType) : Bool :=
  l.elemSize == r.elemSize && l.isScalar == r.isScalar && l.rank == r.rank &&
    Shape.alignedCompatible l.shape r.shape

/-- Equality up to the element size: a value may be assigned to a variable of such a type. -/
def sameShape (l r : KernelType) : Bool :=
  l.isScalar == r.isScalar && l.shape == r.shape

/-- How a type is shown. -/
def text : KernelType → String
  | scalar sz => sz.typeName
  | tensor sz shape => s!"{sz.typeName}[{Shape.text shape}]"

end KernelType

end TensorKernel
