import TensorKernel.ElemSize
import TensorKernel.Literal
import TensorKernel.Print.Name

/-!
# Buffer programs

The programs that kernels are lowered to.  Values are scalars and indices; tensors are buffers in
memory, which operations read and write.  Structured operations run a region for every element.
-/

namespace TensorKernel

namespace Buffer

/--
The type of a value.  A dimension of a buffer that is not known is `none`; a strided buffer is a
view of another one with any offset and strides.
-/
inductive Ty where
  | index
  | scalar (size : ElemSize)
  | memref (size : ElemSize) (shape : List (Option Int))
  | strided (size : ElemSize) (rank : Nat)
deriving DecidableEq, Inhabited

/-- Whether it is the type of a floating-point scalar. -/
def Ty.isFloat : Ty → Bool
  | scalar sz => sz.isFloatingPoint
  | _ => false

/-- Arithmetic on two scalars of one type. -/
inductive ArithOp where
  | addI
  | addF
  | subI
  | subF
  | mulI
  | mulF
  | divF
  | floorDivSI
  | remSI
  | remF
  | iPowI
  | powF
  | andI
  | orI
  | xorI
  | maxSI
  | minSI
  | maximumF
  | minimumF
deriving DecidableEq, Inhabited

/-- Arithmetic on one floating-point number. -/
inductive UnaryOp where
  | negF
  | floor
deriving DecidableEq, Inhabited

/-- Comparisons, of signed integers or of floating-point numbers. -/
inductive Predicate where
  | eq
  | ne
  | lt
  | le
  | gt
  | ge
deriving DecidableEq, Inhabited

/-- Conversions between scalar types. -/
inductive CastOp where
  | extSI
  | extUI
  | truncI
  | siToFP
  | uiToFP
  | fpToSI
  | extF
  | truncF
  | indexCast
deriving DecidableEq, Inhabited

/-- A result of an affine map: an axis of the iteration space, or always the first element. -/
inductive AffineExpr where
  | axis (index : Nat)
  | zero
deriving DecidableEq, Inhabited

/-- A map from the axes of an iteration space to the axes of an operand. -/
structure AffineMap where
  rank : Nat
  results : List AffineExpr
deriving DecidableEq, Inhabited

/-- A value with its type. -/
structure Operand where
  name : Name
  type : Ty
deriving DecidableEq, Inhabited

/--
The statements of a buffer program.

`generic` runs its body for every index of an iteration space of `parallel` axes, and its maps say
which element of each operand belongs to an index.  `reduce` folds axes of a buffer into another.
Both declare `args` for the elements, and `yield` gives the values to store.
-/
inductive Stmt where
  | constant (dst : Name) (value : Literal) (type : Ty)
  | arith (dst : Name) (op : ArithOp) (lhs rhs : Name) (type : Ty)
  | unary (dst : Name) (op : UnaryOp) (arg : Name) (type : Ty)
  | compare (dst : Name) (predicate : Predicate) (lhs rhs : Name) (type : Ty)
  | select (dst : Name) (condition yes no : Name) (type : Ty)
  | cast (dst : Name) (op : CastOp) (arg : Name) (source target : Ty)
  | dim (dst : Name) (src : Operand) (axis : Name)
  | alloc (dst : Name) (sizes : List Name) (type : Ty)
  | alloca (dst : Name) (type : Ty)
  | load (dst : Name) (src : Operand) (indices : List Name)
  | store (value : Name) (dst : Operand) (indices : List Name)
  | copy (src dst : Operand)
  | subView (dst : Name) (src : Operand) (offsets sizes strides : List Name) (type : Ty)
  | collapseShape (dst : Name) (src : Operand) (groups : List (List Nat)) (type : Ty)
  | fill (value dst : Operand)
  | generic (maps : List AffineMap) (parallel : Nat) (ins outs args : List Operand)
      (body : List Stmt)
  | reduce (ins outs : List Operand) (axes : List Nat) (args : List Operand) (body : List Stmt)
  | yield (values : List Operand)
  | returns (values : List Operand)

instance : Inhabited Stmt := ⟨.returns []⟩

/-- A function of a buffer program. -/
structure Function where
  name : String
  params : List Operand
  results : List Ty
  body : List Stmt
deriving Inhabited

end Buffer

end TensorKernel
