import TensorKernel.Span

/-!
# Surface trees

The syntax trees that kernels are written in, as the host language parses them.  Forms that no
kernel uses are kept by their kind only, and so are operators.
-/

namespace TensorKernel

namespace Surface

/--
The position of a node.  The end may be missing, and a node may have no position at all; columns and
lines may be any numbers.
-/
structure Location where
  line : Option Int
  column : Option Int
  endLine : Option Int
  endColumn : Option Int
deriving DecidableEq, Inhabited

/-- A constant of the host language. -/
inductive Constant where
  | nothing
  | bool (value : Bool)
  | int (value : Int)
  | float (value : Float)
  | string (value : String)
  | other (kind : String)
deriving DecidableEq, Inhabited

mutual

/-- An expression. -/
inductive Expr where
  | name (id : String) (location : Location)
  | constant (value : Constant) (location : Location)
  | unary (op : String) (operand : Expr) (location : Location)
  | binary (left : Expr) (op : String) (right : Expr) (location : Location)
  | boolean (op : String) (operands : List Expr) (location : Location)
  | compare (left : Expr) (ops : List String) (comparators : List Expr) (location : Location)
  | subscript (value index : Expr) (location : Location)
  | slice (lower upper step : Option Expr) (location : Location)
  | tuple (elems : List Expr) (location : Location)
  | member (value : Expr) (attr : String) (location : Location)
  | call (func : Expr) (args : List Expr) (keywords : List Keyword) (location : Location)
  | other (kind : String) (location : Location)

/-- An argument passed by name; without a name it stands for a mapping of arguments. -/
inductive Keyword where
  | mk (id : Option String) (value : Expr)

end

instance : Inhabited Expr := ⟨.constant .nothing default⟩

/-- A statement; an assignment has at least one target. -/
inductive Stmt where
  | assign (target : Expr) (moreTargets : List Expr) (value : Expr) (location : Location)
  | annotated (target hint : Expr) (value : Option Expr) (location : Location)
  | augmented (target : Expr) (op : String) (value : Expr) (location : Location)
  | returns (value : Option Expr) (location : Location)
  | expr (value : Expr) (location : Location)
  | other (kind : String) (location : Location)

instance : Inhabited Stmt := ⟨.other "" default⟩

/-- A parameter. -/
structure Param where
  id : String
  hint : Option Expr
  location : Location
deriving Inhabited

/-- The parameters of a function, by how arguments are passed to them. -/
structure Params where
  positionalOnly : List Param
  plain : List Param
  keywordOnly : List Param
  variadic : Option Param
  keywordVariadic : Option Param
  defaults : List Expr
deriving Inhabited

/-- The definition of a function. -/
structure FunctionDef where
  id : String
  params : Params
  result : Option Expr
  body : List Stmt
  location : Location
deriving Inhabited

/-- A statement of a module; only function definitions matter. -/
inductive TopLevel where
  | function (f : FunctionDef)
  | other
deriving Inhabited

end Surface

end TensorKernel
