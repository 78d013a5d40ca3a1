import TensorKernel.Literal
import TensorKernel.Operator
import TensorKernel.Span

/-!
# Kernel functions

The syntax trees of the kernel language.  Every node carries the span it was read from.  Forms of
the host language outside the kernel language are kept by their kind, so that the messages about
them can name it.
-/

namespace TensorKernel

mutual

/-- An expression. -/
inductive Expr where
  | name (id : String) (span : Span)
  | int (value : Int) (span : Span)
  | float (value : Float) (span : Span)
  | bool (value : Bool) (span : Span)
  | string (value : String) (span : Span)
  | nothing (span : Span)
  | unary (op : UnOp) (arg : Expr) (span : Span)
  | binary (lhs : Expr) (op : BinOp) (rhs : Expr) (span : Span)
  | boolean (op : BinOp) (operands : List Expr) (span : Span)
  | compare (lhs : Expr) (ops : List BinOp) (comparators : List Expr) (span : Span)
  | subscript (target index : Expr) (span : Span)
  | slice (lower upper step : Option Expr) (span : Span)
  | tuple (elems : List Expr) (span : Span)
  | member (value : Expr) (attr : String) (span : Span)
  | call (func : Expr) (args : List Expr) (keywords : List Keyword) (span : Span)
  | unsupported (kind : String) (span : Span)

/-- An argument that is passed by name. -/
inductive Keyword where
  | mk (id : String) (value : Expr) (span : Span)

end

instance : Inhabited Expr := ⟨.nothing .nowhere⟩

namespace Keyword

/-- The name that an argument is passed by. -/
def id : Keyword → String
  | mk id _ _ => id

/-- The argument. -/
def value : Keyword → Expr
  | mk _ value _ => value

/-- The span an argument was read from. -/
def span : Keyword → Span
  | mk _ _ span => span

end Keyword

namespace Expr

/-- The span an expression was read from. -/
def span : Expr → Span
  | name _ span => span
  | int _ span => span
  | float _ span => span
  | bool _ span => span
  | string _ span => span
  | nothing span => span
  | unary _ _ span => span
  | binary _ _ _ span => span
  | boolean _ _ span => span
  | compare _ _ _ span => span
  | subscript _ _ span => span
  | slice _ _ _ span => span
  | tuple _ span => span
  | member _ _ span => span
  | call _ _ _ span => span
  | unsupported _ span => span

/-- The integer of 128 bits that a number is congruent to; integers of kernels have 128 bits. -/
def wrapInt (v : Int) : Int :=
  v.bmod (Nat.pow 2 128)

/-- The negation of an integer; that of the least integer is itself. -/
def negateInt (v : Int) : Int :=
  wrapInt (-v)

/-- The value of an integer with at most one sign in front. -/
def integerLiteral? : Expr → Option Int
  | int v _ => some v
  | unary .neg (int v _) _ => some (negateInt v)
  | _ => none

/-- The comparisons of a chain, as far as both their operators and their operands go. -/
def chainText : List BinOp → List String → String
  | op :: ops, operand :: operands => " " ++ op.text ++ " " ++ operand ++ chainText ops operands
  | _, _ => ""

mutual

/-- How an expression is shown: operators with brackets around them, and one space at each side. -/
def text : Expr → String
  | name id _ => id
  | int v _ => toString v
  | float v _ => Decimal.Layout.plain.write v
  | bool v _ => if v then "True" else "False"
  | string v _ => "\"" ++ v ++ "\""
  | nothing _ => "None"
  | unary op arg _ => op.text ++ arg.text
  | binary lhs op rhs _ => "(" ++ lhs.text ++ " " ++ op.text ++ " " ++ rhs.text ++ ")"
  | boolean op operands _ => "(" ++ (" " ++ op.text ++ " ").intercalate (texts operands) ++ ")"
  | compare lhs ops comparators _ => "(" ++ lhs.text ++ chainText ops (texts comparators) ++ ")"
  | subscript target index _ => target.text ++ "[" ++ index.text ++ "]"
  | slice lower upper step _ =>
    optionText lower ++ ":" ++ optionText upper ++
      (if step.isSome then ":" ++ optionText step else "")
  | tuple elems _ => "(" ++ ", ".intercalate (texts elems) ++ ")"
  | member value attr _ => value.text ++ "." ++ attr
  | call func args keywords _ =>
    func.text ++ "(" ++ ", ".intercalate (texts args ++ keywordTexts keywords) ++ ")"
  | unsupported kind _ => "<" ++ kind ++ ">"

/-- The texts of a list of expressions. -/
def texts : List Expr → List String
  | [] => []
  | e :: es => e.text :: texts es

/-- The text of an expression that may be missing. -/
def optionText : Option Expr → String
  | none => ""
  | some e => e.text

/-- The texts of named arguments. -/
def keywordTexts : List Keyword → List String
  | [] => []
  | .mk id value _ :: rest => (id ++ "=" ++ value.text) :: keywordTexts rest

end

end Expr

/-- A statement.  What stands in conditionals and loops is not kept, because they are refused. -/
inductive Stmt where
  | assign (target value : Expr) (span : Span)
  | annotated (target hint : Expr) (value : Option Expr) (span : Span)
  | augmented (target : Expr) (op : BinOp) (value : Expr) (span : Span)
  | returns (value : Option Expr) (span : Span)
  | expr (value : Expr) (span : Span)
  | pass (span : Span)
  | delete (span : Span)
  | conditional (span : Span)
  | loop (span : Span)
  | unsupported (kind : String) (span : Span)

instance : Inhabited Stmt := ⟨.pass .nowhere⟩

namespace Stmt

/-- The span a statement was read from. -/
def span : Stmt → Span
  | assign _ _ span => span
  | annotated _ _ _ span => span
  | augmented _ _ _ span => span
  | returns _ span => span
  | expr _ span => span
  | pass span => span
  | delete span => span
  | conditional span => span
  | loop span => span
  | unsupported _ span => span

end Stmt

/-- A parameter; without an annotation its type is that of the argument. -/
structure Param where
  id : String
  hint : Option Expr
  span : Span
deriving Inhabited

/-- What is written about the result of a function. -/
inductive ReturnHint where
  | missing
  | void
  | type (hint : Expr)
deriving Inhabited

/-- The definition of a kernel function. -/
structure FunctionDef where
  id : String
  params : List Param
  result : ReturnHint
  body : List Stmt
  span : Span
deriving Inhabited

namespace FunctionDef

/-- A template has a parameter without an annotation. -/
def isTemplate (f : FunctionDef) : Bool :=
  f.params.any fun p => p.hint.isNone

end FunctionDef

end TensorKernel
