import TensorKernel.ErrorKind
import TensorKernel.Kernel.Tree
import TensorKernel.Surface.Tree

/-!
# Kernels of a module

`Surface.kernels` reads the kernel functions of a module from its surface tree.  Forms outside the
kernel language become unsupported nodes, which are refused only where a kernel uses them; what has
no counterpart at all, such as operators and kinds of parameters, is refused at once.
-/

namespace TensorKernel

namespace Surface

/-- Why a module cannot be read. -/
inductive Fault where
  | unaryOperator (kind : String)
  | binaryOperator (kind : String)
  | booleanOperator (kind : String)
  | keywordUnpacking
  | integerTooLarge (value : Int)
  | multipleTargets
  | nonPositionalParams (function : String)
  | variadicParams (function : String)
  | defaultValues (function : String)
deriving DecidableEq, Inhabited

namespace Fault

/-- The kind of error a fault is reported as. -/
def kind : Fault → ErrorKind
  | integerTooLarge _ => .rangeError
  | _ => .syntaxError

/-- The message about a fault. -/
def message : Fault → String
  | unaryOperator kind => s!"Unsupported unary operator {kind}"
  | binaryOperator kind => s!"Unsupported binary operator {kind}"
  | booleanOperator kind => s!"Unsupported boolean operator {kind}"
  | keywordUnpacking => "Unpacking keyword arguments is not supported"
  | integerTooLarge value => s!"Integer literal {value} is too large"
  | multipleTargets => "Assigning to multiple targets is not allowed"
  | nonPositionalParams function =>
    s!"Kernel function {function} may only use positional parameters"
  | variadicParams function => s!"Kernel function {function} cannot take variadic parameters"
  | defaultValues function =>
    s!"Parameters of kernel function {function} cannot have default values"

end Fault

/-- A fault with its span. -/
abbrev ReadError := Located Fault

namespace ReadError

/-- The kind of error a failure is reported as. -/
def kind (e : ReadError) : ErrorKind :=
  e.fault.kind

/-- The message about a failure, with the lines it concerns. -/
def message (e : ReadError) (files : Files) : String :=
  e.span.annotate files e.fault.message

end ReadError

/-- Where a module comes from: its file, and the lines in front of it there. -/
structure Source where
  file : String
  lineOffset : Nat
deriving DecidableEq, Inhabited

/-- A number of lines or columns, if it is not negative and fits into a word. -/
def natural? (n : Int) : Option Nat :=
  if 0 ≤ n ∧ n.toNat < Word.count then some n.toNat else none

namespace Source

/-- The span of a location whose numbers are all there and can be read. -/
def span? (source : Source) (location : Location) : Option Span := do
  let line ← location.line
  let column ← location.column
  let line ← natural? line
  let column ← natural? column
  let endLine ← natural? (location.endLine.getD line)
  let endColumn ← natural? (location.endColumn.getD column)
  let span : Span := ⟨"", ⟨line, column⟩, ⟨endLine, endColumn⟩⟩
  some ((span.withFile source.file).shiftLines source.lineOffset)

/-- The span of a location, or none at all. -/
def span (source : Source) (location : Location) : Span :=
  (source.span? location).getD .nowhere

end Source

/-- The unary operator of a kind; a plus sign is none. -/
def unaryOp? (kind : String) : Option (Option UnOp) :=
  match kind with
  | "USub" => some (some .neg)
  | "Not" => some (some .not)
  | "Invert" => some (some .bitNot)
  | "UAdd" => some none
  | _ => none

/-- The arithmetic operator or comparison of a kind. -/
def binaryOp? (kind : String) : Option BinOp :=
  match kind with
  | "Add" => some .add
  | "Sub" => some .sub
  | "Mult" => some .mul
  | "Div" => some .div
  | "FloorDiv" => some .floorDiv
  | "Mod" => some .rem
  | "Pow" => some .pow
  | "BitAnd" => some .bitAnd
  | "BitOr" => some .bitOr
  | "BitXor" => some .bitXor
  | "Eq" => some .eq
  | "NotEq" => some .neq
  | "LtE" => some .leq
  | "GtE" => some .geq
  | "Lt" => some .lt
  | "Gt" => some .gt
  | _ => none

/-- The boolean operator of a kind. -/
def booleanOp? (kind : String) : Option BinOp :=
  match kind with
  | "And" => some .and
  | "Or" => some .or
  | _ => none

/-- Reads an arithmetic operator or a comparison. -/
def readBinaryOp (span : Span) (kind : String) : Except ReadError BinOp :=
  match binaryOp? kind with
  | some op => .ok op
  | none => .error ⟨.binaryOperator kind, span⟩

/-- Reads a boolean operator. -/
def readBooleanOp (span : Span) (kind : String) : Except ReadError BinOp :=
  match booleanOp? kind with
  | some op => .ok op
  | none => .error ⟨.booleanOperator kind, span⟩

/-- Applies a unary operator to an operand that was read before. -/
def readUnary (span : Span) (kind : String) (operand : TensorKernel.Expr) :
    Except ReadError TensorKernel.Expr :=
  match unaryOp? kind with
  | some (some op) => .ok (.unary op operand span)
  | some none => .ok operand
  | none => .error ⟨.unaryOperator kind, span⟩

/-- Integers of kernels have 128 bits. -/
def readConstant (span : Span) : Constant → Except ReadError TensorKernel.Expr
  | .nothing => .ok (.nothing span)
  | .bool v => .ok (.bool v span)
  | .int v =>
    if TensorKernel.Expr.wrapInt v = v then .ok (.int v span)
    else .error ⟨.integerTooLarge v, span⟩
  | .float v => .ok (.float v span)
  | .string v => .ok (.string v span)
  | .other kind => .ok (.unsupported s!"{kind} constant" span)

mutual

/-- Reads an expression. -/
def readExpr (source : Source) : Expr → Except ReadError TensorKernel.Expr
  | .name id location => .ok (.name id (source.span location))
  | .constant value location => readConstant (source.span location) value
  | .unary op operand location => do
    let operand ← readExpr source operand
    readUnary (source.span location) op operand
  | .binary left op right location => do
    let lhs ← readExpr source left
    let op ← readBinaryOp (source.span location) op
    let rhs ← readExpr source right
    .ok (.binary lhs op rhs (source.span location))
  | .boolean op operands location => do
    let op ← readBooleanOp (source.span location) op
    let operands ← readExprs source operands
    .ok (.boolean op operands (source.span location))
  | .compare left ops comparators location => do
    let lhs ← readExpr source left
    let ops ← ops.mapM (readBinaryOp (source.span location))
    let comparators ← readExprs source comparators
    .ok (.compare lhs ops comparators (source.span location))
  | .subscript value index location => do
    let target ← readExpr source value
    let index ← readExpr source index
    .ok (.subscript target index (source.span location))
  | .slice lower upper step location => do
    let lower ← readOption source lower
    let upper ← readOption source upper
    let step ← readOption source step
    .ok (.slice lower upper step (source.span location))
  | .tuple elems location => do
    let elems ← readExprs source elems
    .ok (.tuple elems (source.span location))
  | .member value attr location => do
    let value ← readExpr source value
    .ok (.member value attr (source.span location))
  | .call func args keywords location => do
    let func ← readExpr source func
    let args ← readExprs source args
    let keywords ← readKeywords source (source.span location) keywords
    .ok (.call func args keywords (source.span location))
  | .other kind location => .ok (.unsupported kind (source.span location))
termination_by structural e => e

/-- Reads expressions from left to right. -/
def readExprs (source : Source) : List Expr → Except ReadError (List TensorKernel.Expr)
  | [] => .ok []
  | e :: es => do
    let e ← readExpr source e
    let es ← readExprs source es
    .ok (e :: es)
termination_by structural es => es

/-- Reads an expression that may be missing. -/
def readOption (source : Source) : Option Expr → Except ReadError (Option TensorKernel.Expr)
  | none => .ok none
  | some e => do
    let e ← readExpr source e
    .ok (some e)
termination_by structural e => e

/-- Reads named arguments, which are placed where their call is. -/
def readKeywords (source : Source) (span : Span) :
    List Keyword → Except ReadError (List TensorKernel.Keyword)
  | [] => .ok []
  | .mk none _ :: _ => .error ⟨.keywordUnpacking, span⟩
  | .mk (some id) value :: rest => do
    let value ← readExpr source value
    let rest ← readKeywords source span rest
    .ok (.mk id value span :: rest)
termination_by structural keywords => keywords

end

/-- The statement that a kind without content stands for. -/
def plainStmt (kind : String) (span : Span) : TensorKernel.Stmt :=
  match kind with
  | "Pass" => .pass span
  | "Delete" => .delete span
  | "If" => .conditional span
  | "For" | "While" => .loop span
  | _ => .unsupported kind span

/-- Reads a statement. -/
def readStmt (source : Source) : Stmt → Except ReadError TensorKernel.Stmt
  | .assign target more value location =>
    if more.isEmpty then do
      let target ← readExpr source target
      let value ← readExpr source value
      .ok (.assign target value (source.span location))
    else .error ⟨.multipleTargets, source.span location⟩
  | .annotated target hint value location => do
    let target ← readExpr source target
    let hint ← readExpr source hint
    let value ← readOption source value
    .ok (.annotated target hint value (source.span location))
  | .augmented target op value location => do
    let target ← readExpr source target
    let op ← readBinaryOp (source.span location) op
    let value ← readExpr source value
    .ok (.augmented target op value (source.span location))
  | .returns value location => do
    let value ← readOption source value
    .ok (.returns value (source.span location))
  | .expr value location => do
    let value ← readExpr source value
    .ok (.expr value (source.span location))
  | .other kind location => .ok (plainStmt kind (source.span location))

/-- Reads a parameter. -/
def readParam (source : Source) (p : Param) : Except ReadError TensorKernel.Param := do
  let hint ← readOption source p.hint
  .ok { id := p.id, hint, span := source.span p.location }

/-- Reads what is written about a result; the constant `None` declares that there is none. -/
def readResult (source : Source) : Option Expr → Except ReadError ReturnHint
  | none => .ok .missing
  | some e => do
    let e ← readExpr source e
    match e with
    | .nothing _ => .ok .void
    | e => .ok (.type e)

/-- Only plain parameters without default values are allowed. -/
def checkParams (function : String) (params : Params) (span : Span) : Except ReadError Unit :=
  if !params.positionalOnly.isEmpty || !params.keywordOnly.isEmpty then
    .error ⟨.nonPositionalParams function, span⟩
  else if params.variadic.isSome || params.keywordVariadic.isSome then
    .error ⟨.variadicParams function, span⟩
  else if !params.defaults.isEmpty then .error ⟨.defaultValues function, span⟩
  else .ok ()

/-- Reads a function. -/
def readFunction (source : Source) (f : FunctionDef) :
    Except ReadError TensorKernel.FunctionDef := do
  checkParams f.id f.params (source.span f.location)
  let params ← f.params.plain.mapM (readParam source)
  let result ← readResult source f.result
  let body ← f.body.mapM (readStmt source)
  .ok { id := f.id, params, result, body, span := source.span f.location }

/-- The kernel functions of a module, in the order in which they are defined. -/
def kernels (source : Source) : List TopLevel → Except ReadError (List TensorKernel.FunctionDef)
  | [] => .ok []
  | .other :: rest => kernels source rest
  | .function f :: rest => do
    let f ← readFunction source f
    let fs ← kernels source rest
    .ok (f :: fs)

end Surface

end TensorKernel
