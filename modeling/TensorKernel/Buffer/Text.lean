import TensorKernel.Buffer.Program
import TensorKernel.Print.Env

/-!
# The text of buffer programs

Statements are printed one per line.  The names that a statement reads get their texts before the
name that it defines, so that a value keeps the plain text where it was seen first.
-/

namespace TensorKernel

namespace Buffer

/-- The name of a scalar type. -/
def scalarText : ElemSize → String
  | .bool => "i1"
  | .i8 => "i8"
  | .i16 => "i16"
  | .i32 => "i32"
  | .i64 => "i64"
  | .f16 => "f16"
  | .f32 => "f32"
  | .f64 => "f64"

/-- A dimension of a buffer. -/
def dimText : Option Int → String
  | some n => s!"{n}x"
  | none => "?x"

/-- How a type is written. -/
def Ty.text : Ty → String
  | index => "index"
  | scalar sz => scalarText sz
  | memref sz shape => "memref<" ++ String.join (shape.map dimText) ++ scalarText sz ++ ">"
  | strided sz rank =>
    "memref<" ++ String.join (List.replicate rank "?x") ++ scalarText sz ++ ", strided<[" ++
      ", ".intercalate (List.replicate rank "?") ++ "], offset: ?>>"

/-- How a constant is written, with its type unless it is a boolean. -/
def literalText (value : Literal) (type : Ty) : String :=
  match value with
  | .bool b => toString b
  | v =>
    if type = .scalar .bool then toString (v.asInt != 0)
    else if type.isFloat then Decimal.Layout.scientific.write v.asFloat ++ " : " ++ type.text
    else toString v.asInt.toInt ++ " : " ++ type.text

/-- How arithmetic on two scalars is written. -/
def ArithOp.text : ArithOp → String
  | addI => "arith.addi"
  | addF => "arith.addf"
  | subI => "arith.subi"
  | subF => "arith.subf"
  | mulI => "arith.muli"
  | mulF => "arith.mulf"
  | divF => "arith.divf"
  | floorDivSI => "arith.floordivsi"
  | remSI => "arith.remsi"
  | remF => "arith.remf"
  | iPowI => "math.ipowi"
  | powF => "math.powf"
  | andI => "arith.andi"
  | orI => "arith.ori"
  | xorI => "arith.xori"
  | maxSI => "arith.maxsi"
  | minSI => "arith.minsi"
  | maximumF => "arith.maximumf"
  | minimumF => "arith.minimumf"

/-- How arithmetic on one scalar is written. -/
def UnaryOp.text : UnaryOp → String
  | negF => "arith.negf"
  | floor => "math.floor"

/-- How a conversion is written. -/
def CastOp.text : CastOp → String
  | extSI => "arith.extsi"
  | extUI => "arith.extui"
  | truncI => "arith.trunci"
  | siToFP => "arith.sitofp"
  | uiToFP => "arith.uitofp"
  | fpToSI => "arith.fptosi"
  | extF => "arith.extf"
  | truncF => "arith.truncf"
  | indexCast => "arith.index_cast"

/-- A comparison of signed integers. -/
def Predicate.intText : Predicate → String
  | eq => "arith.cmpi eq"
  | ne => "arith.cmpi ne"
  | lt => "arith.cmpi slt"
  | le => "arith.cmpi sle"
  | gt => "arith.cmpi sgt"
  | ge => "arith.cmpi sge"

/-- A comparison of floating-point numbers. -/
def Predicate.floatText : Predicate → String
  | eq => "arith.cmpf oeq"
  | ne => "arith.cmpf une"
  | lt => "arith.cmpf olt"
  | le => "arith.cmpf ole"
  | gt => "arith.cmpf ogt"
  | ge => "arith.cmpf oge"

/-- How a result of an affine map is written. -/
def AffineExpr.text : AffineExpr → String
  | axis i => s!"idx{i}"
  | zero => "0"

/-- How an affine map is written. -/
def AffineMap.text (map : AffineMap) : String :=
  let axes := (List.range map.rank).map fun i => s!"idx{i}"
  "affine_map<(" ++ ", ".intercalate axes ++ ") -> (" ++
    ", ".intercalate (map.results.map AffineExpr.text) ++ ")>"

namespace Print

/-- A value. -/
def value (name : Name) : PrintM String := do
  let text ← PrintM.name name
  pure ("%" ++ text)

/-- Values with commas between them. -/
def values (names : List Name) : PrintM String := do
  let texts ← PrintM.names names
  pure (", ".intercalate (texts.map fun text => "%" ++ text))

/-- Values in brackets. -/
def bracketed (names : List Name) : PrintM String := do
  let text ← values names
  pure ("[" ++ text ++ "]")

/-- Values and then their types. -/
def clause (operands : List Operand) : PrintM String := do
  let names ← values (operands.map Operand.name)
  pure (names ++ " : " ++ ", ".intercalate (operands.map fun o => o.type.text))

/-- Values, each with its type. -/
def typed : List Operand → PrintM (List String)
  | [] => pure []
  | o :: rest => do
    let name ← value o.name
    let texts ← typed rest
    pure ((name ++ ": " ++ o.type.text) :: texts)

/-- The declaration of values with commas between them. -/
def declared (operands : List Operand) : PrintM String := do
  let texts ← typed operands
  pure (", ".intercalate texts)

/-- The part of a structured operation that holds its operands. -/
def operandsText (ins outs : List Operand) : PrintM String := do
  let ins ← clause ins
  let outs ← clause outs
  pure ("ins(" ++ ins ++ ") outs(" ++ outs ++ ")")

/-- The line of a statement that has no region, without its indentation. -/
def line : Stmt → PrintM String
  | .constant dst v ty => do
    let dst ← value dst
    pure s!"{dst} = arith.constant {literalText v ty}"
  | .arith dst op lhs rhs ty => do
    let lhs ← value lhs
    let rhs ← value rhs
    let dst ← value dst
    pure s!"{dst} = {op.text} {lhs}, {rhs} : {ty.text}"
  | .unary dst op arg ty => do
    let arg ← value arg
    let dst ← value dst
    pure s!"{dst} = {op.text} {arg} : {ty.text}"
  | .compare dst predicate lhs rhs ty => do
    let lhs ← value lhs
    let rhs ← value rhs
    let dst ← value dst
    let op := if ty.isFloat then predicate.floatText else predicate.intText
    pure s!"{dst} = {op}, {lhs}, {rhs} : {ty.text}"
  | .select dst condition yes no ty => do
    let condition ← value condition
    let yes ← value yes
    let no ← value no
    let dst ← value dst
    pure s!"{dst} = arith.select {condition}, {yes}, {no} : {ty.text}"
  | .cast dst op arg source target => do
    let arg ← value arg
    let dst ← value dst
    pure s!"{dst} = {op.text} {arg} : {source.text} to {target.text}"
  | .dim dst src axis => do
    let source ← value src.name
    let axis ← value axis
    let dst ← value dst
    pure s!"{dst} = memref.dim {source}, {axis} : {src.type.text}"
  | .alloc dst sizes ty => do
    let sizes ← values sizes
    let dst ← value dst
    pure s!"{dst} = memref.alloc({sizes}) : {ty.text}"
  | .alloca dst ty => do
    let dst ← value dst
    pure s!"{dst} = memref.alloca() : {ty.text}"
  | .load dst src indices => do
    let source ← value src.name
    let indices ← bracketed indices
    let dst ← value dst
    pure s!"{dst} = memref.load {source}{indices} : {src.type.text}"
  | .store v dst indices => do
    let v ← value v
    let target ← value dst.name
    let indices ← bracketed indices
    pure s!"memref.store {v}, {target}{indices} : {dst.type.text}"
  | .copy src dst => do
    let source ← value src.name
    let target ← value dst.name
    pure s!"memref.copy {source}, {target} : {src.type.text} to {dst.type.text}"
  | .subView dst src offsets sizes strides ty => do
    let source ← value src.name
    let offsets ← bracketed offsets
    let sizes ← bracketed sizes
    let strides ← bracketed strides
    let dst ← value dst
    pure (s!"{dst} = memref.subview {source}{offsets}{sizes}{strides} : " ++
      s!"{src.type.text} to {ty.text}")
  | .collapseShape dst src groups ty => do
    let source ← value src.name
    let dst ← value dst
    let texts := groups.map fun group => "[" ++ ", ".intercalate (group.map toString) ++ "]"
    let grouping := ", ".intercalate texts
    pure s!"{dst} = memref.collapse_shape {source} [{grouping}] : {src.type.text} into {ty.text}"
  | .fill v dst => do
    let operands ← operandsText [v] [dst]
    pure ("linalg.fill " ++ operands)
  | .yield results => do
    let results ← clause results
    pure ("linalg.yield " ++ results)
  | .returns [] => pure "func.return"
  | .returns (result :: results) => do
    let results ← clause (result :: results)
    pure ("func.return " ++ results)
  | .generic _ _ _ _ _ _ | .reduce _ _ _ _ _ => pure ""

/-- The head of a generic operation. -/
def genericHead (maps : List AffineMap) (parallel : Nat) (ins outs : List Operand) :
    PrintM String := do
  let operands ← operandsText ins outs
  let maps := ", ".intercalate (maps.map AffineMap.text)
  let iterators := ", ".intercalate (List.replicate parallel "\"parallel\"")
  pure ("linalg.generic \x7bindexing_maps = [" ++ maps ++ "], iterator_types = [" ++ iterators ++
    "]\x7d " ++ operands)

/-- The head of a reduction. -/
def reduceHead (ins outs : List Operand) (axes : List Nat) : PrintM String := do
  let operands ← operandsText ins outs
  pure ("linalg.reduce " ++ operands ++ " dimensions = [" ++
    ", ".intercalate (axes.map toString) ++ "]")

mutual

/-- A statement, with the lines of its region. -/
def stmt : Stmt → PrintM String
  | .generic maps parallel ins outs args body => do
    let indent := (← get).indentText
    let head ← genericHead maps parallel ins outs
    let args ← declared args
    let lines ← PrintM.nested (stmts body)
    let body := "\n".intercalate lines
    pure (indent ++ head ++ " \x7b\n" ++ indent ++ "^bb0(" ++ args ++ "):\n" ++ body ++ "\n" ++
      indent ++ "\x7d")
  | .reduce ins outs axes args body => do
    let indent := (← get).indentText
    let head ← reduceHead ins outs axes
    let args ← declared args
    let lines ← PrintM.nested (stmts body)
    let body := "\n".intercalate lines
    pure (indent ++ head ++ " (" ++ args ++ ") \x7b\n" ++ body ++ "\n" ++ indent ++ "\x7d")
  | s => do
    let indent := (← get).indentText
    let text ← line s
    pure (indent ++ text)
termination_by structural s => s

/-- Statements, one after another. -/
def stmts : List Stmt → PrintM (List String)
  | [] => pure []
  | s :: rest => do
    let text ← stmt s
    let texts ← stmts rest
    pure (text :: texts)
termination_by structural ss => ss

end

/-- The types of the results of a function. -/
def resultsText : List Ty → String
  | [] => ""
  | [ty] => " -> " ++ ty.text
  | tys => " -> (" ++ ", ".intercalate (tys.map Ty.text) ++ ")"

/-- A function. -/
def function (f : Function) : PrintM String := do
  let params ← declared f.params
  let lines ← PrintM.nested (stmts f.body)
  pure ("func.func @" ++ f.name ++ "(" ++ params ++ ")" ++ resultsText f.results ++ " \x7b\n" ++
    "\n".intercalate lines ++ "\n\x7d")

end Print

/-- The text of a function. -/
def Function.text (f : Function) : String :=
  PrintM.run (Print.function f)

end Buffer

end TensorKernel
