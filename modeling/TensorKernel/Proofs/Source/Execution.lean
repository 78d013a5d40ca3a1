import TensorKernel.Build.Function
import TensorKernel.Eval.Evaluator

/-!
# Executing kernel functions

What a kernel function says, with no graph in between.  The statements are executed one after
another on a `Store` that maps each variable to its current value; an assignment converts the
assigned value to the type of the variable, and an assignment to an element changes this element of
this variable only.

There is nothing here but assignments, operators on scalars, and reads and writes of single elements.
Execution is stuck at a slice, at a call, at an operator on a tensor and at an index outside its
axis, and at a return that is not the last statement.
-/

namespace TensorKernel

/-- A value with the element size of its type. -/
structure TypedValue where
  size : ElemSize
  value : Value
deriving DecidableEq, Inhabited

/-! ## Values of expressions -/

namespace TypedValue

/-- The value of a scalar. -/
def literal? (t : TypedValue) : Option Literal :=
  match t.value with
  | .scalar v => some v
  | .tensor _ _ => none

/-- An integer literal, in the narrowest type that holds it. -/
def ofInt? (v : Int) : Option TypedValue := do
  let sz ← ElemSize.ofInt? v
  some ⟨sz, .scalar ((Literal.int (Int64.ofInt v)).convert sz)⟩

/-- A number, in the narrowest floating-point type whose range contains it. -/
def ofFloat? (v : Float) : Option TypedValue := do
  let sz ← ElemSize.ofFloat? v
  some ⟨sz, .scalar ((Literal.float v).convert sz)⟩

/-- A truth value. -/
def ofBool (v : Bool) : TypedValue :=
  ⟨.bool, .scalar (.bool v)⟩

/-- A unary operator on a scalar. -/
def unary? (op : UnOp) (t : TypedValue) : Option TypedValue := do
  let sz := if op = .not then .bool else t.size
  let v ← t.literal?
  let w ← (v.unary op sz).toOption
  some ⟨sz, .scalar w⟩

/-- A binary operator on scalars. -/
def binary? (op : BinOp) (l r : TypedValue) : Option TypedValue := do
  let sz := op.resultSize l.size r.size
  let v ← l.literal?
  let w ← r.literal?
  let u ← (v.binary op w sz).toOption
  some ⟨sz, .scalar u⟩

/-- Operators from left to right; each result is the next left operand. -/
def chain? (l : TypedValue) : List (BinOp × TypedValue) → Option TypedValue
  | [] => some l
  | (op, r) :: rest => do
    let t ← l.binary? op r
    t.chain? rest

/-- Integers that index every axis, each inside its axis. -/
def indices? : List TypedValue → List Nat → Option (List Nat)
  | [], [] => some []
  | i :: is, n :: ns => do
    let v ← i.literal?
    let rest ← indices? is ns
    if i.size.isSignedInteger ∧ 0 ≤ v.asInt.toInt ∧ v.asInt.toInt < n then
      some (v.asInt.toInt.toNat :: rest)
    else none
  | _, _ => none

/-- The element of a tensor at the given indices. -/
def element? (t : TypedValue) (is : List TypedValue) : Option TypedValue :=
  match t.value with
  | .scalar _ => none
  | .tensor shape data => do
    let idx ← indices? is shape
    let v ← data[Index.place shape idx]?
    some ⟨t.size, .scalar (v.convert t.size)⟩

/-- A tensor with another element at the given indices. -/
def setElement? (t : TypedValue) (is : List TypedValue) (r : TypedValue) : Option TypedValue :=
  match t.value with
  | .scalar _ => none
  | .tensor shape data => do
    let idx ← indices? is shape
    let v ← r.literal?
    let i := Index.place shape idx
    let _ ← data[i]?
    some ⟨t.size, .tensor shape (data.setIfInBounds i (v.convert t.size))⟩

end TypedValue

/-! ## Stores -/

/--
The values of the parameters and the variables of a function, and the sizes that its shape symbols
stand for, with the element size in which they are read.
-/
structure Store where
  indexSize : ElemSize
  params : Table String TypedValue
  sizes : Table String Nat
  vars : Table String TypedValue
deriving DecidableEq, Inhabited

namespace Store

/-- The value of the shape symbol of an axis of the given size. -/
def sizeValue (s : Store) (n : Nat) : TypedValue :=
  ⟨s.indexSize, .scalar ((Literal.int (Int64.ofNat n)).convert s.indexSize)⟩

/-- The value that a name stands for: a variable, a shape symbol or a parameter. -/
def get? (s : Store) (id : String) : Option TypedValue :=
  (s.vars.get? id).or (((s.sizes.get? id).map s.sizeValue).or (s.params.get? id))

mutual

/-- The value of an expression. -/
def expr (s : Store) : Expr → Option TypedValue
  | .name id _ => s.get? id
  | .int v _ => TypedValue.ofInt? v
  | .float v _ => TypedValue.ofFloat? v
  | .bool v _ => some (TypedValue.ofBool v)
  | .unary .neg (.int v _) _ => TypedValue.ofInt? (Expr.negateInt v)
  | .unary .neg (.float v _) _ => TypedValue.ofFloat? (-v)
  | .unary op arg _ => do
    let t ← expr s arg
    t.unary? op
  | .binary lhs op rhs _ => do
    let l ← expr s lhs
    let r ← expr s rhs
    l.binary? op r
  | .boolean op operands _ => do
    match ← exprs s operands with
    | [] => none
    | t :: ts => t.chain? (ts.map fun r => (op, r))
  | .compare lhs ops comparators _ => do
    let l ← expr s lhs
    let rs ← exprs s comparators
    l.chain? (ops.zip rs)
  | .subscript target (.tuple elems _) _ => do
    let t ← expr s target
    let is ← exprs s elems
    t.element? is
  | .subscript target index _ => do
    let t ← expr s target
    let i ← expr s index
    t.element? [i]
  | _ => none
termination_by structural e => e

/-- The values of a list of expressions. -/
def exprs (s : Store) : List Expr → Option (List TypedValue)
  | [] => some []
  | e :: es => do
    let t ← expr s e
    let ts ← exprs s es
    some (t :: ts)
termination_by structural es => es

end

/-! ## Statements -/

/-- The type of a variable: its annotation, else its type so far, else the type of the value. -/
def variableSize (s : Store) (id : String) (hint : Option ElemSize) (t : TypedValue) : ElemSize :=
  hint.getD (((s.vars.get? id).map TypedValue.size).getD t.size)

/-- Assigns a value to a variable, in the type of the variable. -/
def assignName (s : Store) (id : String) (hint : Option ElemSize) (t : TypedValue) : Store :=
  let sz := s.variableSize id hint t
  { s with vars := s.vars.insert id ⟨sz, t.value.convert sz⟩ }

/-- Assigns the value of an expression to a variable or to an element of one. -/
def assign (s : Store) (target value : Expr) : Option Store :=
  match target with
  | .name id _ => do
    let t ← s.expr value
    some (s.assignName id none t)
  | .subscript (.name id _) index _ => do
    let t ← s.expr value
    let old ← s.vars.get? id
    let is ← s.exprs (TypeHint.elements index)
    let new ← old.setElement? is t
    some { s with vars := s.vars.insert id new }
  | _ => none

/-- The store after a statement that does not return. -/
def stmt (s : Store) : Stmt → Option Store
  | .assign target value _ => s.assign target value
  | .annotated (.name id _) hint (some value) _ => do
    let ty ← (TypeHint.type hint).toOption
    let t ← s.expr value
    some (s.assignName id (some ty.elemSize) t)
  | .augmented target op value span => s.assign target (.binary target op value span)
  | .expr (.string _ _) _ => some s
  | .pass _ => some s
  | _ => none

/-- Whether the parameters decide the sizes of a type. -/
def knows (s : Store) (ty : KernelType) : Bool :=
  ty.shape.all fun d =>
    match d with
    | .sym name => s.sizes.contains name
    | _ => true

/--
The result of a function that returns a value.  It has the declared type if the parameters decide
it, and is kept as it is otherwise.
-/
def result (s : Store) (hint : ReturnHint) (t : TypedValue) : Option Value :=
  match hint with
  | .void => none
  | .missing => some t.value
  | .type hint => do
    let ty ← (TypeHint.type hint).toOption
    some (if s.knows ty then t.value.convert ty.elemSize else t.value)

/-- The result of returning the value of an expression. -/
def returned (s : Store) (hint : ReturnHint) (value : Expr) : Option Value := do
  let t ← s.expr value
  s.result hint t

/-- The value that statements return. -/
def run (result : ReturnHint) : Store → List Stmt → Option Value
  | s, [.returns (some value) _] => s.returned result value
  | s, stmt :: rest => do
    let s ← s.stmt stmt
    run result s rest
  | _, [] => none

/-! ## Arguments -/

/-- The type of a parameter: its annotation, or else the type of the argument. -/
def paramType (param : Param) (given : Option KernelType) : Option KernelType :=
  match param.hint with
  | some hint => (TypeHint.type hint).toOption
  | none => given

/-- The types of parameters, each with the type of its argument if there is one. -/
def paramTypes : List Param → List KernelType → Option (List KernelType)
  | [], _ => some []
  | param :: params, types => do
    let ty ← paramType param types.head?
    let rest ← paramTypes params types.tail
    some (ty :: rest)

/-- Whether a value has the rank of a type, and as many elements as its sizes say. -/
def fits (ty : KernelType) : Value → Bool
  | .scalar _ => ty.isScalar
  | .tensor shape data =>
    !ty.isScalar && shape.length = ty.shape.length && Index.count shape = data.size

/-- The sizes of shape symbols: each is that of the first axis which has the symbol. -/
def symbolSizes : List (Dim × Nat) → Table String Nat → Table String Nat
  | [], sizes => sizes
  | (.sym name, n) :: rest, sizes =>
    symbolSizes rest (if sizes.contains name then sizes else sizes.insert name n)
  | _ :: rest, sizes => symbolSizes rest sizes

/-- Whether an axis has the size that its dimension says. -/
def hasSize (sizes : Table String Nat) : Dim × Nat → Bool
  | (.const k, n) => n = Dim.constSize k
  | (.sym name, n) => sizes.get? name = some n
  | (.node _, _) => false

/--
The store in which a function starts.  An argument has the rank of its parameter and is converted to
its type; the axes with one symbol have one size, which is the value of the symbol.
-/
def start (indexSize : ElemSize) (params : List Param) (types : List KernelType)
    (args : List Value) : Option Store := do
  let types ← paramTypes params types
  let axes := (types.zip args).flatMap fun p => p.1.shape.zip p.2.shape
  let sizes := symbolSizes axes .empty
  if params.length = args.length ∧ (types.zip args).all (fun p => fits p.1 p.2) ∧
      axes.all (hasSize sizes) then
    some
      { indexSize := indexSize
        params := .ofList ((params.map Param.id).zip
          ((types.zip args).map fun p => ⟨p.1.elemSize, p.2.convert p.1.elemSize⟩))
        sizes := sizes
        vars := .empty }
  else none

end Store

/-- What a function returns for some arguments; shape symbols are read in the given element size. -/
def FunctionDef.execute (f : FunctionDef) (indexSize : ElemSize) (types : List KernelType)
    (args : List Value) : Option Value := do
  let s ← Store.start indexSize f.params types args
  s.run f.result f.body

end TensorKernel
