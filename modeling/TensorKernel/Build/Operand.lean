import TensorKernel.Build.State

/-!
# Building operators

The rules by which operators are applied to nodes: which operands they accept, the element size and
the shape of the result, and the size of a slice.
-/

namespace TensorKernel

namespace BuildM

/-- Adds an integer in the narrowest type that holds it. -/
def intConstant (v : Int) (span : Span) : BuildM NodeId :=
  match ElemSize.ofInt? v with
  | some sz => onGraph fun g => g.addConstant (.int (Int64.ofInt v)) sz
  | none => fail span (.integerLiteral v)

/-- Adds a number in the narrowest floating-point type whose range contains it. -/
def floatConstant (v : Float) (span : Span) : BuildM NodeId :=
  match ElemSize.ofFloat? v with
  | some sz => onGraph fun g => g.addConstant (.float v) sz
  | none => fail span (.floatLiteral (Decimal.Layout.plain.write v))

/-- Applies a unary operator.  Booleans have no negative and floats no bits. -/
def applyUnary (op : UnOp) (arg : NodeId) (span : Span) : BuildM NodeId := do
  let sz := (← get).graph.elemSize arg
  if op = .neg ∧ sz.isBoolean then fail span .negatedBoolean
  else if op = .bitNot ∧ sz.isFloatingPoint then fail span (.bitwiseNegation sz)
  else onGraph fun g => g.applyUnary op arg (if op = .not then .bool else sz)

/-- The shape of an operator's result: none for scalars, and otherwise the broadcast shape. -/
def resultShape (op : BinOp) (l r : KernelType) (span : Span) : BuildM (Option Shape) :=
  if l.isScalar && r.isScalar then pure none
  else
    match Shape.broadcast? l.shape r.shape with
    | some shape => pure (some shape)
    | none => fail span (.incompatibleOperands op.text l r)

/-- Applies a binary operator. -/
def applyBinary (op : BinOp) (lhs rhs : NodeId) (span : Span) : BuildM NodeId := do
  let g := (← get).graph
  let l := g.type lhs
  let r := g.type rhs
  if op.isBitwise && (l.elemSize.isFloatingPoint || r.elemSize.isFloatingPoint) then
    fail span (.bitwiseOperands op.text l.elemSize r.elemSize)
  else do
    let shape ← resultShape op l r span
    onGraph fun g => g.applyBinary op lhs rhs (op.resultSize l.elemSize r.elemSize) shape

/-- Applies operators to scalars from left to right; each result is the next left operand. -/
def applyChain (lhs : NodeId) (span : Span) : List (BinOp × NodeId) → BuildM NodeId
  | [] => pure lhs
  | (op, rhs) :: rest => do
    let g := (← get).graph
    if g.isScalar lhs && g.isScalar rhs then do
      let result ← applyBinary op lhs rhs span
      applyChain result span rest
    else fail span (.tensorInChain op.text)

/-- The scalar that holds a dimension. -/
def dimNode (d : Dim) (span : Span) : BuildM NodeId :=
  match d with
  | .const n => intConstant n span
  | .sym name => do
    match (← get).symbols.get? name with
    | some symbol => pure symbol.node
    | none => failInternal (.unboundSymbol name)
  | .node id => pure id

/-- Indices are scalars of a signed integer type. -/
def requireIndex (id : NodeId) (span : Span) : BuildM Unit := do
  let ty := (← get).graph.type id
  if ty.isScalar && ty.elemSize.isSignedInteger then pure () else fail span (.indexType ty)

/-- The index of one axis in a subscript, and whether it is a range up to the end of the axis. -/
structure AxisIndex where
  index : SliceIndex
  toEnd : Bool
deriving DecidableEq, Inhabited

/-- An index that selects one element of an axis. -/
def elementIndex (value : BuildM NodeId) (span : Span) : BuildM AxisIndex := do
  let id ← value
  requireIndex id span
  pure ⟨.element id, false⟩

/--
An index that selects a range of an axis.  The bounds default to the ends of the axis and the step
to one; the step must not be the constant zero.
-/
def rangeIndex (lower upper step : Option (BuildM NodeId)) (axis : Dim) (span : Span) :
    BuildM AxisIndex := do
  let lower ← lower.getD (onGraph fun g => g.addConstant (.int 0) .i8)
  let upperId ← upper.getD (dimNode axis span)
  let step ← step.getD (onGraph fun g => g.addConstant (.int 1) .i8)
  requireIndex lower span
  requireIndex upperId span
  requireIndex step span
  if (← get).constantInt? step = some 0 then fail span .zeroStep
  else pure ⟨.range lower upperId step, upper.isNone⟩

/--
The length of a range: for a positive step, the number of indices from `lower` on in steps of `step`
that lie before `upper`.  What is not positive stands for an empty range.
-/
def rangeLength (lower upper step : Int) : Int :=
  (upper - lower - 1).fdiv step + 1

/-- The size of the part of an axis that an index selects. -/
def sliceSize (choice : AxisIndex) (axis : Dim) (span : Span) : BuildM Dim :=
  match choice.index with
  | .element _ => pure (.const 1)
  | .range lower upper step => do
    let b ← get
    match b.constantInt? lower, b.constantInt? upper, b.constantInt? step with
    | some l, some u, some s =>
      let n := max (rangeLength l.toInt u.toInt s.toInt) 0
      if n ≤ Dim.maxConst then pure (.const n) else fail span (.sliceLength n)
    | l, _, s =>
      if l = some 0 ∧ s = some 1 ∧ choice.toEnd then pure axis
      else do
        let one ← intConstant 1 span
        let extent ← applyBinary .sub upper lower span
        let last ← applyBinary .sub extent one span
        let steps ← applyBinary .floorDiv last step span
        let size ← applyBinary .add steps one span
        pure (.node size)

/-- The sizes of the parts of the axes that are indexed. -/
def sliceSizes (span : Span) : List AxisIndex → Shape → BuildM Shape
  | choice :: choices, axis :: axes => do
    let size ← sliceSize choice axis span
    let sizes ← sliceSizes span choices axes
    pure (size :: sizes)
  | _, _ => pure []

/-- The axes of a tensor, if it has at least as many as there are indices. -/
def indexedAxes (target : NodeId) (count : Nat) (span : Span) : BuildM Shape := do
  let shape := (← get).graph.shape target
  if shape.isEmpty then fail span .indexedScalar
  else if shape.length < count then fail span (.tooManyIndices shape.length)
  else pure shape

/-- The shape of a slice: its sizes without the ones in front, of which the last is kept. -/
def trimmedShape (sizes : Shape) : Shape :=
  sizes.drop (sizes.dropLast.takeWhile Dim.isOne).length

/-- Reads an element, if there is one integer for every axis, and otherwise a region of a tensor. -/
def readTensor (target : NodeId) (choices : List AxisIndex) (span : Span) : BuildM NodeId := do
  let g := (← get).graph
  let sz := g.elemSize target
  let shape := g.shape target
  let indices := choices.map AxisIndex.index
  let inputs := target :: indices.flatMap SliceIndex.nodes
  if indices.length = shape.length ∧ !indices.any SliceIndex.isRange then
    onGraph fun g =>
      let (dst, g) := g.addScalar none sz
      let (_, g) := g.addOp .getItem inputs [dst]
      (dst, g)
  else do
    let picked ← sliceSizes span choices shape
    let sizes := picked ++ shape.drop choices.length
    onGraph fun g =>
      let (dst, g) := g.addTensor none sz (trimmedShape sizes)
      let (_, g) := g.addOp (.slice indices sizes) inputs [dst]
      (dst, g)

end BuildM

end TensorKernel
