import TensorKernel.Graph.FunctionGraph
import TensorKernel.Lower.Scalar

/-!
# Lowering operators

The statements that compute the operators of a graph.  Tensors are buffers: every operator that
makes a tensor allocates the buffer of its result, except that a copy to the same element size
shares the buffer of its source.

The rules are stated for any function `need` that gives the names of other nodes.
-/

namespace TensorKernel

open Buffer (AffineMap Operand Ty)

/-- The type of a buffer for a tensor. -/
def bufferType (sz : ElemSize) (shape : Shape) : Ty :=
  .memref sz (shape.map fun d =>
    match d with
    | .const n => some n
    | _ => none)

/-- The type of the value of a node. -/
def Graph.valueType (g : Graph) (id : NodeId) : Ty :=
  if g.isScalar id then .scalar (g.elemSize id) else bufferType (g.elemSize id) (g.shape id)

/-- The results of the map of an operand whose first axis is aligned with the given one. -/
def affineResults : Nat → Shape → Shape → List Buffer.AffineExpr
  | _, [], _ => []
  | axis, d :: ds, it :: its =>
    (if d.isOne && !it.isOne then .zero else .axis axis) :: affineResults (axis + 1) ds its
  | axis, _ :: ds, [] => .axis axis :: affineResults (axis + 1) ds []

/--
The map from an iteration space to an operand, which is aligned at the last axes.  Where the operand
has a single element along an axis, that element is always read.
-/
def affineMap (shape space : Shape) : AffineMap :=
  let offset := space.length - shape.length
  ⟨space.length, affineResults offset shape (space.drop offset)⟩

/-- An identifier of the emitted program: other characters become underscores. -/
def sanitize (id : String) : String :=
  String.ofList (id.toList.map fun c => if c.isAlphanum || c == '_' then c else '_')

namespace LowerM

/-- The name of a constant index, which is defined once in a block. -/
def indexConstant (n : Int) : LowerM Name := do
  match (← get).indexConstant? n with
  | some name => pure name
  | none => do
    let size := max n 0
    let dst ← fresh s!"c{size}"
    emit (.constant dst (.int (Int64.ofInt n)) .index)
    modify fun s => s.onScope fun scope =>
      { scope with indexConstants := scope.indexConstants.bind n dst }
    pure dst

/-- Converts a scalar to an index. -/
def toIndex (v : TypedName) : LowerM Name := do
  let dst ← fresh "idx"
  emit (.cast dst .indexCast v.name (.scalar v.size) .index)
  pure dst

section Rules

variable (g : Graph) (need : NodeId → LowerM Name)

/-- A new name for a node: its own name, or one for what it is used as. -/
def nodeName (id : NodeId) (use : String) : LowerM Name :=
  match (g.node id).name with
  | some name => fresh (sanitize name)
  | none => fresh use

/-- The value of a node with its type. -/
def operand (id : NodeId) : LowerM Operand := do
  let name ← need id
  pure ⟨name, g.valueType id⟩

/-- The values of nodes with their types. -/
def operands : List NodeId → LowerM (List Operand)
  | [] => pure []
  | id :: ids => do
    let o ← operand g need id
    let os ← operands ids
    pure (o :: os)

/-- The value of a scalar with its element size. -/
def typedName (id : NodeId) : LowerM TypedName := do
  let name ← need id
  pure ⟨name, g.elemSize id⟩

/-- The value of a scalar as an index. -/
def indexValue (id : NodeId) : LowerM Name := do
  let v ← typedName g need id
  toIndex v

/-- The values of scalars as indices. -/
def indexValues : List NodeId → LowerM (List Name)
  | [] => pure []
  | id :: ids => do
    let i ← indexValue g need id
    let is ← indexValues ids
    pure (i :: is)

/-- A dimension as an index. -/
def dimIndex (d : Dim) : LowerM Name :=
  match d with
  | .const n => indexConstant n
  | .sym name => do
    match (← get).symbols.get? name with
    | some v => pure v
    | none => throw (.unboundSymbol name)
  | .node id => indexValue g need id

/-- The dimensions that are not constants, as indices. -/
def dynamicSizes : Shape → LowerM (List Name)
  | [] => pure []
  | d :: ds =>
    if d.isStatic then dynamicSizes ds
    else do
      let i ← dimIndex g need d
      let is ← dynamicSizes ds
      pure (i :: is)

/-- Allocates a buffer. -/
def alloc (sz : ElemSize) (shape : Shape) : LowerM Operand := do
  let sizes ← dynamicSizes g need shape
  let dst ← fresh "buf"
  let ty := bufferType sz shape
  emit (.alloc dst sizes ty)
  pure ⟨dst, ty⟩

/-- Allocates the buffer of a node. -/
def allocNode (id : NodeId) : LowerM Operand :=
  alloc g need (g.elemSize id) (g.shape id)

/-- Allocates the buffers of nodes. -/
def allocNodes : List NodeId → LowerM (List Operand)
  | [] => pure []
  | id :: ids => do
    let o ← allocNode g need id
    let os ← allocNodes ids
    pure (o :: os)

/-- The values that a body computes, in the types of the nodes that collect them. -/
def yielded : List (NodeId × NodeId) → LowerM (List Operand)
  | [] => pure []
  | (inner, outer) :: rest => do
    let v ← typedName g need inner
    let name ← cast v (g.elemSize outer)
    let os ← yielded rest
    pure (⟨name, .scalar (g.elemSize outer)⟩ :: os)

/-- Binds the placeholders of a body to the arguments of its region. -/
def bindArgs : List (NodeId × Operand) → LowerM Unit
  | [] => pure ()
  | (inner, arg) :: rest => do
    bind inner arg.name
    bindArgs rest

/-- The region of a body. -/
def bodyRegion (body : Body) (args : List (NodeId × Operand)) : LowerM (List Buffer.Stmt) :=
  region do
    bindArgs args
    let values ← yielded g need body.outputs
    emit (.yield values)

/-- The arguments of a region for the elements of its operands. -/
def elementArgs : List (NodeId × NodeId) → LowerM (List (NodeId × Operand))
  | [] => pure []
  | (outer, inner) :: rest => do
    let name ← nodeName g inner "in"
    let args ← elementArgs rest
    pure ((inner, ⟨name, .scalar (g.elemSize outer)⟩) :: args)

/-- The arguments of a region for the elements of its results. -/
def resultArgs : List (NodeId × NodeId) → LowerM (List Operand)
  | [] => pure []
  | (_, outer) :: rest => do
    let name ← fresh "out"
    let args ← resultArgs rest
    pure (⟨name, .scalar (g.elemSize outer)⟩ :: args)

/-- Binds the nodes that collect the values of a body to their buffers. -/
def bindResults : List (NodeId × NodeId) → List Operand → LowerM Unit
  | (_, outer) :: rest, buffer :: buffers => do
    bind outer buffer.name
    bindResults rest buffers
  | _, _ => pure ()

/-- Makes nodes available in the current block. -/
def prepare : List NodeId → LowerM Unit
  | [] => pure ()
  | id :: ids => do
    let _ ← need id
    prepare ids

/-- Lowers an elementwise operator to a generic operation. -/
def elementwise (op : Op) (body : Body) : LowerM Unit := do
  prepare need op.inputs
  match body.outputs with
  | [] => throw .elementwiseWithoutOutputs
  | (_, first) :: _ => do
    let space := g.shape first
    let outers := body.inputs.map Prod.fst
    let results := body.outputs.map Prod.snd
    let ins ← operands g need outers
    let outs ← allocNodes g need results
    let args ← elementArgs g body.inputs
    let block ← bodyRegion g need body args
    let outArgs ← resultArgs g body.outputs
    emit (.generic ((outers ++ results).map fun id => affineMap (g.shape id) space) space.length
      ins outs (args.map Prod.snd ++ outArgs) block)
    bindResults body.outputs outs

/-- The cell that accumulates a reduction over all axes. -/
def scalarCell (sz : ElemSize) (init : Name) : LowerM Operand := do
  let name ← fresh "acc"
  let ty : Ty := .memref sz []
  emit (.alloca name ty)
  emit (.store init ⟨name, ty⟩ [])
  pure ⟨name, ty⟩

/-- The buffer that accumulates a reduction over some axes. -/
def tensorCell (dst : NodeId) (init : Name) : LowerM Operand := do
  let cell ← allocNode g need dst
  emit (.fill ⟨init, .scalar (g.elemSize dst)⟩ cell)
  pure cell

/-- Lowers a reduction. -/
def reduction (op : Op) (axes : List Nat) (body : Body) : LowerM Unit :=
  match op.inputs, body.inputs with
  | [arg, init], [(_, x), (_, acc)] =>
    match body.outputs with
    | [(_, dst)] => do
      let src ← operand g need arg
      let start ← need init
      let sz := g.elemSize dst
      let full := g.isScalar dst
      let cell ← if full then scalarCell sz start else tensorCell g need dst start
      let xName ← nodeName g x "in"
      let accName ← fresh "acc"
      let xArg : Operand := ⟨xName, .scalar (g.elemSize arg)⟩
      let accArg : Operand := ⟨accName, .scalar sz⟩
      let block ← bodyRegion g need body [(x, xArg), (acc, accArg)]
      emit (.reduce [src] [cell] axes [xArg, accArg] block)
      if full then do
        let v ← fresh "t"
        emit (.load v cell [])
        bind dst v
      else bind dst cell.name
    | _ => throw .reductionOutputs
  | _, _ => throw .malformedReduction

/-- Lowers the reading of an element. -/
def getItem (target : NodeId) (is : List NodeId) (dst : NodeId) : LowerM Unit := do
  let src ← operand g need target
  let indices ← indexValues g need is
  let v ← fresh "elem"
  emit (.load v src indices)
  bind dst v

/-- Lowers the change of an element in a copy of a tensor. -/
def setItem (target value : NodeId) (is : List NodeId) (dst : NodeId) : LowerM Unit := do
  let src ← operand g need target
  let v ← typedName g need value
  let indices ← indexValues g need is
  let buffer ← allocNode g need dst
  emit (.copy src buffer)
  let name ← cast v (g.elemSize dst)
  emit (.store name buffer indices)
  bind dst buffer.name

/-- The offset, size and stride of a view along one axis. -/
structure AxisView where
  offset : Name
  size : Name
  stride : Name
deriving DecidableEq, Inhabited

/-- The offset and the stride that an index stands for; an axis without an index is read in full. -/
def axisStart (selected : Option SliceIndex) : LowerM (Name × Name) :=
  match selected with
  | some (.element i) => do
    let offset ← indexValue g need i
    let stride ← indexConstant 1
    pure (offset, stride)
  | some (.range lower _ step) => do
    let offset ← indexValue g need lower
    let stride ← indexValue g need step
    pure (offset, stride)
  | none => do
    let offset ← indexConstant 0
    let stride ← indexConstant 1
    pure (offset, stride)

/-- The views along the axes of a slice. -/
def axisViews : List SliceIndex → Shape → LowerM (List AxisView)
  | _, [] => pure []
  | selected, size :: sizes => do
    let (offset, stride) ← axisStart g need selected.head?
    let size ← dimIndex g need size
    let views ← axisViews selected.tail sizes
    pure (⟨offset, size, stride⟩ :: views)

/-- The groups of axes that are merged when the leading ones are dropped. -/
def collapsedAxes (dropped rank : Nat) : List (List Nat) :=
  List.range (dropped + 1) ::
    (List.range (rank - (dropped + 1))).map fun i => [dropped + 1 + i]

/-- Lowers a slice: a view of the region is copied to a buffer, whose leading axes are dropped. -/
def slice (target : NodeId) (selected : List SliceIndex) (sizes : Shape) (dst : NodeId) :
    LowerM Unit := do
  let src ← operand g need target
  let sz := g.elemSize target
  let rank := (g.shape target).length
  let views ← axisViews g need selected (sizes.take rank)
  let name ← fresh "view"
  let view : Operand := ⟨name, .strided sz rank⟩
  emit (.subView name src (views.map AxisView.offset) (views.map AxisView.size)
    (views.map AxisView.stride) view.type)
  let buffer ← alloc g need sz sizes
  emit (.copy view buffer)
  let shape := g.shape dst
  let dropped := rank - shape.length
  if 0 < dropped then do
    let id ← fresh "slice"
    emit (.collapseShape id buffer (collapsedAxes dropped rank) (bufferType sz shape))
    bind dst id
  else bind dst buffer.name

/-- Converts every element of a tensor into a buffer of another element size. -/
def convertTensor (src dst : NodeId) : LowerM Operand := do
  let input ← operand g need src
  let buffer ← allocNode g need dst
  let shape := g.shape dst
  let target := g.elemSize dst
  let x ← nodeName g src "in"
  let out ← fresh "out"
  let block ← region do
    let v ← cast ⟨x, g.elemSize src⟩ target
    emit (.yield [⟨v, .scalar target⟩])
  emit (.generic [affineMap shape shape, affineMap shape shape] shape.length [input] [buffer]
    [⟨x, .scalar (g.elemSize src)⟩, ⟨out, .scalar target⟩] block)
  pure buffer

/-- Lowers a copy.  A copy that converts nothing shares the value unless it is deep. -/
def copy (src dst : NodeId) (deep : Bool) : LowerM Unit := do
  if g.isScalar dst then do
    let v ← typedName g need src
    let name ← cast v (g.elemSize dst)
    bind dst name
  else if g.elemSize src ≠ g.elemSize dst then do
    let buffer ← convertTensor g need src dst
    bind dst buffer.name
  else if deep then do
    let input ← operand g need src
    let buffer ← allocNode g need dst
    emit (.copy input buffer)
    bind dst buffer.name
  else do
    let name ← need src
    bind dst name

/-- Lowers an operator. -/
def operator (op : Op) : LowerM Unit :=
  match op.outputs with
  | [] => throw .operatorWithoutOutputs
  | dst :: _ =>
    match op.kind, op.inputs with
    | .unary unop, arg :: _ => do
      let arg ← typedName g need arg
      let v ← unary unop arg (g.elemSize dst)
      bind dst v
    | .binary binop, lhs :: rhs :: _ => do
      let lhs ← typedName g need lhs
      let rhs ← typedName g need rhs
      let v ← binary binop lhs rhs (g.elemSize dst)
      bind dst v
    | .elementwise body, _ => elementwise g need op body
    | .reduction axes body _, _ => reduction g need op axes body
    | .getItem, target :: is => getItem g need target is dst
    | .setItem, target :: value :: is => setItem g need target value is dst
    | .slice selected sizes, target :: _ => slice g need target selected sizes dst
    | .copy, src :: _ => copy g need src dst false
    | .deepCopy, src :: _ => copy g need src dst true
    | _, _ => throw .operatorWithoutInputs

/-- The name of a node: the one it has, a constant, or what its operator computes. -/
def nodeRule (id : NodeId) : LowerM Name := do
  match (← get).lookup id with
  | some name => pure name
  | none =>
    let node := g.node id
    match node.constant?, node.producer with
    | some v, _ => do
      let name ← constant v node.elemSize
      bind id name
      pure name
    | none, some op => do
      if (← get).isVisited op then pure ()
      else do
        visit op
        operator g need (g.op op)
      match (← get).lookup id with
      | some name => pure name
      | none => throw (.notBound id)
    | none, none => throw (.unboundNode id)

end Rules

/-- The name of a node, which may need other nodes down to the given depth. -/
def node (g : Graph) : Nat → NodeId → LowerM Name
  | 0, id => throw (.cyclicGraph id)
  | depth + 1, id => nodeRule g (node g depth) id

/--
A depth that suffices: no operator is visited twice on the way down, and the body of the last one
takes one more step.
-/
def depth (g : Graph) : Nat :=
  g.ops.size + 2

end LowerM

end TensorKernel
