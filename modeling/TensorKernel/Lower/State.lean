import TensorKernel.Buffer.Program
import TensorKernel.ErrorKind
import TensorKernel.Graph.FunctionGraph
import TensorKernel.Scope

/-!
# Lowering state

Lowering emits the statements that compute the nodes of a graph, each when it is first needed.  The
statements go to the innermost open block.  Every block has a scope, which knows the names of the
nodes that were computed in it, the operators that were visited in it and the index constants that
it defines; a scope is dropped when its block is closed.

The state also keeps a history, which no step reads: in it the statements and the names of nodes
stand in the order in which they came about, also those of blocks that were closed since.
-/

namespace TensorKernel

/-- Why a graph cannot be lowered.  All of these concern graphs that were put together by hand. -/
inductive LoweringFault where
  | notBound (id : NodeId)
  | unboundNode (id : NodeId)
  | unboundSymbol (name : String)
  | integerTrueDivision (size : ElemSize)
  | operatorOnSize (op : BinOp) (size : ElemSize)
  | bitwiseNegation (size : ElemSize)
  | elementwiseWithoutOutputs
  | malformedReduction
  | reductionOutputs
  | operatorWithoutOutputs
  | operatorWithoutInputs
  | cyclicGraph (id : NodeId)
deriving DecidableEq, Inhabited

namespace LoweringFault

/-- The message about a fault. -/
def message : LoweringFault → String
  | notBound id => s!"Operator producing {id.text} did not bind it"
  | unboundNode id => s!"Reference to unbound node {id.text}"
  | unboundSymbol name => s!"Shape symbol {name} is not bound"
  | integerTrueDivision size => s!"True division with non-float result type {size.typeName}"
  | operatorOnSize op size => s!"Operator {op.text} cannot be applied to {size.typeName}"
  | bitwiseNegation size => s!"Bitwise negation of {size.typeName}"
  | elementwiseWithoutOutputs => "Elementwise operator without outputs"
  | malformedReduction => "Malformed reduction operator"
  | reductionOutputs => "Reduction operator must have one output"
  | operatorWithoutOutputs => "Operator without outputs"
  | operatorWithoutInputs => "Operator without inputs"
  | cyclicGraph id => s!"Node {id.text} depends on itself"

/-- A fault of lowering is always an internal error. -/
def kind (_ : LoweringFault) : ErrorKind := .internalError

end LoweringFault

/-- What is known in one block. -/
structure LowerScope where
  names : Scope NodeId Name
  visited : List OpId
  indexConstants : Scope Int Name
deriving DecidableEq, Inhabited

/-- The scope of a block without statements. -/
def LowerScope.empty : LowerScope := ⟨.empty, [], .empty⟩

/-- What lowering does: it emits a statement, or it gives a node its name. -/
inductive LowerAction where
  | emit (stmt : Buffer.Stmt)
  | bind (id : NodeId) (name : Name)
deriving Inhabited

/--
The open scopes and blocks from the innermost on, the shape symbols, the next number, and what was
done so far.
-/
structure LowerState where
  scopes : List LowerScope
  blocks : List (Array Buffer.Stmt)
  symbols : Table String Name
  counter : Nat
  history : Array LowerAction
deriving Inhabited

namespace LowerState

/-- One empty block, and names numbered from zero. -/
def start : LowerState := ⟨[.empty], [#[]], .empty, 0, #[]⟩

/-- The name of a node in the innermost scope that knows it. -/
def lookup (s : LowerState) (id : NodeId) : Option Name :=
  s.scopes.findSome? fun scope => scope.names.get? id

/-- Whether an operator was visited in an open scope. -/
def isVisited (s : LowerState) (op : OpId) : Bool :=
  s.scopes.any fun scope => scope.visited.contains op

/-- The name of an index constant in the innermost scope that defines it. -/
def indexConstant? (s : LowerState) (n : Int) : Option Name :=
  s.scopes.findSome? fun scope => scope.indexConstants.get? n

/-- The statements of the innermost block. -/
def block (s : LowerState) : List Buffer.Stmt :=
  (s.blocks.headD #[]).toList

/-- Changes the innermost scope. -/
def onScope (s : LowerState) (f : LowerScope → LowerScope) : LowerState :=
  match s.scopes with
  | [] => s
  | scope :: outer => { s with scopes := f scope :: outer }

/-- The state in which a node has a name. -/
def name (s : LowerState) (id : NodeId) (name : Name) : LowerState :=
  { s.onScope fun scope => { scope with names := scope.names.bind id name } with
    history := s.history.push (.bind id name) }

/-- Puts a statement at the end of the innermost block. -/
def push (s : LowerState) (stmt : Buffer.Stmt) : LowerState :=
  match s.blocks with
  | [] => s
  | block :: outer =>
    { s with blocks := block.push stmt :: outer, history := s.history.push (.emit stmt) }

end LowerState

/-- Steps of lowering. -/
abbrev LowerM := StateT LowerState (Except LoweringFault)

namespace LowerM

/-- A new numbered name. -/
def fresh (base : String) : LowerM Name :=
  modifyGet fun s => (.numbered base s.counter, { s with counter := s.counter + 1 })

/-- Emits a statement. -/
def emit (stmt : Buffer.Stmt) : LowerM Unit :=
  modify fun s => s.push stmt

/-- Gives a node its name. -/
def bind (id : NodeId) (name : Name) : LowerM Unit :=
  modify fun s => s.name id name

/-- Remembers that an operator was visited. -/
def visit (op : OpId) : LowerM Unit :=
  modify fun s => s.onScope fun scope => { scope with visited := op :: scope.visited }

/-- Emits statements into a block of their own, and gives the block. -/
def region (steps : LowerM Unit) : LowerM (List Buffer.Stmt) := do
  modify fun s => { s with scopes := .empty :: s.scopes, blocks := #[] :: s.blocks }
  steps
  let s ← get
  set { s with scopes := s.scopes.tail, blocks := s.blocks.tail }
  pure s.block

end LowerM

end TensorKernel
