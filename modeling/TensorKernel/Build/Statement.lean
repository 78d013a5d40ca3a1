import TensorKernel.Build.TypeHint
import TensorKernel.Build.Expression

/-!
# Building statements

An assignment never changes a node: it binds the name to a new node, which is computed from the
assigned value, or, for an assignment to an element, from the tensor before and the assigned value.
Parameters and shape symbols cannot be assigned to, and a variable keeps its first type.
-/

namespace TensorKernel

namespace BuildM

/-- The result of a step that fails at a place of its own. -/
def ofLocated {α : Type} : Except BuildError α → BuildM α
  | .ok a => pure a
  | .error e => throw e

/-- The name of the next node of a variable that had a node before. -/
def freshName (id : String) : BuildM String := do
  let b ← get
  let count := b.rebindings + 1
  set { b with rebindings := count }
  pure s!"{id}_{count}"

/-- Binds a variable to a node of a type. -/
def bindLocal (id : String) (ty : KernelType) (node : NodeId) : BuildM Unit :=
  modify fun b =>
    if ty.isScalar then { b with scalars := b.scalars.insert id node }
    else { b with tensors := b.tensors.insert id node }

/-- The type of a variable: its annotation, else its type so far, else the type of the value. -/
def variableType (id : String) (hint previous : Option KernelType) (value : KernelType)
    (span : Span) : BuildM KernelType :=
  match hint, previous with
  | some declared, some previous =>
    if declared = previous then pure declared else fail span (.redeclared id previous declared)
  | some declared, none => pure declared
  | none, some previous => pure previous
  | none, none => pure value

/--
Assigns a value to a variable.  The value is copied to a node of the variable's type; a tensor that
replaces an earlier one takes new memory.
-/
def assignName (id : String) (value : NodeId) (hint : Option KernelType) (span : Span) :
    BuildM Unit := do
  let b ← get
  if b.params.contains id then fail span (.reassignedParameter id)
  else if b.symbols.contains id then fail span (.reassignedSymbol id)
  else do
    let valueType := b.graph.type value
    let previous := (b.local? id).map b.graph.type
    let ty ← variableType id hint previous valueType span
    if !ty.sameShape valueType then fail span (.assignedType id valueType ty)
    else do
      let name ← if previous.isSome then freshName id else pure id
      let dst ← onGraph fun g => g.addOfType (some name) ty
      let kind := if previous.isSome && !ty.isScalar then OpKind.deepCopy else .copy
      let _ ← onGraph fun g => g.addOp kind [value] [dst]
      bindLocal id ty dst

/-- The indices of an assignment to an element, each for the next axis. -/
def targetIndices (ctx : BuildContext) (index : Expr) (target : NodeId) (span : Span) :
    BuildM (List AxisIndex) := do
  let elems := TypeHint.elements index
  let axes ← indexedAxes target elems.length span
  axisIndices ctx elems axes span

/-- The nodes of indices that are all single elements. -/
def elementNodes? : List AxisIndex → Option (List NodeId)
  | [] => some []
  | ⟨.element id, _⟩ :: rest => (elementNodes? rest).map (id :: ·)
  | ⟨.range _ _ _, _⟩ :: _ => none

/-- The tensor variable whose element is assigned to. -/
def elementTarget (id : String) (span : Span) : BuildM NodeId := do
  let b ← get
  if b.params.contains id then fail span (.elementOfParameter id)
  else
    match b.tensors.get? id with
    | some node => pure node
    | none =>
      if b.scalars.contains id then fail span (.elementOfScalar id)
      else fail span (.undefinedTensor id)

/-- Assigns a scalar to an element of a tensor variable, which gets a new node. -/
def assignElement (ctx : BuildContext) (target index : Expr) (value : NodeId) (span : Span) :
    BuildM Unit :=
  match target with
  | .name id _ => do
    let tensor ← elementTarget id span
    let ty := (← get).graph.type tensor
    let choices ← targetIndices ctx index tensor span
    match elementNodes? choices with
    | some nodes =>
      if nodes.length ≠ ty.rank then fail span (.incompleteElement id)
      else if !(← get).graph.isScalar value then fail span (.tensorAsElement id)
      else do
        let name ← freshName id
        let dst ← onGraph fun g => g.addOfType (some name) ty
        let _ ← onGraph fun g => g.addOp .setItem (tensor :: value :: nodes) [dst]
        modify fun b => { b with tensors := b.tensors.insert id dst }
    | none => fail span (.incompleteElement id)
  | _ => fail span (.unsupportedTarget target.text)

/-- Assigns the value of an expression to a variable or to an element of one. -/
def assign (ctx : BuildContext) (target value : Expr) (span : Span) : BuildM Unit :=
  match target with
  | .name id _ => do
    let value ← expr ctx value
    assignName id value none span
  | .subscript tensor index _ => do
    let value ← expr ctx value
    assignElement ctx tensor index value span
  | _ => fail span (.unsupportedTarget target.text)

/-- Assigns the value of an expression to a variable with an annotation. -/
def assignHinted (ctx : BuildContext) (target hint : Expr) (value : Option Expr)
    (span : Span) : BuildM Unit :=
  match target, value with
  | .name id _, some value => do
    let ty ← ofLocated (TypeHint.type hint)
    match (← get).unknownSymbol? ty with
    | some symbol => fail span (.unknownSymbol symbol id)
    | none => do
      let value ← expr ctx value
      assignName id value (some ty) span
  | .name id _, none => fail span (.declarationWithoutValue id)
  | .subscript _ _ _, _ => fail span .annotatedElement
  | _, _ => fail span (.unsupportedTarget target.text)

/-- Takes a node as the result of the function. -/
def returnNode (node : NodeId) (span : Span) : BuildM Unit := do
  let b ← get
  let ty := b.graph.type node
  match b.returnPlan with
  | .static declared dst =>
    if !declared.sameShape ty then fail span (.returnedType ty declared)
    else do
      let kind := if ty.isScalar then OpKind.copy else .deepCopy
      let _ ← onGraph fun g => g.addOp kind [node] [dst]
      modify fun b => { b with outputs := b.outputs ++ [dst] }
  | _ => set { b with returnType := some ty, outputs := b.outputs ++ [node] }

/-- Returns the value of an expression, or nothing from a function that is declared to. -/
def returns (ctx : BuildContext) (value : Option Expr) (span : Span) : BuildM Unit := do
  modify fun b => { b with returned := true }
  let b ← get
  match b.returnPlan, value with
  | .void, none => pure ()
  | .void, some _ => fail span (.valueFromVoid b.name)
  | _, none => fail span (.missingValue b.name)
  | _, some e => do
    let node ← expr ctx e
    returnNode node span

/-- Builds a statement. -/
def stmt (ctx : BuildContext) : Stmt → BuildM Unit
  | .assign target value span => assign ctx target value span
  | .annotated target hint value span => assignHinted ctx target hint value span
  | .augmented target op value span => assign ctx target (.binary target op value span) span
  | .returns value span => returns ctx value span
  | .expr (.call func args keywords span) _ => do
    let _ ← expr ctx (.call func args keywords span)
    pure ()
  | .expr (.string _ _) _ => pure ()
  | .expr _ span => fail span .statementWithoutEffect
  | .pass _ => pure ()
  | .delete span => fail span .deletion
  | .conditional span => fail span .conditional
  | .loop span => fail span .loop
  | .unsupported kind span => fail span (.unsupportedStatement kind)

/-- Builds the statements of a function; nothing may follow a return. -/
def body (ctx : BuildContext) : List Stmt → BuildM Unit
  | [] => pure ()
  | s :: rest => do
    if (← get).returned then fail s.span .unreachableStatement
    else do
      stmt ctx s
      body ctx rest

end BuildM

end TensorKernel
