import TensorKernel.Graph.FunctionGraph

/-!
# The text of a graph

A function graph is shown as its signature, its shape symbols, and its nodes and operators in the
order in which they were added.
-/

namespace TensorKernel

/-- How a list of nodes is shown. -/
def NodeId.listText (ids : List NodeId) : String :=
  ", ".intercalate (ids.map NodeId.text)

/-- How a body is shown: its placeholders, and the results it collects. -/
def Body.text (body : Body) : String :=
  let ins := body.inputs.map fun pair => s!"{pair.2.text} <- {pair.1.text}"
  let outs := body.outputs.map fun pair => s!"{pair.2.text} <- {pair.1.text}"
  "\x7b" ++ ", ".intercalate ins ++ "; " ++ ", ".intercalate outs ++ "\x7d"

namespace Graph

/-- How a node is shown: its type, and its value or its name. -/
def nodeText (g : Graph) (id : NodeId) : String :=
  let node := g.node id
  let head := s!"{id.text}: {node.type.text}"
  match node.constant?, node.name with
  | some value, _ => s!"{head} = {value.text}"
  | none, some name => s!"{head} ({name})"
  | none, none => head

/-- The word for a kind of operator, with what is in brackets behind it. -/
def opWord : OpKind → String
  | .unary op => s!"unary[{op.text}]"
  | .binary op => s!"binary[{op.text}]"
  | .elementwise _ => "elementwise"
  | .reduction dims _ _ =>
    let axes := ", ".intercalate (dims.map toString)
    s!"reduce[{axes}]"
  | .getItem => "getitem"
  | .setItem => "setitem"
  | .slice _ sizes => s!"slice[{Shape.text sizes}]"
  | .copy => "copy"
  | .deepCopy => "deepcopy"

/-- How an operator is shown: its results, its kind, what it reads, and its body. -/
def opText (g : Graph) (id : OpId) : String :=
  let op := g.op id
  let body :=
    match op.kind with
    | .elementwise body => " " ++ body.text
    | .reduction _ body _ => " " ++ body.text
    | _ => ""
  s!"{NodeId.listText op.outputs} = {opWord op.kind}({NodeId.listText op.inputs})" ++ body

/-- How an item is shown. -/
def itemText (g : Graph) : Item → String
  | .node id => g.nodeText id
  | .op id => g.opText id

end Graph

namespace FunctionGraph

/-- The parameters and the result type, if it is known. -/
def signature (f : FunctionGraph) : String :=
  let params := ", ".intercalate
    (f.inputs.map fun input => s!"{input.1}: {(f.graph.type input.2).text}")
  let result :=
    match f.returnType with
    | some ty => s!" -> {ty.text}"
    | none => ""
  s!"{f.name}({params}){result}"

/-- The text of a function graph. -/
def text (f : FunctionGraph) : String :=
  let symbols := f.symbols.entries.map fun (name, symbol) =>
    s!"{symbol.node.text} = {name} = dim({symbol.arg.text}, {symbol.axis})"
  let items := f.graph.items.toList.map f.graph.itemText
  let body := "\n".intercalate ((symbols ++ items).map fun line => "  " ++ line)
  s!"def {f.signature}: # {f.returnKind.text}, inline: {f.canInline}\n{body}\nreturn " ++
    NodeId.listText f.outputs

end FunctionGraph

end TensorKernel
