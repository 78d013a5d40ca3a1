import TensorKernel.Kernel.Tree

/-!
# Calls by bare names

Which kernel functions the body of a function calls by their bare names, wherever in an expression
the call stands.  Annotations are no part of a body: they hold types, and no type has a call in it.
-/

namespace TensorKernel

namespace Expr

/-- The function that a call of an expression calls: a bare name, or none. -/
def bareName : Expr → List String
  | .name id _ => [id]
  | _ => []

mutual

/-- The functions that are called in an expression. -/
def calls : Expr → List String
  | .unary _ arg _ => arg.calls
  | .binary lhs _ rhs _ => lhs.calls ++ rhs.calls
  | .boolean _ operands _ => callsOfList operands
  | .compare lhs _ comparators _ => lhs.calls ++ callsOfList comparators
  | .subscript target index _ => target.calls ++ index.calls
  | .slice lower upper step _ =>
    callsOfOption lower ++ (callsOfOption upper ++ callsOfOption step)
  | .tuple elems _ => callsOfList elems
  | .member value _ _ => value.calls
  | .call func args keywords _ =>
    func.bareName ++ (func.calls ++ (callsOfList args ++ callsOfKeywords keywords))
  | _ => []

/-- The functions that are called in a list of expressions. -/
def callsOfList : List Expr → List String
  | [] => []
  | e :: es => e.calls ++ callsOfList es

/-- The functions that are called in an expression that may be missing. -/
def callsOfOption : Option Expr → List String
  | none => []
  | some e => e.calls

/-- The functions that are called in named arguments. -/
def callsOfKeywords : List Keyword → List String
  | [] => []
  | .mk _ value _ :: rest => value.calls ++ callsOfKeywords rest

end

/-- An integer calls nothing. -/
theorem calls_of_integerLiteral? {e : Expr} {v : Int} (h : e.integerLiteral? = some v) :
    e.calls = [] := by
  unfold integerLiteral? at h
  split at h
  · simp [calls]
  · simp [calls]
  · cases h

end Expr

/-- The functions that are called in a statement. -/
def Stmt.calls : Stmt → List String
  | .assign target value _ => target.calls ++ value.calls
  | .annotated target _ value _ => target.calls ++ Expr.callsOfOption value
  | .augmented target _ value _ => target.calls ++ value.calls
  | .returns value _ => Expr.callsOfOption value
  | .expr value _ => value.calls
  | _ => []

/-- The functions that are called in the body of a function. -/
def FunctionDef.calls (f : FunctionDef) : List String :=
  f.body.flatMap Stmt.calls

end TensorKernel
