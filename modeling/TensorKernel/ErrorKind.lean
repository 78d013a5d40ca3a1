import TensorKernel.Span

/-!
# Kinds of errors

Every failure has a kind, a message, and, where it has to do with a place in a source file, a span.
-/

namespace TensorKernel

/-- The kinds of errors. -/
inductive ErrorKind where
  | syntaxError
  | rangeError
  | runtimeError
  | notImplemented
  | internalError
deriving DecidableEq, Inhabited

namespace ErrorKind

/-- The words for a kind of error. -/
def heading : ErrorKind → String
  | syntaxError => "Kernel syntax error"
  | rangeError => "Kernel range error"
  | runtimeError => "Kernel runtime error"
  | notImplemented => "Kernel feature not implemented"
  | internalError => "Internal kernel compiler error"

/-- An error as it is reported: its kind and its message. -/
def report (kind : ErrorKind) (message : String) : String :=
  s!"{kind.heading}: {message}"

end ErrorKind

/-- A cause of failure together with the span it concerns. -/
structure Located (φ : Type) where
  fault : φ
  span : Span
deriving DecidableEq

end TensorKernel
