import TensorKernel.Build.Registry
import TensorKernel.Buffer.Text
import TensorKernel.Lower.Function

/-!
# Compilation

A module is compiled by building the graph of its main function, lowering the graph to a buffer
program, and printing the program.
-/

namespace TensorKernel

/-- Why a module cannot be compiled. -/
inductive CompileError where
  | build (error : BuildError)
  | lowering (fault : LoweringFault)
deriving DecidableEq

namespace CompileError

/-- The kind of error a failure is reported as. -/
def kind : CompileError → ErrorKind
  | build error => error.kind
  | lowering fault => fault.kind

/-- The message about a failure. -/
def message (files : Files) : CompileError → String
  | build error => error.message files
  | lowering fault => fault.message

end CompileError

/-- The buffer program of the main function of a module. -/
def compileFunction (defs : List FunctionDef) (main : String) (options : Options) :
    Except CompileError Buffer.Function := do
  let g ← (buildGraph defs main options).mapError .build
  (g.lower options).mapError .lowering

/-- The text of the buffer program of the main function of a module. -/
def compile (defs : List FunctionDef) (main : String) (options : Options) :
    Except CompileError String :=
  (compileFunction defs main options).map Buffer.Function.text

end TensorKernel
