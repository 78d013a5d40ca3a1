import TensorKernel.Compile
import TensorKernel.Proofs.Build.Registry
import TensorKernel.Proofs.Lower.Function

/-!
# Compilation has no internal errors

Building a module fails only for reasons that have to do with the module, and a graph that was built
lowers completely.
-/

namespace TensorKernel

/-- The kinds of errors that a module may be to blame for. -/
theorem ErrorKind.of_ne_internalError {kind : ErrorKind} (h : kind ≠ .internalError) :
    kind ∈ [ErrorKind.syntaxError, .rangeError, .runtimeError, .notImplemented] := by
  cases kind <;> simp at h ⊢

/-- A built graph lowers completely. -/
theorem exists_lower_of_buildGraph {defs : List FunctionDef} {main : String} {options : Options}
    {f : FunctionGraph} (h : buildGraph defs main options = .ok f) :
    ∃ fn, f.lower options = .ok fn :=
  (buildGraph_wellFormed h).exists_lower options

/-- Compiling a function fails as building its graph fails. -/
theorem compileFunction_cases (defs : List FunctionDef) (main : String) (options : Options) :
    (∃ fn, compileFunction defs main options = .ok fn) ∨
      ∃ err, buildGraph defs main options = .error err ∧
        compileFunction defs main options = .error (.build err) := by
  unfold compileFunction
  cases hbuild : buildGraph defs main options with
  | error err => exact Or.inr ⟨err, rfl, rfl⟩
  | ok f =>
    obtain ⟨fn, hlower⟩ := exists_lower_of_buildGraph hbuild
    refine Or.inl ⟨fn, ?_⟩
    calc (do
          let g ← (Except.ok f : Except BuildError FunctionGraph).mapError CompileError.build
          (g.lower options).mapError .lowering)
        = (f.lower options).mapError .lowering := rfl
      _ = .ok fn := by rw [hlower]; rfl

/--
A module compiles, or it fails with an error that the module is to blame for; whatever is built
lowers completely.
-/
theorem compile_complete {defs : List FunctionDef} (hdefs : ∀ f ∈ defs, f.BooleansNonempty)
    (main : String) (options : Options) :
    ((∃ text, compile defs main options = .ok text) ∨
      ∃ err, compile defs main options = .error err ∧
        err.kind ∈ [ErrorKind.syntaxError, .rangeError, .runtimeError, .notImplemented]) ∧
    ∀ f, buildGraph defs main options = .ok f → ∃ fn, f.lower options = .ok fn := by
  refine ⟨?_, fun f h => exists_lower_of_buildGraph h⟩
  unfold compile
  rcases compileFunction_cases defs main options with ⟨fn, hfn⟩ | ⟨err, hbuild, herr⟩
  · rw [hfn]
    exact Or.inl ⟨fn.text, rfl⟩
  · rw [herr]
    exact Or.inr ⟨.build err, rfl,
      ErrorKind.of_ne_internalError (buildGraph_error_kind hdefs hbuild)⟩

/-- A kernel with a boolean operation, and one that calls it. -/
def conjunctionModule : List FunctionDef :=
  let hint : Option Expr := some (.name "bool" .nowhere)
  let x : Expr := .name "x" .nowhere
  [⟨"both", [⟨"x", hint, .nowhere⟩], .missing,
      [.returns (some (.boolean .and [x, .bool true .nowhere] .nowhere)) .nowhere], .nowhere⟩,
    ⟨"main", [⟨"x", hint, .nowhere⟩], .missing,
      [.returns (some (.call (.name "both" .nowhere) [x] [] .nowhere)) .nowhere], .nowhere⟩]

theorem compile_complete_conjunctionModule :
    (∀ f ∈ conjunctionModule, f.BooleansNonempty) ∧
      ∀ f, buildGraph conjunctionModule "main" .default = .ok f →
        ∃ fn, f.lower .default = .ok fn := by
  have hbooleans : ∀ f ∈ conjunctionModule, f.BooleansNonempty := by
    simp [conjunctionModule, FunctionDef.BooleansNonempty, Stmt.BooleansNonempty,
      Expr.OptionBooleansNonempty, Expr.BooleansNonempty, Expr.AllBooleansNonempty]
  exact ⟨hbooleans, (compile_complete hbooleans "main" .default).2⟩

end TensorKernel
