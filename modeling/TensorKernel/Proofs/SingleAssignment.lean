import TensorKernel.Proofs.Compile
import TensorKernel.Proofs.Emission.Function

/-!
# Lowered functions are in single-assignment form
-/

namespace TensorKernel

open Buffer (Holds Operand ReadsKnown TypedIn definitions)

/-- A name from an interval has a number. -/
theorem Numbered.isSome {lo hi : Nat} {ds : List Operand} (h : Numbered lo hi ds) :
    ∀ d ∈ ds, d.name.number.isSome = true := by
  intro d hd
  obtain ⟨k, -, -, hk⟩ := h.number d hd
  rw [hk]
  rfl

/-- Lowering gives what the steps of lowering give. -/
theorem FunctionGraph.run_of_lower {f : FunctionGraph} {options : Options} {fn : Buffer.Function}
    (h : f.lower options = .ok fn) : ∃ s, LowerM.function f options .start = .ok (fn, s) := by
  have hmap : (LowerM.function f options .start).map Prod.fst = .ok fn := h
  cases hrun : LowerM.function f options .start with
  | error fault =>
    rw [hrun] at hmap
    cases hmap
  | ok p =>
    rw [hrun] at hmap
    cases hmap
    exact ⟨p.2, rfl⟩

/-- A graph that was built lowers to a function in single-assignment form. -/
theorem lower_singleAssignment {defs : List FunctionDef} {main : String} {options : Options}
    {f : FunctionGraph} (h : buildGraph defs main options = .ok f) (lowering : Options) :
    ∃ fn, f.lower lowering = .ok fn ∧ fn.SingleAssignment := by
  have hf := buildGraph_wellFormed h
  obtain ⟨fn, hlower⟩ := hf.exists_lower lowering
  refine ⟨fn, hlower, ?_⟩
  obtain ⟨s, hrun⟩ := FunctionGraph.run_of_lower hlower
  have hemitted : LowerM.Emitted (fun _ => True) f fn :=
    LowerM.emitted_function hf (fun _ _ => trivial) trivial hrun
  obtain ⟨hi, hnumbered⟩ := hemitted.numbered
  refine .of_numbers (fun p hp => ?_) hnumbered.isSome hnumbered.nodup
    (hemitted.typed.imp fun _ _ => TypedIn.readsKnown)
  rw [hemitted.params] at hp
  obtain ⟨input, -, rfl⟩ := List.mem_map.mp hp
  rfl

/--
A kernel whose result reads a sum over an axis, a slice, a scalar parameter and a shape symbol; the
last two are read in the body of an elementwise operator.
-/
def weightedSum : FunctionDef :=
  let name (id : String) : Expr := .name id .nowhere
  let sum : Expr := .call (.member (name "np") "sum" .nowhere) [name "a"]
    [.mk "axis" (.int 0 .nowhere) .nowhere] .nowhere
  let rest : Expr := .subscript sum (.slice (some (.int 1 .nowhere)) none none .nowhere) .nowhere
  let factor : Expr := .binary (name "k") .add (name "N") .nowhere
  ⟨"weighted", [⟨"a", some (.subscript (name "int32") (.tuple [name "N", .int 3 .nowhere] .nowhere)
      .nowhere), .nowhere⟩, ⟨"k", some (name "int8"), .nowhere⟩], .missing,
    [.returns (some (.binary rest .mul factor .nowhere)) .nowhere], .nowhere⟩

theorem lower_singleAssignment_weightedSum :
    ∃ f fn, buildGraph [weightedSum] "weighted" .default = .ok f ∧
      f.lower .default = .ok fn ∧ fn.SingleAssignment := by
  have hbuilds : (buildGraph [weightedSum] "weighted" .default).isOk = true := by decide +kernel
  obtain ⟨f, hbuild⟩ := exists_of_isOk hbuilds
  obtain ⟨fn, hlower, hfn⟩ := lower_singleAssignment hbuild .default
  exact ⟨f, fn, hbuild, hlower, hfn⟩

end TensorKernel
