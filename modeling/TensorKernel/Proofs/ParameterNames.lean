import TensorKernel.Proofs.Print.Naming
import TensorKernel.Proofs.WellTyped

/-!
# The names of parameters

Parameters are printed before all else, so each keeps its emitted identifier as its text.  Emitted
identifiers have ASCII letters, digits and underscores only; every other character becomes an
underscore.  `lower_parameters` says what follows for functions that were built, whose parameters have
different identifiers in the source: they are told apart exactly if their emitted identifiers differ.
-/

namespace TensorKernel

open Buffer (Operand uses definitions)

namespace PrintEnv

/-- Only plain names were printed, each as its identifier. -/
structure Plain (env : PrintEnv) : Prop where
  key : ∀ {key text}, env.names.get? key = some text → key = .plain text
  taken : ∀ {text}, text ∈ env.taken → env.names.get? (.plain text) = some text

theorem plain_empty (suffixes : FreshSuffix) : (empty suffixes).Plain := ⟨nofun, nofun⟩

variable {env : PrintEnv}

/-- Where only plain names were printed, so is the next one, as its identifier. -/
theorem Plain.nameText (h : env.Plain) (text : String) :
    (env.nameText (.plain text)).1 = text ∧ (env.nameText (.plain text)).2.Plain := by
  cases hname : env.textOf? (.plain text) with
  | some known =>
    rw [nameText_of_some hname]
    exact ⟨(NameKey.plain.inj (h.key hname)).symm, h⟩
  | none =>
    have hfresh : text ∉ env.taken := fun hmem => nomatch hname.symm.trans (h.taken hmem)
    have hfree : env.freeText (.plain text) = text := by
      simp [freeText, Name.plain, hfresh]
    rw [nameText_of_none hname, hfree]
    refine ⟨rfl, fun {key other} hkey => ?_, fun {other} hother => ?_⟩
    · rw [Scope.get?_bind] at hkey
      split at hkey
      · next heq => exact heq.trans (congrArg NameKey.plain (Option.some.inj hkey))
      · exact h.key hkey
    · rw [Scope.get?_bind]
      rcases List.mem_cons.mp hother with rfl | hother
      · exact if_pos rfl
      · split
        · next heq => exact congrArg some (NameKey.plain.inj heq).symm
        · exact h.taken hother

end PrintEnv

namespace Buffer

namespace Print

open PrintM (printFrom)

/-- Plain names that are declared before all others are their identifiers. -/
theorem textOf?_typed {os : List Operand} (hplain : ∀ o ∈ os, o.name.number = none) {env : PrintEnv}
    (henv : env.Plain) :
    ((typed os).printFrom env).2.Plain ∧
      ∀ o ∈ os, ((typed os).printFrom env).2.textOf? o.name = some o.name.text := by
  induction os generalizing env with
  | nil => exact ⟨henv, nofun⟩
  | cons o os ih =>
    have hname : o.name = .plain o.name.text := by
      cases hparts : o.name with
      | mk text number =>
        have hnumber : number = none := by simpa [hparts] using hplain o List.mem_cons_self
        rw [hnumber, Name.plain]
    obtain ⟨htext, hafter⟩ := henv.nameText o.name.text
    rw [← hname] at htext hafter
    obtain ⟨hlast, hrest⟩ := ih (fun o' ho' => hplain o' (List.mem_cons_of_mem _ ho')) hafter
    refine ⟨hlast, fun o' ho' => ?_⟩
    rcases List.mem_cons.mp ho' with rfl | ho'
    · have hfirst := env.textOf?_nameText o'.name
      rw [htext] at hfirst
      exact ((prints_typed os).precedes _).text hfirst
    · exact hrest o' ho'

/-- The parameters of a printed function have their identifiers as texts. -/
theorem textOf?_params {fn : Function} (hplain : ∀ o ∈ fn.params, o.name.number = none)
    (suffixes : FreshSuffix) : ∀ o ∈ fn.params,
      ((function fn).printFrom (.empty suffixes)).2.textOf? o.name = some o.name.text := by
  intro o ho
  have hdeclared := (textOf?_typed hplain (PrintEnv.plain_empty suffixes)).2 o ho
  exact ((prints_stmts fn.body).nested.precedes _).text hdeclared

end Print

end Buffer

/-- The identifiers of the parameters in the emitted function. -/
def FunctionGraph.parameterTexts (f : FunctionGraph) : List String :=
  f.inputs.map fun input => sanitize input.1

/-- Where no two parameters have one name, no name is that of two. -/
theorem countP_same_le_one {os : List Operand} (h : (os.map Operand.key).Nodup) (name : Name) :
    os.countP (fun o => o.name.same name) ≤ 1 := by
  calc os.countP (fun o => o.name.same name)
      = (os.map Operand.key).count name.key := by
        rw [List.count, List.countP_map]
        rfl
    _ ≤ 1 := List.nodup_iff_count_le_one.mp h name.key

/--
The parameters of a function that was built have different identifiers.  In the emitted function they
have the emitted identifiers as names and as printed texts, whatever suffixes are drawn.  So the names
differ exactly if the emitted identifiers do, and so do the texts; then a name that the body reads
belongs to one parameter at most.  Identifiers of ASCII letters, digits and underscores are emitted as
they are.
-/
theorem lower_parameters {defs : List FunctionDef} {main : String} {options : Options}
    {f : FunctionGraph} (h : buildGraph defs main options = .ok f) (lowering : Options) :
    (f.inputs.map Prod.fst).Nodup ∧ ∃ fn, f.lower lowering = .ok fn ∧
      fn.params.map Operand.name = f.parameterTexts.map Name.plain ∧
      (∀ suffixes, (fn.params.map fun p =>
        ((Buffer.Print.function fn).printFrom (.empty suffixes)).2.textOf? p.name) =
          f.parameterTexts.map some) ∧
      ((fn.params.map Operand.key).Nodup ↔ f.parameterTexts.Nodup) ∧
      (f.parameterTexts.Nodup → ∀ n ∈ uses fn.body, fn.params.countP (fun p => p.name.same n) ≤ 1) ∧
      ((∀ input ∈ f.inputs, IsAsciiIdentifier input.1) → f.parameterTexts.Nodup) := by
  have hf := buildGraph_wellFormed h
  obtain ⟨_, -, -, hdeclared⟩ := buildGraph_declared h
  obtain ⟨fn, hlower⟩ := hf.exists_lower lowering
  obtain ⟨s, hrun⟩ := FunctionGraph.run_of_lower hlower
  have hemitted : LowerM.Emitted (fun _ => True) f fn :=
    LowerM.emitted_function hf (fun _ _ => trivial) trivial hrun
  have hparams : fn.params = f.inputs.map (LowerM.paramOperand f.graph) := hemitted.params
  have hnames : fn.params.map Operand.name = f.parameterTexts.map Name.plain := by
    rw [hparams, FunctionGraph.parameterTexts, List.map_map, List.map_map]
    rfl
  have hkeys : fn.params.map Operand.key = f.parameterTexts.map NameKey.plain := by
    rw [hparams, FunctionGraph.parameterTexts, List.map_map, List.map_map]
    rfl
  have hiff : (fn.params.map Operand.key).Nodup ↔ f.parameterTexts.Nodup := by
    rw [hkeys, List.nodup_map_iff fun _ _ => NameKey.plain.inj]
  refine ⟨hdeclared.names, fn, hlower, hnames, fun suffixes => ?_, hiff,
    fun hnodup n _ => countP_same_le_one (hiff.mpr hnodup) n, fun hascii => ?_⟩
  -- Plain names are printed as they are, so the texts are the names.
  · have hplain : ∀ o ∈ fn.params, o.name.number = none := by
      rw [hparams]
      intro o ho
      obtain ⟨input, -, rfl⟩ := List.mem_map.mp ho
      rfl
    calc (fn.params.map fun p =>
          ((Buffer.Print.function fn).printFrom (.empty suffixes)).2.textOf? p.name)
        = fn.params.map fun p => some p.name.text :=
          List.map_congr_left (Buffer.Print.textOf?_params hplain suffixes)
      _ = f.parameterTexts.map some := by
          rw [hparams, FunctionGraph.parameterTexts, List.map_map, List.map_map]
          rfl
  · have hsame : f.parameterTexts = f.inputs.map Prod.fst :=
      List.map_congr_left fun input hinput => (hascii input hinput).sanitize_eq
    rw [hsame]
    exact hdeclared.names

theorem lower_parameters_weightedSum :
    ∃ f fn, buildGraph [weightedSum] "weighted" .default = .ok f ∧ f.lower .default = .ok fn ∧
      (fn.params.map Operand.key).Nodup := by
  have hbuilds : (buildGraph [weightedSum] "weighted" .default).toOption.any (fun f =>
      decide (∀ p ∈ f.inputs, IsAsciiIdentifier p.1)) = true := by decide +kernel
  obtain ⟨f, hbuild, hchecks⟩ := exists_of_any_toOption hbuilds
  obtain ⟨-, fn, hlower, -, -, hiff, -, hascii⟩ := lower_parameters hbuild .default
  exact ⟨f, fn, hbuild, hlower, hiff.mpr (hascii (of_decide_eq_true hchecks))⟩

/-- A kernel that returns the second of two parameters, whose identifiers are one letter each. -/
def secondOf (first second : String) : FunctionDef :=
  ⟨"f", [⟨first, some (.name "int64" .nowhere), .nowhere⟩,
    ⟨second, some (.name "int64" .nowhere), .nowhere⟩], .missing,
    [.returns (some (.name second .nowhere)) .nowhere], .nowhere⟩

/-- Letters that are not ASCII letters become one name: the result is read from either parameter. -/
theorem lower_parameters_umlauts :
    ∃ f fn, buildGraph [secondOf "é" "ü"] "f" .default = .ok f ∧ f.lower .default = .ok fn ∧
      (f.inputs.map Prod.fst).Nodup ∧ ¬ (fn.params.map Operand.key).Nodup ∧
      fn.text = "func.func @f(%_: i64, %_: i64) -> i64 \x7b\n  func.return %_ : i64\n\x7d" := by
  have hbuilds : (buildGraph [secondOf "é" "ü"] "f" .default).toOption.any (fun f =>
      (f.inputs.map Prod.fst == ["é", "ü"]) && (f.lower .default).toOption.any fun fn =>
        (fn.params.map Operand.key == [.plain "_", .plain "_"]) &&
          fn.text == "func.func @f(%_: i64, %_: i64) -> i64 \x7b\n  func.return %_ : i64\n\x7d") =
        true := by decide +kernel
  obtain ⟨f, hbuild, hlowers⟩ := exists_of_any_toOption hbuilds
  obtain ⟨hinputs, hlowers⟩ := Bool.and_eq_true_iff.mp hlowers
  obtain ⟨fn, hlower, hfn⟩ := exists_of_any_toOption hlowers
  obtain ⟨hkeys, htext⟩ := Bool.and_eq_true_iff.mp hfn
  refine ⟨f, fn, hbuild, hlower, ?_, ?_, beq_iff_eq.mp htext⟩
  · rw [beq_iff_eq.mp hinputs]
    decide +kernel
  · rw [beq_iff_eq.mp hkeys]
    decide

end TensorKernel
