import TensorKernel.Proofs.Build.Declaration
import TensorKernel.Proofs.SingleAssignment

/-!
# Lowered functions are typed

Names tell what they stand for only if different parameters keep different names.  This is so when
the names of the parameters need no other characters than an emitted identifier may have.
-/

namespace TensorKernel

open Buffer (Operand TypedIn definitions)

/-- An identifier of ASCII letters, digits and underscores. -/
def IsAsciiIdentifier (id : String) : Prop :=
  ∀ c ∈ id.toList, c.isAlphanum = true ∨ c = '_'

instance : DecidablePred IsAsciiIdentifier := fun id =>
  List.decidableBAll (fun c : Char => c.isAlphanum = true ∨ c = '_') id.toList

/-- Such an identifier stays as it is. -/
theorem IsAsciiIdentifier.sanitize_eq {id : String} (h : IsAsciiIdentifier id) :
    sanitize id = id := by
  have hsame : (id.toList.map fun c => if c.isAlphanum || c == '_' then c else '_') = id.toList := by
    refine Eq.trans (List.map_congr_left fun c hc => ?_) (List.map_id id.toList)
    rcases h c hc with hc | hc <;> simp [hc]
  rw [sanitize, hsame, String.ofList_toList]

/-- Parameters with different identifiers have different names. -/
theorem nodup_paramOperands {g : Graph} {inputs : List (String × NodeId)}
    (hnodup : (inputs.map Prod.fst).Nodup) (hascii : ∀ p ∈ inputs, IsAsciiIdentifier p.1) :
    ((inputs.map (LowerM.paramOperand g)).map Operand.key).Nodup := by
  have hkeys : (inputs.map (LowerM.paramOperand g)).map Operand.key =
      (inputs.map Prod.fst).map NameKey.plain := by
    rw [List.map_map, List.map_map]
    refine List.map_congr_left fun p hp => ?_
    show NameKey.plain (sanitize p.1) = .plain p.1
    rw [(hascii p hp).sanitize_eq]
  rw [hkeys]
  exact hnodup.map fun _ _ h => NameKey.plain.inj h

/-- Parameters and numbered definitions have different names. -/
theorem LowerM.Emitted.distinct {castable : ElemSize → Prop} {f : FunctionGraph}
    {fn : Buffer.Function} (h : Emitted castable f fn) (hnodup : (f.inputs.map Prod.fst).Nodup)
    (hascii : ∀ p ∈ f.inputs, IsAsciiIdentifier p.1) :
    ((fn.params ++ definitions fn.body).map Operand.key).Nodup := by
  obtain ⟨hi, hnumbered⟩ := h.numbered
  rw [h.params, List.map_append, List.nodup_append]
  refine ⟨nodup_paramOperands hnodup hascii, hnumbered.nodup, fun key hparam key' hdefined heq => ?_⟩
  obtain ⟨p, hp, rfl⟩ := List.mem_map.mp hparam
  obtain ⟨input, -, rfl⟩ := List.mem_map.mp hp
  obtain ⟨d, hd, rfl⟩ := List.mem_map.mp hdefined
  obtain ⟨k, -, -, hk⟩ := hnumbered.number d hd
  simp [LowerM.paramOperand, Operand.key, Name.key, Name.plain, hk] at heq

/--
A graph that was built with shape symbols of a signed element size, and whose parameters have ASCII
identifiers, lowers to a typed function.
-/
theorem lower_wellTyped {defs : List FunctionDef} {main : String} {options : Options}
    {f : FunctionGraph} (h : buildGraph defs main options = .ok f)
    (hindex : options.indexSize.isSignedInteger = true)
    (hascii : ∀ p ∈ f.inputs, IsAsciiIdentifier p.1) (lowering : Options) :
    ∃ fn, f.lower lowering = .ok fn ∧ fn.WellTyped := by
  have hf := buildGraph_wellFormed h
  obtain ⟨_, -, -, hdeclared⟩ := buildGraph_declared h
  obtain ⟨fn, hlower⟩ := hf.exists_lower lowering
  obtain ⟨s, hrun⟩ := FunctionGraph.run_of_lower hlower
  have hemitted : LowerM.Emitted (fun sz => sz.isSignedInteger = true) f fn :=
    LowerM.emitted_function hf (fun _ h => h) hindex hrun
  have hdistinct := hemitted.distinct hdeclared.names hascii
  exact ⟨fn, hlower, hdistinct, Buffer.Function.typed_of_holds hdistinct hemitted.typed,
    hemitted.returns⟩

theorem lower_wellTyped_weightedSum :
    ∃ f fn, buildGraph [weightedSum] "weighted" .default = .ok f ∧
      f.lower .default = .ok fn ∧ fn.WellTyped := by
  have hbuilds : (buildGraph [weightedSum] "weighted" .default).toOption.any (fun f =>
      decide (∀ p ∈ f.inputs, IsAsciiIdentifier p.1)) = true := by decide +kernel
  obtain ⟨f, hbuild, hchecks⟩ := exists_of_any_toOption hbuilds
  have hascii : ∀ p ∈ f.inputs, IsAsciiIdentifier p.1 := of_decide_eq_true hchecks
  obtain ⟨fn, hlower, hfn⟩ := lower_wellTyped hbuild rfl hascii .default
  exact ⟨f, fn, hbuild, hlower, hfn⟩

end TensorKernel
