import TensorKernel.Proofs.Build.WellFormed
import TensorKernel.Proofs.Emission.Operator

/-!
# Statements for functions

The function that a well-formed function graph is lowered to is typed in context, defines new names
only, and returns its values at its end.
-/

namespace TensorKernel

open Buffer (Holds Operand Ty TypedIn definitions)

/-- What computes a node that lowering may ask for. -/
theorem Graph.Lowerable.computes {g : Graph} {e : Entry} (hc : g.Coherent)
    (he : g.EntryValid e) {id : NodeId} (h : g.Lowerable e id)
    (hconstant : (g.node id).constant? = none) {o : OpId} (hproducer : (g.node id).producer = some o) :
    g.Computes e (g.Available e) (g.op o) id ∨
      g.ScalarOp (fun arg => g.Hole e arg ∨ g.Available e arg) (g.op o) id := by
  rcases h with hid | hhole | ⟨o', hproducer', hop⟩
  · rcases hid.cases hc with (hgiven | ⟨v, hv⟩) | ⟨o', hproducer', hop⟩
    · rw [he.producer hgiven] at hproducer
      cases hproducer
    · rw [hconstant] at hv
      cases hv
    · rw [hproducer] at hproducer'
      cases hproducer'
      exact Or.inl hop
  · rw [hhole.producer] at hproducer
    cases hproducer
  · rw [hproducer] at hproducer'
    cases hproducer'
    exact Or.inr hop

namespace LowerM

variable {g : Graph} {e : Entry} {castable : ElemSize → Prop} {fixed : Prop}
  {known : List Operand} {lo : Nat} {need : NodeId → LowerM Name} {s : LowerState}

/-! ## Nodes -/

/-- The name that a node was given by the last step. -/
def answer (id : NodeId) : LowerM Name := do
  match (← get).lookup id with
  | some name => pure name
  | none => throw (.notBound id)

theorem emits_answer {id : NodeId} :
    Emits g castable fixed known lo (answer id) s fun known' n => ⟨n, g.valueType id⟩ ∈ known' := by
  refine emits_get_bind fun hs => ?_
  cases hfound : s.lookup id with
  | some n => exact emits_pure (hs.node hfound)
  | none => exact emits_throw

theorem emits_nodeRule (hc : g.Coherent) (he : g.EntryValid e)
    (hneed : Gives g castable need (g.Lowerable e))
    (hcast : ∀ sz : ElemSize, sz.isSignedInteger = true → castable sz) {id : NodeId}
    (hid : g.Lowerable e id) :
    Emits g castable fixed known lo (nodeRule g need id) s fun known' n =>
      ⟨n, g.valueType id⟩ ∈ known' := by
  refine emits_get_bind fun hs => ?_
  cases hfound : s.lookup id with
  | some n => exact emits_pure (hs.node hfound)
  -- Nothing has a name yet: a constant is emitted, and anything else comes from its operator.
  | none =>
    cases hconstant : (g.node id).constant? with
    | some v =>
      simp only [hconstant]
      refine (emits_constant v _).bind fun n s₁ known₁ _ hn => ?_
      rw [← Graph.elemSize, ← g.valueType_scalar (Graph.isScalar_of_constant hconstant)] at hn
      exact (emits_name hn).bind fun _ _ _ h₂ _ => emits_pure (h₂ hn)
    | none =>
      cases hproducer : (g.node id).producer with
      | none =>
        simp only [hconstant, hproducer]
        exact emits_throw
      | some o =>
        simp only [hconstant, hproducer]
        refine emits_get_bind fun _ => emits_ite (fun _ => emits_answer) fun _ => ?_
        refine (emits_visit o).bind fun _ s₁ known₁ _ _ => ?_
        have hop : Emits g castable fixed known₁ s₁.counter (operator g need (g.op o)) s₁
            fun _ _ => True := by
          rcases hid.computes hc he hconstant hproducer with hop | hop
          · exact emits_operator hneed hcast hop
          · exact emits_scalarOp hneed (hop.mono fun arg harg =>
              harg.elim (fun h => Or.inr (Or.inl h)) Or.inl)
        exact hop.bind fun _ _ _ _ _ => emits_answer

theorem gives_node (hc : g.Coherent) (he : g.EntryValid e)
    (hcast : ∀ sz : ElemSize, sz.isSignedInteger = true → castable sz) (k : Nat) :
    Gives g castable (node g k) (g.Lowerable e) := by
  induction k with
  | zero => exact fun _ => emits_throw
  | succ k ih => exact fun hid => emits_nodeRule hc he ih hcast hid

/-! ## Parameters and symbols -/

/-- A parameter of an emitted function. -/
def paramOperand (g : Graph) (input : String × NodeId) : Operand :=
  ⟨.plain (sanitize input.1), g.valueType input.2⟩

theorem emits_bindParams {inputs : List (String × NodeId)} : ∀ {known lo s},
    inputs.map (paramOperand g) ⊆ known →
    Emits g castable fixed known lo (bindParams g inputs) s fun _ params =>
      params = inputs.map (paramOperand g) := by
  induction inputs with
  | nil => exact fun _ => emits_pure rfl
  | cons input inputs ih =>
    intro known lo s hknown
    rw [List.map_cons, List.cons_subset] at hknown
    refine (emits_name hknown.1).bind fun _ _ _ h₁ _ => ?_
    exact (ih (List.Subset.trans hknown.2 h₁)).bind fun params _ _ _ hparams =>
      emits_pure (by rw [hparams]; rfl)

theorem emits_bindSymbol (symbol : String) {n : Name} (hn : ⟨n, .index⟩ ∈ known) :
    Emits g castable False known lo
      (modify fun s => { s with symbols := s.symbols.insert symbol n }) s fun _ _ => True := by
  intro hs _ _ s' hrun
  cases hrun
  refine ⟨[], .silent rfl rfl False.elim (Nat.le_refl _) ?_, trivial⟩
  refine ⟨hs.scopes, hs.blocks, hs.node, hs.index, fun {other m} hm => ?_⟩
  rw [Table.get?_insert] at hm
  split at hm
  · cases hm
    exact hn
  · exact hs.symbol hm

theorem emits_bindSymbols (hneed : Gives g castable (node g (depth g)) (g.Lowerable e))
    {entries : List (String × ShapeSymbol)} : ∀ {known lo s},
    (∀ p ∈ entries, g.Lowerable e p.2.arg ∧ g.isScalar p.2.arg = false ∧
      g.isScalar p.2.node = true ∧ castable (g.elemSize p.2.node)) →
    Emits g castable False known lo (bindSymbols g entries) s fun _ _ => True := by
  induction entries with
  | nil => exact fun _ => emits_pure trivial
  | cons entry entries ih =>
    intro known lo s hentries
    obtain ⟨⟨harg, sarg, snode, hcast⟩, hentries⟩ := List.forall_mem_cons.mp hentries
    refine (emits_operand hneed harg).bind fun src s₁ known₁ _ ⟨hsrc, htype⟩ => ?_
    refine (emits_indexConstant _).bind fun axis s₂ known₂ h₂ haxis => ?_
    refine emits_define (fun _ => ⟨rfl, rfl, rfl, rfl⟩) (fun _ => ⟨⟨h₂ hsrc, ?_⟩, haxis⟩)
      fun size s₃ known₃ _ hsize => ?_
    · rw [htype, isBuffer_valueType sarg]
    refine (emits_bindSymbol _ hsize).bind fun _ s₄ known₄ h₄ _ => ?_
    refine emits_define (fun _ => ⟨rfl, rfl, rfl, rfl⟩) (fun _ => ⟨h₄ hsize, hcast⟩)
      fun v s₅ known₅ _ hv => ?_
    rw [← g.valueType_scalar snode] at hv
    exact (emits_name hv).bind fun _ _ _ _ _ => ih hentries

/-! ## Functions -/

/-- What an emitted function is like: its statements are typed and define new names only. -/
structure Emitted (castable : ElemSize → Prop) (f : FunctionGraph) (fn : Buffer.Function) :
    Prop where
  params : fn.params = f.inputs.map (paramOperand f.graph)
  typed : Holds (TypedIn castable) fn.params fn.body
  numbered : ∃ hi, Numbered 0 hi (definitions fn.body)
  returns : ∃ front values, fn.body = front ++ [.returns values] ∧
    (∀ s ∈ front, s.isTerminator = false) ∧ values.map Operand.type = fn.results

/-- Lowering starts without names. -/
theorem knows_start (g : Graph) (known : List Operand) : LowerState.start.Knows g known where
  scopes := by simp [LowerState.start]
  blocks := by simp [LowerState.start]
  node h := by simp [LowerState.lookup, LowerState.start, LowerScope.empty] at h
  index h := by simp [LowerState.indexConstant?, LowerState.start, LowerScope.empty] at h
  symbol h := by simp [LowerState.start] at h

/-- The statements up to the return of the values. -/
theorem emits_values {sz : ElemSize} {f : FunctionGraph} (hf : f.WellFormed sz)
    (hcast : ∀ sz : ElemSize, sz.isSignedInteger = true → castable sz) (hsz : castable sz) :
    Emits f.graph castable False (f.inputs.map (paramOperand f.graph)) 0 (do
      let params ← bindParams f.graph f.inputs
      bindSymbols f.graph f.symbols.entries
      let values ← operands f.graph (node f.graph (depth f.graph)) f.outputs
      pure (params, values)) .start fun known' result =>
        result.1 = f.inputs.map (paramOperand f.graph) ∧ result.2 ⊆ known' := by
  have hneed : Gives f.graph castable (node f.graph (depth f.graph))
      (f.graph.Lowerable f.entry) := by
    exact gives_node hf.valid.coherent hf.valid.entry hcast (depth f.graph)
  refine (emits_bindParams (List.Subset.refl _)).bind fun params s₁ known₁ _ hparams => ?_
  have hsymbols : ∀ p ∈ f.symbols.entries, f.graph.Lowerable f.entry p.2.arg ∧
      f.graph.isScalar p.2.arg = false ∧ f.graph.isScalar p.2.node = true ∧
      castable (f.graph.elemSize p.2.node) := by
    intro p hp
    obtain ⟨harg, haxis⟩ := hf.interface.symbolArg p hp
    have htype := hf.interface.symbolType p hp
    refine ⟨Or.inl (Graph.Source.available (Or.inl (Or.inl harg))), ?_,
      congrArg KernelType.isScalar htype, ?_⟩
    · refine Bool.eq_false_of_not_eq_true fun hscalar => ?_
      rw [Graph.shape_of_isScalar hscalar] at haxis
      cases haxis
    · have hsize : f.graph.elemSize p.2.node = sz := congrArg KernelType.elemSize htype
      rwa [hsize]
  refine (emits_bindSymbols hneed hsymbols).bind fun _ s₂ known₂ _ _ => ?_
  exact (emits_operands hneed fun id hid => Or.inl (hf.outputs id hid)).bind
    fun values _ _ _ ⟨hvalues, _⟩ => emits_pure ⟨hparams, hvalues⟩

theorem emitted_function {sz : ElemSize} {f : FunctionGraph} (hf : f.WellFormed sz)
    (hcast : ∀ sz : ElemSize, sz.isSignedInteger = true → castable sz) (hsz : castable sz)
    {options : Options} {fn : Buffer.Function} {s' : LowerState}
    (hrun : function f options .start = .ok (fn, s')) : Emitted castable f fn := by
  obtain ⟨params, s₁, hparams, hrun⟩ := exists_of_bind hrun
  obtain ⟨⟨⟩, s₂, hsymbols, hrun⟩ := exists_of_bind hrun
  obtain ⟨values, s₃, hvalues, hrun⟩ := exists_of_bind hrun
  cases hrun
  have hsteps : (do
      let params ← bindParams f.graph f.inputs
      bindSymbols f.graph f.symbols.entries
      let values ← operands f.graph (node f.graph (depth f.graph)) f.outputs
      pure (params, values)) LowerState.start = .ok ((params, values), s₃) := by
    rw [run_bind hparams, run_bind hsymbols, run_bind hvalues]
    rfl
  obtain ⟨stmts, hstmts, rfl, hknown⟩ := emits_values hf hcast hsz (knows_start _ _)
    (Nat.zero_le _) _ _ hsteps
  have hbody : (s₃.push (.returns values)).block = stmts ++ [.returns values] := by
    rw [LowerState.block_push hstmts.knows.blocks, hstmts.block]
    rfl
  refine ⟨rfl, ?_, ⟨s₃.counter, ?_⟩, stmts, values, hbody, hstmts.plain, rfl⟩
  · rw [hbody]
    exact hstmts.typed.append (.cons hknown .nil .nil)
  · rw [hbody]
    simpa [Buffer.definitions_append, Buffer.definitions_cons, Buffer.Stmt.results,
      Buffer.Stmt.args, Buffer.Stmt.body] using hstmts.numbered

end LowerM

end TensorKernel
