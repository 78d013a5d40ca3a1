import TensorKernel.Proofs.Build.WellFormed
import TensorKernel.Proofs.Lower.Operator

/-!
# Lowering functions succeeds

Every node of a well-formed function graph that has a value gets a name, so the graph lowers
completely.  The induction is on the number of operators in a row that a node needs; the body of an
operator takes one step more, because its operands have names before it is entered.
-/

namespace TensorKernel

namespace LowerM

open LowerState (Grows Ready)

variable {g : Graph} {e : Entry} {need : NodeId → LowerM Name} {s : LowerState} {id : NodeId}

/-! ## Nodes -/

theorem lowers_nodeRule_of_bound (h : s.Bound id) :
    Lowers g (nodeRule g need id) s fun _ s' => s'.Bound id := by
  obtain ⟨name, hname⟩ := Option.isSome_iff_exists.mp h
  refine lowers_get_bind ?_
  rw [hname]
  exact lowers_pure h

theorem lowers_nodeRule_of_constant (hs : s.scopes ≠ []) {v : Literal}
    (h : (g.node id).constant? = some v) :
    Lowers g (nodeRule g need id) s fun _ s' => s'.Bound id := by
  by_cases hbound : s.Bound id
  · exact lowers_nodeRule_of_bound hbound
  · refine lowers_get_bind ?_
    rw [Option.not_isSome_iff_eq_none.mp hbound]
    simp only [h]
    refine (lowers_constant v _).bind fun name s₁ h₁ _ => ?_
    exact (lowers_name (h₁.isOpen hs) id name).bind fun _ _ _ hid => lowers_pure hid

theorem lowers_nodeRule_of_producer (hs : s.scopes ≠ []) (hc : g.Coherent) {o : OpId}
    (hconstant : (g.node id).constant? = none) (hproducer : (g.node id).producer = some o)
    (hvisited : s.isVisited o = true → s.Bound id)
    (hop : Lowers g (operator g need (g.op o)) (s.visit o) fun _ s' => s'.Bound id) :
    Lowers g (nodeRule g need id) s fun _ s' => s'.Bound id := by
  by_cases hbound : s.Bound id
  · exact lowers_nodeRule_of_bound hbound
  · have hnew : s.isVisited o = false := by
      simpa using fun h => hbound (hvisited h)
    refine lowers_get_bind ?_
    rw [Option.not_isSome_iff_eq_none.mp hbound]
    simp only [hconstant, hproducer]
    refine lowers_get_bind ?_
    rw [hnew]
    refine lowers_visit hs (hop.bind fun _ s' _ hid => ?_) fun name s' hid id' hproducer' => ?_
    · obtain ⟨name, hname⟩ := Option.isSome_iff_exists.mp hid
      refine lowers_get_bind ?_
      rw [hname]
      exact lowers_pure hid
    · have houtputs := (hc id o hproducer).2.symm.trans (hc id' o hproducer').2
      rwa [← List.singleton_inj.mp houtputs]

/-- A node gets a name if there are enough steps for the operators in a row that it needs. -/
theorem serves_node (hc : g.Coherent) (he : g.EntryValid e) (n : Nat) :
    ∀ {k}, n + 2 ≤ k → Serves g e n (node g k) := by
  have hbody : ∀ {n k s id o}, 2 ≤ k → Ready g e n s → (g.node id).producer = some o →
      g.ScalarOp s.Bound (g.op o) id → (∃ arg ∈ (g.op o).inputs, g.Hole e arg) →
      Lowers g (node g k id) s fun _ _ => True := by
    intro n k s id o hk hs hproducer hop hread
    obtain ⟨k, rfl⟩ := Nat.exists_eq_add_of_le' hk
    suffices h : Lowers g (node g (k + 2) id) s fun _ s' => s'.Bound id from
      h.mono fun _ _ _ _ => trivial
    cases hconstant : (g.node id).constant? with
    | some v => exact lowers_nodeRule_of_constant hs.isOpen hconstant
    | none =>
      have hblocked := hop.not_available hc he hproducer hconstant hread
      refine lowers_nodeRule_of_producer hs.isOpen hc hconstant hproducer (fun ho => ?_) ?_
      · exact (hs.visited ho hproducer).resolve_right fun h => hblocked h.1
      · refine lowers_scalarOp (LowerState.onScope_open hs.isOpen _) hop fun h hid => ?_
        exact (lowers_nodeRule_of_bound (h.bound (LowerState.bound_visit hid))).mono
          fun _ _ _ _ => trivial
  -- A node that fewer operators reach is served by induction, and so is everything it reads.
  induction n with
  | zero =>
    intro k hk
    refine ⟨fun {s id} hs hid => ?_, hbody hk⟩
    obtain ⟨k, rfl⟩ := Nat.exists_eq_add_of_le' hk
    rcases hid with hgiven | ⟨v, hconstant⟩
    · exact lowers_nodeRule_of_bound (hs.given hgiven)
    · exact lowers_nodeRule_of_constant hs.isOpen hconstant
  | succ n ih =>
    intro k hk
    refine ⟨fun {s id} hs hid => ?_, hbody (by omega)⟩
    obtain ⟨k, rfl⟩ := Nat.exists_eq_add_of_le' (show 1 ≤ k by omega)
    by_cases hsmaller : g.AvailableAt e n id
    · exact (ih (by omega)).available (hs.mono (Nat.le_succ n)) hsmaller
    · have hsource : ¬ g.Source e id := fun h =>
        hsmaller (Graph.AvailableAt.mono (Nat.zero_le n) (show g.AvailableAt e 0 id from h))
      obtain ⟨-, hconstant, o, hproducer, hop⟩ := hid.computed hsource
      refine lowers_nodeRule_of_producer hs.isOpen hc hconstant hproducer (fun ho => ?_) ?_
      · exact (hs.visited ho hproducer).resolve_right fun h => h.2 hid
      · exact lowers_operator (ih (by omega)) (hs.visit hc hproducer ⟨_, hid⟩ hsmaller) hop

/-! ## Functions -/

theorem lowers_bindParams {inputs : List (String × NodeId)} : ∀ {s : LowerState}, s.scopes ≠ [] →
    Lowers g (bindParams g inputs) s fun _ s' => ∀ id ∈ inputs.map Prod.snd, s'.Bound id := by
  induction inputs with
  | nil => exact fun _ => lowers_pure (by simp)
  | cons input inputs ih =>
    intro s hs
    refine (lowers_name hs input.2 _).bind fun _ s₁ h₁ hbound => ?_
    refine (ih (h₁.isOpen hs)).bind fun params s₂ h₂ hall => lowers_pure fun id hid => ?_
    rcases List.mem_cons.mp hid with rfl | hid
    · exact h₂.bound hbound
    · exact hall id hid

/-- Every shape symbol gets a name as an index and as a scalar. -/
theorem lowers_bindSymbols {entries : List (String × ShapeSymbol)} : ∀ {s : LowerState},
    s.scopes ≠ [] → (∀ p ∈ entries, s.Bound p.2.arg) →
    Lowers g (bindSymbols g entries) s fun _ s' =>
      ∀ p ∈ entries, s'.Known p.1 ∧ s'.Bound p.2.node := by
  induction entries with
  | nil => exact fun _ _ => lowers_pure (by simp)
  | cons entry entries ih =>
    intro s hs hargs
    obtain ⟨id, symbol⟩ := entry
    have harg : s.Bound symbol.arg := hargs _ (List.mem_cons_self ..)
    have hsrc : Lowers g (operand g (node g (depth g)) symbol.arg) s fun _ _ => True :=
      (lowers_nodeRule_of_bound harg).bind fun _ _ _ _ => lowers_pure trivial
    refine hsrc.bind fun src s₁ h₁ _ => (lowers_indexConstant _).bind fun axis s₂ h₂ _ => ?_
    refine (lowers_fresh _).bind fun size s₃ h₃ _ => (lowers_emit _).bind fun _ s₄ h₄ _ => ?_
    have hgrows : Grows g s₄ { s₄ with symbols := s₄.symbols.insert id size } :=
      .of_scopes_eq rfl fun {other} h => by
        simpa [LowerState.Known, Table.contains_insert] using Or.inr h
    have hknown : ({ s₄ with symbols := s₄.symbols.insert id size } : LowerState).Known id := by
      simp [LowerState.Known, Table.contains_insert]
    refine (lowers_modify (R := fun _ s' => s'.Known id) hgrows hknown).bind fun _ s₅ h₅ hid => ?_
    refine (lowers_fresh _).bind fun v s₆ h₆ _ => (lowers_emit _).bind fun _ s₇ h₇ _ => ?_
    have h₀₇ := (((((h₁.trans h₂).trans h₃).trans h₄).trans h₅).trans h₆).trans h₇
    refine (lowers_name (h₀₇.isOpen hs) symbol.node v).bind fun _ s₈ h₈ hnode => ?_
    refine (ih (h₈.isOpen (h₀₇.isOpen hs)) fun p hp =>
      h₈.bound (h₀₇.bound (hargs p (List.mem_cons_of_mem _ hp)))).mono fun _ s₉ h₉ hall p hp => ?_
    rcases List.mem_cons.mp hp with rfl | hp
    · exact ⟨h₉.known (h₈.known (h₇.known (h₆.known hid))), h₉.bound hnode⟩
    · exact hall p hp

/-- A well-formed function graph lowers completely. -/
theorem lowers_function {sz : ElemSize} {f : FunctionGraph} (hf : f.WellFormed sz)
    (options : Options) : Lowers f.graph (function f options) .start fun _ _ => True := by
  have hc := hf.valid.coherent
  have hopen : LowerState.start.scopes ≠ [] := by simp [LowerState.start]
  refine (lowers_bindParams hopen).bind fun params s₁ h₁ hparams => ?_
  refine (lowers_bindSymbols (h₁.isOpen hopen) fun p hp =>
    hparams _ (hf.interface.symbolArg p hp).1).bind fun _ s₂ h₂ hsymbols => ?_
  have h₀₂ := h₁.trans h₂
  have hready : Ready f.graph f.entry f.graph.ops.size s₂ := by
    refine ⟨h₀₂.isOpen hopen, ?_, fun {name} hname => ?_, fun {o id} ho hproducer => Or.inl ?_⟩
    · rintro id (hid | ⟨p, hp, rfl⟩)
      · exact h₂.bound (hparams id hid)
      · exact (hsymbols p hp).2
    · obtain ⟨symbol, hsymbol⟩ := Table.get?_eq_some_of_contains hname
      exact (hsymbols _ (Table.mem_of_get? hsymbol)).1
    · exact (h₀₂.visited ho).resolve_left (by simp [LowerState.isVisited, LowerState.start,
        LowerScope.empty]) id hproducer
  have hserves := serves_node hc hf.valid.entry f.graph.ops.size (Nat.le_refl (depth f.graph))
  refine (lowers_operands hserves hready fun id hid => (hf.outputs id hid).at_ops_size hc).bind
    fun values s₃ _ _ => ?_
  exact (lowers_emit _).bind fun _ s₄ _ _ => lowers_get_bind (lowers_pure trivial)

end LowerM

/-- Lowering a well-formed function graph gives a function of a buffer program. -/
theorem FunctionGraph.WellFormed.exists_lower {sz : ElemSize} {f : FunctionGraph}
    (hf : f.WellFormed sz) (options : Options) : ∃ fn, f.lower options = .ok fn := by
  obtain ⟨fn, s, hrun, -, -⟩ := LowerM.lowers_function hf options
  refine ⟨fn, ?_⟩
  calc f.lower options = ((LowerM.function f options .start).map Prod.fst) := rfl
    _ = .ok fn := by rw [hrun]; rfl

end TensorKernel
