import Mathlib.Data.Fintype.Card
import TensorKernel.Proofs.Graph.Available

/-!
# Depth of graphs

No node of a graph needs more operators in a row than the graph has.  The operators that compute
something within `n` steps grow with `n`; as soon as one step adds none, no later step does, so the
growth ends after at most as many steps as there are operators.
-/

namespace TensorKernel

namespace Graph

variable {g : Graph} {e : Entry}

/-- The operators whose results need at most the given number of operators in a row. -/
noncomputable def reached (g : Graph) (e : Entry) (n : Nat) : Finset (Fin g.ops.size) :=
  open Classical in
  Finset.univ.filter fun o =>
    ∃ id, ¬ g.Source e id ∧ (g.node id).producer = some ⟨o⟩ ∧ g.AvailableAt e n id

theorem mem_reached {n : Nat} {o : Fin g.ops.size} :
    o ∈ g.reached e n ↔
      ∃ id, ¬ g.Source e id ∧ (g.node id).producer = some ⟨o⟩ ∧ g.AvailableAt e n id := by
  simp [reached]

theorem reached_subset_succ (n : Nat) : g.reached e n ⊆ g.reached e (n + 1) := by
  intro o ho
  obtain ⟨id, hsource, hproducer, hid⟩ := mem_reached.mp ho
  exact mem_reached.mpr ⟨id, hsource, hproducer, hid.succ⟩

/-- If a step reaches no new operator then it makes no new node available. -/
theorem availableAt_of_reached_subset (hc : g.Coherent) {n : Nat}
    (h : g.reached e (n + 1) ⊆ g.reached e n) {id : NodeId} (hid : g.AvailableAt e (n + 1) id) :
    g.AvailableAt e n id := by
  by_cases hsource : g.Source e id
  · exact AvailableAt.mono (Nat.zero_le n) (show g.AvailableAt e 0 id from hsource)
  · obtain ⟨o, hproducer, hop⟩ := hid.resolve_left hsource
    obtain ⟨hlt, houtputs⟩ := hc id o hproducer
    have hmem : (⟨o.index, hlt⟩ : Fin g.ops.size) ∈ g.reached e (n + 1) :=
      mem_reached.mpr ⟨id, hsource, hproducer, Or.inr ⟨o, hproducer, hop⟩⟩
    obtain ⟨id', -, hproducer', hid'⟩ := mem_reached.mp (h hmem)
    have hsame : [id] = [id'] := houtputs.symm.trans (hc id' o hproducer').2
    rw [List.singleton_inj.mp hsame]
    exact hid'

/-- A step that makes nothing available is the last one that could. -/
theorem AvailableAt.of_stable {m : Nat}
    (h : ∀ id, g.AvailableAt e (m + 1) id → g.AvailableAt e m id) {n : Nat} {id : NodeId}
    (hid : g.AvailableAt e n id) : g.AvailableAt e m id := by
  induction n generalizing id with
  | zero => exact hid.mono (Nat.zero_le m)
  | succ n ih =>
    apply h
    rcases hid with hsource | ⟨o, hproducer, hop⟩
    · exact Or.inl hsource
    · exact Or.inr ⟨o, hproducer, hop.mono fun _ => ih⟩

/-- Either every step so far reached a new operator, or some step was stable. -/
theorem le_card_reached_or_stable (hc : g.Coherent) (n : Nat) :
    n ≤ (g.reached e n).card ∨
      ∃ m < n, ∀ id, g.AvailableAt e (m + 1) id → g.AvailableAt e m id := by
  induction n with
  | zero => exact Or.inl (Nat.zero_le _)
  | succ n ih =>
    rcases ih with hcard | ⟨m, hm, hstable⟩
    · by_cases hsub : g.reached e (n + 1) ⊆ g.reached e n
      · exact Or.inr ⟨n, Nat.lt_succ_self n, fun _ => availableAt_of_reached_subset hc hsub⟩
      · have hlt := Finset.card_lt_card (show g.reached e n ⊂ g.reached e (n + 1) from
          ⟨reached_subset_succ n, hsub⟩)
        exact Or.inl (by omega)
    · exact Or.inr ⟨m, Nat.lt_succ_of_lt hm, hstable⟩

/-- A node that is available at all needs at most as many operators in a row as there are. -/
theorem Available.at_ops_size (hc : g.Coherent) {id : NodeId} (h : g.Available e id) :
    g.AvailableAt e g.ops.size id := by
  obtain ⟨n, hid⟩ := h
  rcases le_card_reached_or_stable (e := e) hc (g.ops.size + 1) with hcard | ⟨m, hm, hstable⟩
  · have hle := Finset.card_le_univ (g.reached e (g.ops.size + 1))
    rw [Fintype.card_fin] at hle
    omega
  · exact (hid.of_stable hstable).mono (Nat.le_of_lt_succ hm)

/-- If some operator computes nothing available, one operator less is enough. -/
theorem Available.at_ops_size_sub_one (hc : g.Coherent) {id : NodeId} (h : g.Available e id)
    {o : OpId} (ho : o.index < g.ops.size)
    (hidle : ∀ id, (g.node id).producer = some o → ¬ g.Source e id → ¬ g.Available e id) :
    g.AvailableAt e (g.ops.size - 1) id := by
  obtain ⟨n, hid⟩ := h
  rcases le_card_reached_or_stable (e := e) hc g.ops.size with hcard | ⟨m, hm, hstable⟩
  · have hall : g.reached e g.ops.size = Finset.univ := by
      apply (Finset.card_eq_iff_eq_univ _).mp
      have hle := Finset.card_le_univ (g.reached e g.ops.size)
      rw [Fintype.card_fin] at hle ⊢
      omega
    have hmem : (⟨o.index, ho⟩ : Fin g.ops.size) ∈ g.reached e g.ops.size := by
      rw [hall]
      exact Finset.mem_univ _
    obtain ⟨other, hsource, hproducer, hother⟩ := mem_reached.mp hmem
    exact absurd ⟨_, hother⟩ (hidle other hproducer hsource)
  · exact (hid.of_stable hstable).mono (by omega)

/-- An available node is given, a constant, or computed from available nodes. -/
theorem Available.cases (hc : g.Coherent) {id : NodeId} (h : g.Available e id) :
    g.Source e id ∨
      ∃ o, (g.node id).producer = some o ∧ g.Computes e (g.Available e) (g.op o) id := by
  have hid : g.AvailableAt e (g.ops.size + 1) id := (h.at_ops_size hc).succ
  rcases hid with hsource | ⟨o, hproducer, hop⟩
  · exact Or.inl hsource
  · exact Or.inr ⟨o, hproducer, hop.mono fun _ hid => ⟨_, hid⟩⟩

/-- A node that is computed from available nodes is available. -/
theorem Computes.available (hc : g.Coherent) {id : NodeId} {o : OpId}
    (hproducer : (g.node id).producer = some o) (h : g.Computes e (g.Available e) (g.op o) id) :
    g.Available e id :=
  ⟨g.ops.size + 1, Or.inr ⟨o, hproducer, h.mono fun _ hid => hid.at_ops_size hc⟩⟩

/-! ## What is never available -/

/-- A placeholder has no value. -/
theorem Hole.not_available (hc : g.Coherent) {id : NodeId} (h : g.Hole e id) :
    ¬ g.Available e id := by
  intro hid
  rcases hid.cases hc with (hgiven | ⟨v, hconstant⟩) | ⟨o, hproducer, -⟩
  · exact h.notGiven hgiven
  · rw [h.constant] at hconstant
    cases hconstant
  · rw [h.producer] at hproducer
    cases hproducer

/-- The operands of an operator on scalars are those that its rule asks for. -/
theorem OpValid.reads_of_scalar {avail ok : NodeId → Prop} {op : Op} {dst : NodeId}
    (h : g.OpValid e avail op dst) (hop : g.ScalarOp ok op dst) {arg : NodeId}
    (harg : arg ∈ op.inputs) : avail arg := by
  cases hop with
  | unary _ _ _ _ =>
    cases h with
    | scalar h =>
      cases h with
      | unary hid _ _ _ => exact List.mem_singleton.mp harg ▸ hid
    | copy hkind _ _ => exact absurd hkind (by simp)
  | binary _ _ _ _ _ _ =>
    cases h with
    | scalar h =>
      cases h with
      | binary hlhs hrhs _ _ _ _ =>
        rcases List.mem_cons.mp harg with rfl | harg
        · exact hlhs
        · exact List.mem_singleton.mp harg ▸ hrhs

/-- An operator on scalars that reads a placeholder computes nothing outside of its body. -/
theorem ScalarOp.not_available (hc : g.Coherent) (he : g.EntryValid e) {ok : NodeId → Prop}
    {id : NodeId} {o : OpId} (hproducer : (g.node id).producer = some o)
    (hconstant : (g.node id).constant? = none) (hop : g.ScalarOp ok (g.op o) id)
    (hread : ∃ arg ∈ (g.op o).inputs, g.Hole e arg) : ¬ g.Available e id := by
  intro hid
  obtain ⟨arg, harg, hhole⟩ := hread
  refine hhole.not_available hc ?_
  rcases hid.cases hc with (hgiven | ⟨v, hv⟩) | ⟨o', hproducer', -, hvalid⟩
  · rw [he.producer hgiven] at hproducer
    cases hproducer
  · rw [hconstant] at hv
    cases hv
  · obtain rfl := Option.some.inj (hproducer.symm.trans hproducer')
    exact hvalid.reads_of_scalar hop harg

end Graph

end TensorKernel
