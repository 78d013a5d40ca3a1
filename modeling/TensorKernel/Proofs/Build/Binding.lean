import TensorKernel.Build.Inline
import TensorKernel.Proofs.Table

/-!
# Bound shape symbols

What a successful binding of a callee's shape symbols guarantees: each parameter agrees with its
argument once its symbols are replaced, and every symbol stands for a dimension of some argument.
-/

namespace TensorKernel

namespace SymbolBinding

instance : LE SymbolBinding :=
  ⟨fun bound bound' => ∀ name d, bound.get? name = some d → bound'.get? name = some d⟩

theorem le_refl (bound : SymbolBinding) : bound ≤ bound := fun _ _ h => h

theorem le_trans {a b c : SymbolBinding} (h : a ≤ b) (h' : b ≤ c) : a ≤ c :=
  fun name d hd => h' name d (h name d hd)

theorem le_insert {bound : SymbolBinding} {name : String} (h : bound.get? name = none) (d : Dim) :
    bound ≤ bound.insert name d := by
  intro other d' hd'
  rw [Table.get?_insert, if_neg]
  · exact hd'
  · rintro rfl
    rw [h] at hd'
    cases hd'

/-- A symbol stands for the dimension of the argument, and other dimensions are equal. -/
def Pairs (bound : SymbolBinding) : Dim × Dim → Prop
  | (.sym name, d) => bound.get? name = some d
  | (paramDim, d) => paramDim = d

theorem Pairs.mono {bound bound' : SymbolBinding} (h : bound ≤ bound') {p : Dim × Dim}
    (hp : Pairs bound p) : Pairs bound' p := by
  obtain ⟨paramDim, d⟩ := p
  cases paramDim with
  | sym name => exact h name d hp
  | const n => exact hp
  | node id => exact hp

/-- What a successful extension by a list of pairs of dimensions guarantees. -/
theorem extend_ok {function param : String} {expected given : KernelType} {pairs : List (Dim × Dim)} :
    ∀ {bound bound' : SymbolBinding},
      extend function param expected given bound pairs = .ok bound' →
      bound ≤ bound' ∧ (∀ p ∈ pairs, Pairs bound' p) ∧
        ∀ name d, bound'.get? name = some d →
          bound.get? name = some d ∨ d ∈ pairs.map Prod.snd := by
  induction pairs with
  | nil =>
    intro bound bound' h
    obtain rfl := Except.ok.inj h
    exact ⟨le_refl _, by simp, fun _ _ h => Or.inl h⟩
  | cons pair rest ih =>
    intro bound bound' h
    obtain ⟨paramDim, dim⟩ := pair
    -- A pair that is met already only leaves the rest to be bound.
    have keep : Pairs bound (paramDim, dim) →
        extend function param expected given bound rest = .ok bound' →
        bound ≤ bound' ∧ (∀ p ∈ (paramDim, dim) :: rest, Pairs bound' p) ∧
          ∀ name d, bound'.get? name = some d →
            bound.get? name = some d ∨ d ∈ ((paramDim, dim) :: rest).map Prod.snd := by
      intro hpair hrest
      obtain ⟨hle, hpairs, hnew⟩ := ih hrest
      refine ⟨hle, fun p hp => ?_, fun name d hd => (hnew name d hd).imp_right fun h => ?_⟩
      · rcases List.mem_cons.mp hp with rfl | hp
        · exact hpair.mono hle
        · exact hpairs p hp
      · exact List.mem_cons_of_mem _ h
    cases paramDim with
    | sym name =>
      simp only [extend] at h
      split at h
      · next previous hprevious =>
        split at h
        · next hsame =>
          subst hsame
          exact keep hprevious h
        · cases h
      · next hnone =>
        obtain ⟨hle, hpairs, hnew⟩ := ih h
        refine ⟨le_trans (le_insert hnone dim) hle, fun p hp => ?_, fun other d hd => ?_⟩
        · rcases List.mem_cons.mp hp with rfl | hp
          · exact hle name dim (Table.get?_insert_self ..)
          · exact hpairs p hp
        · rcases hnew other d hd with hd | hd
          · rw [Table.get?_insert] at hd
            split at hd
            · obtain rfl := Option.some.inj hd
              exact Or.inr (List.mem_cons_self ..)
            · exact Or.inl hd
          · exact Or.inr (List.mem_cons_of_mem _ hd)
    | const n =>
      simp only [extend] at h
      split at h
      · next hsame => exact keep hsame h
      · cases h
    | node id =>
      simp only [extend] at h
      split at h
      · next hsame => exact keep hsame h
      · cases h

/-- A parameter agrees with its argument up to the replacement of symbols. -/
structure Agrees (bound : SymbolBinding) (expected given : KernelType) : Prop where
  scalar : expected.isScalar = given.isScalar
  rank : expected.shape.length = given.shape.length
  pairs : ∀ p ∈ expected.shape.zip given.shape, Pairs bound p

theorem Agrees.mono {bound bound' : SymbolBinding} (h : bound ≤ bound') {expected given : KernelType}
    (ha : Agrees bound expected given) : Agrees bound' expected given :=
  ⟨ha.scalar, ha.rank, fun p hp => (ha.pairs p hp).mono h⟩

theorem bindParam_ok {function param : String} {expected given : KernelType}
    {bound bound' : SymbolBinding}
    (h : bindParam function param expected given bound = .ok bound') :
    bound ≤ bound' ∧ Agrees bound' expected given ∧
      ∀ name d, bound'.get? name = some d → bound.get? name = some d ∨ d ∈ given.shape := by
  unfold bindParam at h
  split at h
  · next hsame =>
    obtain ⟨hle, hpairs, hnew⟩ := extend_ok h
    refine ⟨hle, ⟨hsame.1, hsame.2, hpairs⟩, fun name d hd => (hnew name d hd).imp_right ?_⟩
    intro hmem
    obtain ⟨p, hp, rfl⟩ := List.mem_map.mp hmem
    exact (List.of_mem_zip hp).2
  · cases h

theorem bindParams_ok {function : String} {params : List ((String × KernelType) × KernelType)} :
    ∀ {bound bound' : SymbolBinding}, bindParams function bound params = .ok bound' →
      bound ≤ bound' ∧ (∀ p ∈ params, Agrees bound' p.1.2 p.2) ∧
        ∀ name d, bound'.get? name = some d →
          bound.get? name = some d ∨ ∃ p ∈ params, d ∈ p.2.shape := by
  induction params with
  | nil =>
    intro bound bound' h
    obtain rfl := Except.ok.inj h
    exact ⟨le_refl _, by simp, fun _ _ h => Or.inl h⟩
  | cons entry rest ih =>
    intro bound bound' h
    obtain ⟨⟨param, expected⟩, given⟩ := entry
    simp only [bindParams] at h
    cases hparam : bindParam function param expected given bound with
    | error fault => rw [hparam] at h; cases h
    | ok middle =>
      rw [hparam] at h
      obtain ⟨hle, hagrees, hnew⟩ := bindParam_ok hparam
      obtain ⟨hle', hagrees', hnew'⟩ := ih h
      refine ⟨le_trans hle hle', fun p hp => ?_, fun name d hd => ?_⟩
      · rcases List.mem_cons.mp hp with rfl | hp
        · exact hagrees.mono hle'
        · exact hagrees' p hp
      · rcases hnew' name d hd with hd | ⟨p, hp, hd⟩
        · rcases hnew name d hd with hd | hd
          · exact Or.inl hd
          · exact Or.inr ⟨_, List.mem_cons_self .., hd⟩
        · exact Or.inr ⟨p, List.mem_cons_of_mem _ hp, hd⟩

/-- The failures of binding are errors of the program. -/
theorem extend_error {function param : String} {expected given : KernelType}
    {pairs : List (Dim × Dim)} : ∀ {bound : SymbolBinding} {fault : BuildFault},
      extend function param expected given bound pairs = .error fault →
      fault.kind = .syntaxError := by
  induction pairs with
  | nil =>
    intro bound fault h
    cases h
  | cons pair rest ih =>
    intro bound fault h
    obtain ⟨paramDim, dim⟩ := pair
    cases paramDim <;> simp only [extend] at h <;> split at h <;>
      first
        | exact ih h
        | (split at h
           · exact ih h
           · obtain rfl := Except.error.inj h
             rfl)
        | (obtain rfl := Except.error.inj h
           rfl)

theorem bindParams_error {function : String} {params : List ((String × KernelType) × KernelType)} :
    ∀ {bound : SymbolBinding} {fault : BuildFault},
      bindParams function bound params = .error fault → fault.kind = .syntaxError := by
  induction params with
  | nil =>
    intro bound fault h
    cases h
  | cons entry rest ih =>
    intro bound fault h
    obtain ⟨⟨param, expected⟩, given⟩ := entry
    simp only [bindParams] at h
    cases hparam : bindParam function param expected given bound with
    | error fault' =>
      rw [hparam] at h
      obtain rfl := Except.error.inj h
      unfold bindParam at hparam
      split at hparam
      · exact extend_error hparam
      · obtain rfl := Except.error.inj hparam
        rfl
    | ok middle =>
      rw [hparam] at h
      exact ih h

/-- Replacing the symbols of a parameter's dimensions gives those of its argument. -/
theorem Agrees.map_dim {bound : SymbolBinding} {expected given : KernelType}
    (h : Agrees bound expected given) {r : Relocation} (hr : r.symbol = bound.substitute)
    (hclosed : ∀ d ∈ expected.shape, ∀ id, d ≠ .node id) :
    expected.shape.map r.dim = given.shape := by
  obtain ⟨-, hrank, hpairs⟩ := h
  generalize expected.shape = ds at *
  generalize given.shape = es at *
  induction ds generalizing es with
  | nil => simpa using hrank.symm
  | cons d ds ih =>
    cases es with
    | nil => cases hrank
    | cons e es =>
      have hhead : r.dim d = e := by
        have hpair := hpairs (d, e) (by simp)
        cases d with
        | const n => exact hpair
        | sym name =>
          rw [Relocation.dim, hr, substitute, show bound.get? name = some e from hpair]
          rfl
        | node id => exact absurd rfl (hclosed _ (List.mem_cons_self ..) id)
      rw [List.map_cons, hhead, ih (fun d hd => hclosed d (List.mem_cons_of_mem _ hd)) es
        (Nat.succ.inj hrank) fun p hp => hpairs p (by simp [hp])]

end SymbolBinding

end TensorKernel
