import TensorKernel.Proofs.Buffer.Machine
import TensorKernel.Proofs.Emission.Logic
import TensorKernel.Proofs.Eval.Meaning

/-!
# Reasoning about what emitted statements compute

`LowerM.Executes` says what the statements of a lowering step do if the step succeeds: they compute
numbers from numbers and can be executed, they write new names only, and what the state knows of nodes,
symbols and index constants agrees afterwards with what these mean.  There is one rule for each way of
combining steps.

`LowerState.Agrees` is the invariant.  It is stated for a valuation, which gives the values of the
nodes that are needed.
-/

namespace TensorKernel

open Buffer (Datum)

theorem NameKey.numbered_ne {k l : Nat} (h : k ≠ l) : numbered k ≠ numbered l := fun heq =>
  h (Int.ofNat.inj (numbered.inj heq))

/-! ## Stores -/

namespace Buffer

namespace Store

variable {M M' M'' : Store} {n : Name} {d : Datum} {k : Int}

/-- The second store has everything that the first one has. -/
def Extends (M M' : Store) : Prop :=
  ∀ ⦃key d⦄, M key = some d → M' key = some d

/-- The second store differs from the first one only at numbers that had not been taken. -/
def Keeps (lo : Nat) (M M' : Store) : Prop :=
  ∀ key, (∀ k : Nat, lo ≤ k → key ≠ .numbered k) → M' key = M key

theorem Keeps.refl (lo : Nat) (M : Store) : Keeps lo M M :=
  fun _ _ => rfl

theorem Keeps.trans {lo mid : Nat} (hle : lo ≤ mid) (h : Keeps lo M M') (h' : Keeps mid M' M'') :
    Keeps lo M M'' :=
  fun key hkey => (h' key fun k hk => hkey k (Nat.le_trans hle hk)).trans (h key hkey)

theorem Keeps.mono {lo mid : Nat} (hle : lo ≤ mid) (h : Keeps mid M M') : Keeps lo M M' :=
  (Keeps.refl lo M).trans hle h

theorem set_self (M : Store) (n : Name) (d : Datum) : M.set n d n.key = some d :=
  if_pos rfl

theorem set_of_ne {key : NameKey} (h : key ≠ n.key) : M.set n d key = M key :=
  if_neg h

theorem set_numbered_of_ne {j l : Nat} (hne : l ≠ j) (base : String) (d : Datum) :
    M.set (.numbered base j) d (.numbered l) = M (.numbered l) :=
  set_of_ne (NameKey.numbered_ne hne)

theorem keeps_set {lo k : Nat} (hle : lo ≤ k) (base : String) (d : Datum) :
    Keeps lo M (M.set (.numbered base k) d) := by
  intro key hkey
  exact set_of_ne (hkey k hle)

/-- A list gives data to its own names only. -/
theorem foldl_set_of_not_mem {entries : List (Name × Datum)} {key : NameKey} :
    ∀ {M : Store}, key ∉ entries.map (fun entry => entry.1.key) →
      entries.foldl (fun M entry => M.set entry.1 entry.2) M key = M key := by
  induction entries with
  | nil => exact fun _ => rfl
  | cons entry entries ih =>
    intro M hkey
    rw [List.map_cons, List.mem_cons, not_or] at hkey
    rw [List.foldl_cons, ih hkey.2, set_of_ne hkey.1]

theorem ofList_of_not_mem {entries : List (Name × Datum)} {key : NameKey}
    (h : key ∉ entries.map fun entry => entry.1.key) : ofList entries key = none :=
  foldl_set_of_not_mem h

/-- Different names hold the data that they are given. -/
theorem ofList_of_mem {entries : List (Name × Datum)}
    (hnodup : (entries.map fun entry => entry.1.key).Nodup) {entry : Name × Datum}
    (h : entry ∈ entries) : ofList entries entry.1.key = some entry.2 := by
  have hall : ∀ M : Store,
      entries.foldl (fun M entry => M.set entry.1 entry.2) M entry.1.key = some entry.2 := by
    induction entries with
    | nil => cases h
    | cons head entries ih =>
      intro M
      rw [List.map_cons, List.nodup_cons] at hnodup
      rcases List.mem_cons.mp h with rfl | h
      · rw [List.foldl_cons, foldl_set_of_not_mem hnodup.1, set_self]
      · exact ih hnodup.2 h _
  exact hall .empty

@[simp]
theorem number?_of_eq (h : M n.key = some (.number k)) : M.number? n = some k := by
  rw [number?, h]

end Store

/-- The store after some statements. -/
def execAll (stmts : List Stmt) (M : Store) : Option Store :=
  stmts.foldlM (fun M s => s.exec M) M

theorem execAll_append {stmts stmts' : List Stmt} {M M' : Store} (h : execAll stmts M = some M') :
    execAll (stmts ++ stmts') M = execAll stmts' M' := by
  unfold execAll at h ⊢
  rw [List.foldlM_append, h]
  rfl

/-- A statement that can be executed does not end its block. -/
theorem Stmt.values?_of_exec {s : Stmt} {M M' : Store} (h : s.exec M = some M') :
    s.values? = none := by
  cases s <;> first | rfl | cases h

/-- What a block ends with is found after the statements before it. -/
theorem run_append {stmts rest : List Stmt} : ∀ {M M' : Store}, execAll stmts M = some M' →
    run (stmts ++ rest) M = run rest M' := by
  induction stmts with
  | nil =>
    intro M M' h
    cases h
    rfl
  | cons s stmts ih =>
    intro M M' h
    obtain ⟨M₁, hexec, h⟩ := Option.bind_eq_some_iff.mp
      (show (s.exec M).bind (fun M => execAll stmts M) = some M' from h)
    rw [List.cons_append, run, Stmt.values?_of_exec hexec, hexec]
    exact ih h

end Buffer

open Buffer.Store (Extends Keeps)

/-! ## What a state knows -/

/-- What a state knows is in a store, and numbers that are not taken are free. -/
structure LowerState.Agrees (ctx : EvalContext) (val : Valuation) (s : LowerState) (M : Buffer.Store) :
    Prop where
  scopes : s.scopes ≠ []
  blocks : s.blocks ≠ []
  unset : ∀ k : Nat, s.counter ≤ k → M (.numbered k) = none
  node : ∀ {id n}, s.lookup id = some n → ∃ v, val id = .ok v ∧
    M n.key = some (.ofValue (ctx.graph.elemSize id) v)
  index : ∀ {k n}, s.indexConstant? k = some n →
    M n.key = some (.number (Int64.ofInt k).toInt)
  symbol : ∀ {symbol n}, s.symbols.get? symbol = some n → ∃ size : Nat,
    ctx.sizes.get? symbol = some size ∧ M n.key = some (.number size)

namespace LowerState.Agrees

variable {ctx : EvalContext} {val : Valuation} {s s' : LowerState} {M M' : Buffer.Store}

/-- Nothing that a store has is at a number that is not taken. -/
theorem extends_of_keeps (h : s.Agrees ctx val M) (hkeeps : Keeps s.counter M M') :
    M.Extends M' := by
  intro key d hkey
  rw [hkeeps key fun k hk heq => ?_, hkey]
  rw [heq, h.unset k hk] at hkey
  cases hkey

theorem congr (h : s.Agrees ctx val M) (hscopes : s'.scopes = s.scopes) (hblocks : s'.blocks ≠ [])
    (hsymbols : s'.symbols = s.symbols) (hunset : ∀ k : Nat, s'.counter ≤ k → M' (.numbered k) = none)
    (hext : M.Extends M') : s'.Agrees ctx val M' where
  scopes := by rw [hscopes]; exact h.scopes
  blocks := hblocks
  unset := hunset
  node hn := by
    obtain ⟨v, hv, hkey⟩ := h.node (by rwa [lookup, hscopes] at hn)
    exact ⟨v, hv, hext hkey⟩
  index hn := hext (h.index (by rwa [indexConstant?, hscopes] at hn))
  symbol hn := by
    obtain ⟨size, hsize, hkey⟩ := h.symbol (by rwa [hsymbols] at hn)
    exact ⟨size, hsize, hext hkey⟩

/-- Taking a number changes nothing that is known. -/
theorem fresh (h : s.Agrees ctx val M) :
    ({ s with counter := s.counter + 1 } : LowerState).Agrees ctx val M :=
  h.congr rfl h.blocks rfl (fun k hk => h.unset k (Nat.le_of_succ_le hk)) fun _ _ h => h

theorem name (h : s.Agrees ctx val M) {id : NodeId} {n : Name} {v : Value} (hv : val id = .ok v)
    (hn : M n.key = some (.ofValue (ctx.graph.elemSize id) v)) : (s.name id n).Agrees ctx val M where
  scopes := onScope_open h.scopes _
  blocks := by rw [LowerState.name, onScope_blocks]; exact h.blocks
  unset k hk := h.unset k (by rwa [LowerState.name, onScope_counter] at hk)
  node {other m} hm := by
    rw [lookup_name h.scopes] at hm
    split at hm
    · next same =>
      subst same
      cases hm
      exact ⟨v, hv, hn⟩
    · exact h.node hm
  index hm := h.index (by rwa [indexConstant?_name] at hm)
  symbol hm := h.symbol (by rwa [LowerState.name, onScope_symbols] at hm)

theorem visit (h : s.Agrees ctx val M) (o : OpId) : (s.visit o).Agrees ctx val M where
  scopes := onScope_open h.scopes _
  blocks := by rw [LowerState.visit, onScope_blocks]; exact h.blocks
  unset k hk := h.unset k (by rwa [LowerState.visit, onScope_counter] at hk)
  node hm := h.node (by rwa [lookup_visit] at hm)
  index hm := h.index (by rwa [indexConstant?_visit] at hm)
  symbol hm := h.symbol (by rwa [LowerState.visit, onScope_symbols] at hm)

end LowerState.Agrees

/-! ## Executing steps -/

/-- The second state and store are the first ones after statements were emitted and executed. -/
structure LowerState.Executed (ctx : EvalContext) (val : Valuation) (stmts : List Buffer.Stmt)
    (s s' : LowerState) (M M' : Buffer.Store) : Prop where
  block : s'.block = s.block ++ stmts
  exec : Buffer.execAll stmts M = some M'
  counter : s.counter ≤ s'.counter
  keeps : Keeps s.counter M M'
  agrees : s'.Agrees ctx val M'

namespace LowerState.Executed

variable {ctx : EvalContext} {val : Valuation} {stmts stmts' : List Buffer.Stmt}
  {s s' s'' : LowerState} {M M' M'' : Buffer.Store}

theorem trans (h : Executed ctx val stmts s s' M M') (h' : Executed ctx val stmts' s' s'' M' M'') :
    Executed ctx val (stmts ++ stmts') s s'' M M'' where
  block := by rw [h'.block, h.block, List.append_assoc]
  exec := by rw [Buffer.execAll_append h.exec, h'.exec]
  counter := Nat.le_trans h.counter h'.counter
  keeps := h.keeps.trans h.counter h'.keeps
  agrees := h'.agrees

/-- A state that is reached without emitting anything. -/
theorem silent (hblocks : s'.blocks = s.blocks) (hcounter : s.counter ≤ s'.counter)
    (hagrees : s'.Agrees ctx val M) : Executed ctx val [] s s' M M where
  block := by simp [LowerState.block, hblocks]
  exec := rfl
  counter := hcounter
  keeps := .refl _ _
  agrees := hagrees

/-- A statement that writes a name whose number was taken before. -/
theorem push (h : s.Agrees ctx val M) {base : String} {k : Nat} (hk : k < s.counter)
    (hfree : M (.numbered k) = none) {stmt : Buffer.Stmt} {d : Datum}
    (hexec : stmt.exec M = some (M.set (.numbered base k) d)) {lo : Nat} (hlo : lo ≤ k) :
    (s.push stmt).block = s.block ++ [stmt] ∧
      Buffer.execAll [stmt] M = some (M.set (.numbered base k) d) ∧
      Keeps lo M (M.set (.numbered base k) d) ∧
      (s.push stmt).Agrees ctx val (M.set (.numbered base k) d) := by
  refine ⟨block_push h.blocks stmt, ?_, Buffer.Store.keeps_set hlo base d, ?_⟩
  · show (stmt.exec M >>= fun M => some M) = _
    rw [hexec]
    rfl
  · refine h.congr (push_scopes s stmt) (push_open h.blocks stmt) (push_symbols s stmt)
      (fun other hother => ?_) fun key d hkey => ?_
    · rw [push_counter] at hother
      rw [Buffer.Store.set_numbered_of_ne (by omega), h.unset other hother]
    · rw [Buffer.Store.set_of_ne, hkey]
      rintro rfl
      rw [show (Name.numbered base k).key = .numbered k from rfl, hfree] at hkey
      cases hkey

/-- A statement that writes the next name. -/
theorem define (h : s.Agrees ctx val M) (base : String) {stmt : Buffer.Stmt} {d : Datum}
    (hexec : stmt.exec M = some (M.set (.numbered base s.counter) d)) :
    Executed ctx val [stmt] s (({ s with counter := s.counter + 1 } : LowerState).push stmt) M
      (M.set (.numbered base s.counter) d) := by
  obtain ⟨hblock, hexec, hkeeps, hagrees⟩ := push h.fresh (Nat.lt_succ_self _)
    (h.unset _ (Nat.le_refl _)) hexec (Nat.le_refl _)
  exact ⟨hblock, hexec, by rw [LowerState.push_counter]; exact Nat.le_succ _, hkeeps, hagrees⟩

end LowerState.Executed

namespace LowerM

open LowerState (Executed)

/--
If the step succeeds, its statements are on numbers and can be executed, and its result has a property.
-/
def Executes {α : Type} (ctx : EvalContext) (val : Valuation) (m : LowerM α) (s : LowerState)
    (M : Buffer.Store) (R : Buffer.Store → α → Prop) : Prop :=
  s.Agrees ctx val M → ∀ a s', m s = .ok (a, s') →
    ∃ stmts M', Executed ctx val stmts s s' M M' ∧ (∀ stmt ∈ stmts, stmt.isNumeric = true) ∧ R M' a

variable {ctx : EvalContext} {val : Valuation} {α β : Type} {m : LowerM α} {s : LowerState}
  {M : Buffer.Store} {R R' : Buffer.Store → α → Prop} {T : Buffer.Store → β → Prop}

section Rules

theorem Executes.mono (hm : Executes ctx val m s M R)
    (h : ∀ M' a, M.Extends M' → R M' a → R' M' a) : Executes ctx val m s M R' := by
  intro hs a s' hrun
  obtain ⟨stmts, M', hstmts, hnumeric, hR⟩ := hm hs a s' hrun
  exact ⟨stmts, M', hstmts, hnumeric, h M' a (hs.extends_of_keeps hstmts.keeps) hR⟩

theorem Executes.bind {f : α → LowerM β} (hm : Executes ctx val m s M R)
    (hf : ∀ a s₁ M₁, M.Extends M₁ → R M₁ a → Executes ctx val (f a) s₁ M₁ T) :
    Executes ctx val (m >>= f) s M T := by
  intro hs b s' hrun
  obtain ⟨a, s₁, hm', hf'⟩ := exists_of_bind hrun
  obtain ⟨stmts, M₁, hstmts, hnumeric, hR⟩ := hm hs a s₁ hm'
  obtain ⟨stmts', M₂, hstmts', hnumeric', hT⟩ := hf a s₁ M₁ (hs.extends_of_keeps hstmts.keeps) hR
    hstmts.agrees b s' hf'
  exact ⟨stmts ++ stmts', M₂, hstmts.trans hstmts', List.forall_mem_append.mpr ⟨hnumeric, hnumeric'⟩,
    hT⟩

theorem executes_pure {a : α} (h : R M a) : Executes ctx val (pure a) s M R := by
  intro hs b s' hrun
  cases hrun
  exact ⟨[], M, .silent rfl (Nat.le_refl _) hs, nofun, h⟩

theorem executes_throw {fault : LoweringFault} :
    Executes ctx val (throw fault : LowerM α) s M R := by
  intro _ a s' hrun
  cases hrun

/-- A step that reads the state goes on from what it read, which agrees with the store. -/
theorem executes_get_bind {f : LowerState → LowerM β}
    (h : s.Agrees ctx val M → Executes ctx val (f s) s M T) :
    Executes ctx val (get >>= f) s M T :=
  fun hs => h hs hs

theorem executes_ite {c : Prop} [Decidable c] {m' : LowerM α} (ht : c → Executes ctx val m s M R)
    (hf : ¬ c → Executes ctx val m' s M R) :
    Executes ctx val (if c then m else m') s M R := by
  split
  · exact ht ‹_›
  · exact hf ‹_›

end Rules

/-! ## Primitive steps -/

section Steps

/-- A new name is written and used further on. -/
theorem executes_define {base : String} {stmt : Name → Buffer.Stmt} {d : Datum}
    {f : Name → LowerM β} (hnumeric : ∀ n, (stmt n).isNumeric = true)
    (hexec : ∀ n, (stmt n).exec M = some (M.set n d))
    (hf : ∀ n s₁ M₁, M.Extends M₁ → M₁ n.key = some d → Executes ctx val (f n) s₁ M₁ T) :
    Executes ctx val (do
      let n ← fresh base
      emit (stmt n)
      f n) s M T := by
  intro hs b s' hrun
  obtain ⟨n, s₁, hfresh, hrun⟩ := exists_of_bind hrun
  obtain ⟨⟨⟩, s₂, hemit, hrun⟩ := exists_of_bind hrun
  cases hfresh
  cases hemit
  have hfirst := Executed.define hs base (hexec (.numbered base s.counter))
  obtain ⟨stmts, M', hstmts, hrest, hT⟩ := hf _ _ _ (hs.extends_of_keeps hfirst.keeps)
    (Buffer.Store.set_self M _ d) hfirst.agrees b s' hrun
  exact ⟨_, M', hfirst.trans hstmts, List.forall_mem_cons.mpr ⟨hnumeric _, hrest⟩, hT⟩

/-- A new name is written and given back. -/
theorem executes_definition {base : String} {stmt : Name → Buffer.Stmt} {d : Datum}
    (hnumeric : ∀ n, (stmt n).isNumeric = true) (hexec : ∀ n, (stmt n).exec M = some (M.set n d)) :
    Executes ctx val (do
      let n ← fresh base
      emit (stmt n)
      pure n) s M fun M' n => M' n.key = some d :=
  executes_define hnumeric hexec fun _ _ _ _ hn => executes_pure hn

/-- A new name is taken, and written after other steps. -/
theorem executes_late {base : String} {stmt : Name → α → Buffer.Stmt} {d : Datum}
    (hm : ∀ s₁, Executes ctx val m s₁ M R) (hnumeric : ∀ n a, (stmt n a).isNumeric = true)
    (hexec : ∀ n a M₁, M.Extends M₁ → R M₁ a → (stmt n a).exec M₁ = some (M₁.set n d)) :
    Executes ctx val (do
      let n ← fresh base
      let a ← m
      emit (stmt n a)
      pure n) s M fun M' n => M' n.key = some d := by
  intro hs n s' hrun
  obtain ⟨n, s₁, hfresh, hrun⟩ := exists_of_bind hrun
  obtain ⟨a, s₂, hm', hrun⟩ := exists_of_bind hrun
  obtain ⟨⟨⟩, s₃, hemit, hpure⟩ := exists_of_bind hrun
  cases hpure
  cases hemit
  cases hfresh
  obtain ⟨stmts, M₁, hstmts, hstmtsNumeric, hR⟩ := hm _ hs.fresh a s₂ hm'
  -- The steps in between take later numbers.
  have hfree : M₁ (.numbered s.counter) = none := by
    rw [hstmts.keeps _ fun k hk => NameKey.numbered_ne (Nat.ne_of_lt hk), hs.unset _ (Nat.le_refl _)]
  have hext := hs.fresh.extends_of_keeps hstmts.keeps
  obtain ⟨hblock, hexec', hkeeps, hagrees⟩ := Executed.push hstmts.agrees hstmts.counter hfree
    (hexec (.numbered base s.counter) a M₁ hext hR) (Nat.le_refl _)
  refine ⟨stmts ++ [stmt (.numbered base s.counter) a], _, ⟨?_, ?_, ?_, ?_, hagrees⟩,
    List.forall_mem_append.mpr ⟨hstmtsNumeric, List.forall_mem_singleton.mpr (hnumeric _ a)⟩,
    Buffer.Store.set_self M₁ _ d⟩
  · rw [hblock, hstmts.block, List.append_assoc]
    rfl
  · rw [Buffer.execAll_append hstmts.exec, hexec']
  · rw [LowerState.push_counter]
    exact Nat.le_of_succ_le hstmts.counter
  · exact (hstmts.keeps.mono (Nat.le_succ _)).trans (Nat.le_refl _) hkeeps

/-- A change of what is known of nodes and index constants. -/
theorem executes_modify {f : LowerState → LowerState} (hblocks : (f s).blocks = s.blocks)
    (hcounter : (f s).counter = s.counter)
    (hagrees : s.Agrees ctx val M → (f s).Agrees ctx val M) :
    Executes ctx val (modify f) s M fun _ _ => True := by
  intro hs _ s' hrun
  cases hrun
  exact ⟨[], M, .silent hblocks (Nat.le_of_eq hcounter.symm) (hagrees hs), nofun, trivial⟩

/-- A change of the innermost scope. -/
theorem executes_onScope {f : LowerScope → LowerScope}
    (hagrees : s.Agrees ctx val M → (s.onScope f).Agrees ctx val M) :
    Executes ctx val (modify fun s => s.onScope f) s M fun _ _ => True :=
  executes_modify (LowerState.onScope_blocks s f) (LowerState.onScope_counter s f) hagrees

theorem executes_name {id : NodeId} {n : Name} {v : Value} (hv : val id = .ok v)
    (hn : M n.key = some (.ofValue (ctx.graph.elemSize id) v)) :
    Executes ctx val (LowerM.bind id n) s M fun _ _ => True :=
  executes_modify (LowerState.onScope_blocks s _) (LowerState.onScope_counter s _)
    fun hs => hs.name hv hn

theorem executes_visit (o : OpId) : Executes ctx val (visit o) s M fun _ _ => True :=
  executes_onScope fun hs => hs.visit o

end Steps

end LowerM

end TensorKernel
