import TensorKernel.Proofs.Buffer.Access
import TensorKernel.Proofs.Emission.Logic

/-!
# Histories of lowering

`Careful` is the discipline of a history of lowering: a statement writes only to buffers that were
created before, and that no node was bound to and nothing was read from so far.

`LowerM.Follows` says of a lowering step that it keeps this discipline.  What a step relies on and
leaves behind is a `Pending` state: the buffers that are still being written, and the region that
was closed and is not yet part of a statement.  A name is `Settled` if it was taken before and is
none of these buffers; nodes are bound to settled names only, and only settled names are read.
-/

namespace TensorKernel

open Buffer (Operand statements)

/-! ## Numbers of names -/

namespace Name

variable {n m : Name} {c c' : Nat}

theorem number_eq_of_key_eq (h : n.key = m.key) : n.number = m.number := by
  unfold key at h
  cases hn : n.number <;> cases hm : m.number <;> simp [hn, hm] at h ⊢
  exact h

/-- The number of a name, if it has one, is below the given one. -/
def Below (n : Name) (c : Nat) : Prop :=
  ∀ k : Int, n.number = some k → k < c

theorem Below.mono (hc : c ≤ c') (h : n.Below c) : n.Below c' := by
  intro k hk
  have := h k hk
  omega

theorem below_plain (text : String) : (plain text).Below c := by
  intro k hk
  cases hk

theorem below_numbered (base : String) : (numbered base c).Below (c + 1) := by
  intro k hk
  cases hk
  omega

/-- A name with the next number is none of those with lower numbers. -/
theorem Below.key_ne (h : n.Below c) (base : String) : n.key ≠ (numbered base c).key := by
  intro hkey
  have := h c (number_eq_of_key_eq hkey)
  omega

end Name

/-! ## The discipline of writes -/

section Discipline

variable {past : List LowerAction} {n : Name}

/-- A name stands for a value: a node was bound to it, or a statement read it. -/
def Used (past : List LowerAction) (n : Name) : Prop :=
  (∃ id, .bind id n ∈ past) ∨ ∃ t, .emit t ∈ past ∧ n ∈ t.reads

/-- A buffer that was created and does not stand for a value yet. -/
structure Blank (past : List LowerAction) (n : Name) : Prop where
  created : ∃ t, .emit t ∈ past ∧ t.created? = some n
  unbound : ∀ id m, .bind id m ∈ past → m.key ≠ n.key
  unread : ∀ t, .emit t ∈ past → ∀ m ∈ t.reads, m.key ≠ n.key

/-- Every buffer that a statement writes is blank up to this statement, which does not read it. -/
def Careful (past : List LowerAction) : Prop :=
  ∀ before t after, past = before ++ .emit t :: after → ∀ n ∈ t.writes,
    Blank before n ∧ ∀ m ∈ t.reads, m.key ≠ n.key

theorem Blank.of_unused (hcreated : ∃ t, .emit t ∈ past ∧ t.created? = some n)
    (h : ∀ m, Used past m → m.key ≠ n.key) : Blank past n :=
  ⟨hcreated, fun id m hm => h m (.inl ⟨id, hm⟩), fun t ht m hm => h m (.inr ⟨t, ht, hm⟩)⟩

theorem Blank.key_ne (h : Blank past n) {m : Name} (hm : Used past m) : m.key ≠ n.key := by
  rcases hm with ⟨id, hm⟩ | ⟨t, ht, hm⟩
  · exact h.unbound id m hm
  · exact h.unread t ht m hm

/-- No node is bound to a name for the memory of a blank buffer. -/
theorem Blank.not_shares (h : Blank past n) {id : NodeId} {m : Name} (hm : .bind id m ∈ past) :
    ¬ Buffer.Shares (fun t => .emit t ∈ past) n m :=
  fun hshares => h.unbound id m hm (hshares.key_eq h.unread)

theorem used_append {acts : List LowerAction} :
    Used (past ++ acts) n ↔ Used past n ∨ Used acts n := by
  simp only [Used, List.mem_append, or_and_right, exists_or]
  exact or_or_or_comm

theorem used_emit {t : Buffer.Stmt} : Used [.emit t] n ↔ n ∈ t.reads := by
  simp [Used]

theorem used_bind {id : NodeId} {m : Name} : Used [.bind id m] n ↔ n = m := by
  simp [Used]

/-- A buffer stays blank if what is done does not use it. -/
theorem Blank.append {acts : List LowerAction} (h : Blank past n)
    (hacts : ∀ m, Used acts m → m.key ≠ n.key) : Blank (past ++ acts) n := by
  apply Blank.of_unused
  · obtain ⟨t, ht, hcreated⟩ := h.created
    exact ⟨t, List.mem_append_left _ ht, hcreated⟩
  · intro m hm
    rcases used_append.mp hm with hm | hm
    · exact h.key_ne hm
    · exact hacts m hm

theorem Careful.nil : Careful [] := by
  intro before t after h
  simp at h

/-- A history stays careful if the next action is. -/
theorem Careful.concat {a : LowerAction} (h : Careful past)
    (ha : ∀ t, a = .emit t → ∀ n ∈ t.writes, Blank past n ∧ ∀ m ∈ t.reads, m.key ≠ n.key) :
    Careful (past ++ [a]) := by
  intro before t after hsplit
  rcases List.eq_nil_or_concat after with rfl | ⟨after, last, rfl⟩
  · obtain ⟨rfl, hlast⟩ := List.append_inj' hsplit rfl
    exact ha t (List.singleton_inj.mp hlast)
  · rw [List.concat_eq_append, ← List.cons_append, ← List.append_assoc] at hsplit
    exact h before t after (List.append_inj_left' hsplit rfl)

theorem Careful.bind (h : Careful past) (id : NodeId) (n : Name) :
    Careful (past ++ [.bind id n]) := by
  apply h.concat
  intro t ht
  cases ht

end Discipline

/-! ## Settled names -/

/-- A name that is no buffer that is still written, and whose number was taken before. -/
structure Settled (opens : List Name) (c : Nat) (n : Name) : Prop where
  taken : n.Below c
  closed : ∀ b ∈ opens, n.key ≠ b.key

/-- The buffers that were opened since a number was the next one. -/
structure Opened (opens : List Name) (c c' : Nat) (buffers : List Name) : Prop where
  settled : ∀ b ∈ buffers, Settled opens c' b
  keeps : ∀ {n}, Settled opens c n → Settled (buffers ++ opens) c' n

section Settling

variable {opens opens' : List Name} {c c' : Nat} {n : Name}

theorem Settled.mono (hc : c ≤ c') (hopens : opens' ⊆ opens) (h : Settled opens c n) :
    Settled opens' c' n where
  taken := h.taken.mono hc
  closed b hb := h.closed b (hopens hb)

/-- Settled names stay settled. -/
theorem Settled.later (hc : c ≤ c') (h : Settled opens c n) : Settled opens c' n :=
  h.mono hc (List.Subset.refl _)

theorem settled_plain (text : String) : Settled [] c (.plain text) where
  taken := Name.below_plain text
  closed := by simp

theorem settled_numbered (hopens : ∀ b ∈ opens, b.Below c)
    (base : String) : Settled opens (c + 1) (.numbered base c) where
  taken := Name.below_numbered base
  closed b hb := ((hopens b hb).key_ne base).symm

/-- A new buffer is opened. -/
theorem opened_numbered (hopens : ∀ b ∈ opens, b.Below c)
    (base : String) : Opened opens c (c + 1) [.numbered base c] where
  settled := by
    rw [List.forall_mem_singleton]
    exact settled_numbered hopens base
  keeps hn := by
    refine ⟨(hn.later (Nat.le_succ c)).taken, ?_⟩
    rw [List.singleton_append, List.forall_mem_cons]
    exact ⟨hn.taken.key_ne base, hn.closed⟩

theorem Opened.head {b : Name} {bs : List Name} (h : Opened opens c c' (b :: bs)) :
    Settled opens c' b :=
  h.settled b (List.mem_cons_self ..)

theorem Opened.nil (hc : c ≤ c') : Opened opens c c' [] :=
  ⟨by simp, fun h => h.later hc⟩

theorem Opened.since {c₁ : Nat} {bs : List Name} (hc : c ≤ c₁) (h : Opened opens c₁ c' bs) :
    Opened opens c c' bs :=
  ⟨h.settled, fun hn => h.keeps (hn.later hc)⟩

theorem Opened.later {c₁ : Nat} {bs : List Name} (h : Opened opens c c₁ bs) (hc : c₁ ≤ c') :
    Opened opens c c' bs :=
  ⟨fun b hb => (h.settled b hb).later hc, fun hn => (h.keeps hn).later hc⟩

/-- Buffers may be opened one after another. -/
theorem Opened.cons {c₁ : Nat} {b : Name} {bs : List Name} (h : Opened opens c c₁ [b])
    (h' : Opened (b :: opens) c₁ c' bs) (hc : c₁ ≤ c') : Opened opens c c' (b :: bs) where
  settled := by
    rw [List.forall_mem_cons]
    constructor
    · exact h.head.later hc
    · exact fun b' hb' => (h'.settled b' hb').mono (Nat.le_refl _) (List.subset_cons_self b opens)
  keeps hn := by
    refine (h'.keeps (h.keeps hn)).mono (Nat.le_refl _) ?_
    exact List.Perm.subset (List.perm_middle.symm)

end Settling

/-! ## Pending states -/

/-- What is left to do: the buffers to write, and the statements of a region that was closed. -/
structure Pending where
  opens : List Name
  region : List Buffer.Stmt

/-- The state in which no region waits for its statement. -/
def Pending.writing (opens : List Name) : Pending := ⟨opens, []⟩

namespace LowerState

variable {s : LowerState}

/-- What was done so far, in order. -/
def actions (s : LowerState) : List LowerAction :=
  s.history.toList

/-- A statement stands in an open block, at any depth. -/
def Contains (s : LowerState) (t : Buffer.Stmt) : Prop :=
  ∃ block ∈ s.blocks, t ∈ statements block.toList

theorem actions_name (s : LowerState) (id : NodeId) (n : Name) :
    (s.name id n).actions = s.actions ++ [.bind id n] :=
  Array.toList_push

theorem actions_push (h : s.blocks ≠ []) (t : Buffer.Stmt) :
    (s.push t).actions = s.actions ++ [.emit t] := by
  unfold push
  split
  · next hnil => exact absurd hnil h
  · exact Array.toList_push

@[simp]
theorem onScope_actions (s : LowerState) (f : LowerScope → LowerScope) :
    (s.onScope f).actions = s.actions := by
  unfold onScope
  split <;> rfl

theorem length_push (s : LowerState) (t : Buffer.Stmt) :
    (s.push t).blocks.length = s.blocks.length := by
  unfold push
  split
  · rfl
  · next h => rw [h]; rfl

theorem contains_push (h : s.blocks ≠ []) {t u : Buffer.Stmt} :
    (s.push t).Contains u ↔ s.Contains u ∨ u = t ∨ u ∈ statements t.body := by
  obtain ⟨block, outer, hs⟩ := List.exists_cons_of_ne_nil h
  have hpush : (s.push t).blocks = block.push t :: outer := by
    unfold LowerState.push
    rw [hs]
  rw [Contains, Contains, hs, hpush, List.exists_mem_cons_iff, List.exists_mem_cons_iff,
    Array.toList_push, Buffer.statements_append, Buffer.statements_cons, List.mem_append]
  simp only [Buffer.statements_nil, List.append_nil, List.mem_cons]
  exact or_right_comm

theorem contains_enter {t : Buffer.Stmt} : s.enter.Contains t ↔ s.Contains t := by
  simp [Contains, enter]

/-- What stands in the open blocks stands in the innermost one or in those that stay open. -/
theorem contains_leave (h : s.blocks ≠ []) {t : Buffer.Stmt} :
    s.Contains t ↔ s.leave.Contains t ∨ t ∈ statements s.block := by
  obtain ⟨inner, outer, hs⟩ := List.exists_cons_of_ne_nil h
  simp only [Contains, leave, block, hs, List.exists_mem_cons_iff, List.tail_cons, List.headD_cons]
  exact or_comm

/--
A state in which the discipline was kept: names that are kept are settled, open buffers are blank,
and what was emitted stands in the open blocks or in the region that waits for its statement.
-/
structure Traced (p : Pending) (s : LowerState) : Prop where
  blocks : s.blocks ≠ []
  nodes : ∀ scope ∈ s.scopes, ∀ id n, scope.names.get? id = some n → Settled p.opens s.counter n
  constants : ∀ scope ∈ s.scopes, ∀ k n, scope.indexConstants.get? k = some n →
    Settled p.opens s.counter n
  symbols : ∀ symbol n, s.symbols.get? symbol = some n → Settled p.opens s.counter n
  used : ∀ n, Used s.actions n → n.Below s.counter
  opens : ∀ b ∈ p.opens, Blank s.actions b ∧ b.Below s.counter
  emitted : ∀ t, .emit t ∈ s.actions ↔ s.Contains t ∨ t ∈ statements p.region
  careful : Careful s.actions

end LowerState

namespace LowerState.Traced

variable {p : Pending} {opens opens' : List Name} {s : LowerState}

theorem lookup (h : s.Traced p) {id : NodeId} {n : Name} (hn : s.lookup id = some n) :
    Settled p.opens s.counter n := by
  obtain ⟨scope, hscope, hn⟩ := List.exists_of_findSome?_eq_some hn
  exact h.nodes scope hscope id n hn

theorem constant (h : s.Traced p) {k : Int} {n : Name} (hn : s.indexConstant? k = some n) :
    Settled p.opens s.counter n := by
  obtain ⟨scope, hscope, hn⟩ := List.exists_of_findSome?_eq_some hn
  exact h.constants scope hscope k n hn

/-- Fewer buffers may be left open. -/
theorem close (hsub : opens' ⊆ opens) (h : s.Traced (.writing opens)) :
    s.Traced (.writing opens') where
  blocks := h.blocks
  nodes scope hscope id n hn := (h.nodes scope hscope id n hn).mono (Nat.le_refl _) hsub
  constants scope hscope k n hn := (h.constants scope hscope k n hn).mono (Nat.le_refl _) hsub
  symbols symbol n hn := (h.symbols symbol n hn).mono (Nat.le_refl _) hsub
  used := h.used
  opens b hb := h.opens b (hsub hb)
  emitted := h.emitted
  careful := h.careful

/-- Taking a number changes nothing else. -/
theorem take (h : s.Traced p) :
    ({ s with counter := s.counter + 1 } : LowerState).Traced p where
  blocks := h.blocks
  nodes scope hscope id n hn := (h.nodes scope hscope id n hn).later (Nat.le_succ _)
  constants scope hscope k n hn := (h.constants scope hscope k n hn).later (Nat.le_succ _)
  symbols symbol n hn := (h.symbols symbol n hn).later (Nat.le_succ _)
  used n hn := (h.used n hn).mono (Nat.le_succ _)
  opens b hb := ⟨(h.opens b hb).1, (h.opens b hb).2.mono (Nat.le_succ _)⟩
  emitted := h.emitted
  careful := h.careful

/-- The innermost scope may change as long as its names are settled. -/
theorem onScope {f : LowerScope → LowerScope} (h : s.Traced p)
    (hnodes : ∀ scope ∈ s.scopes, ∀ id n, (f scope).names.get? id = some n →
      Settled p.opens s.counter n)
    (hconstants : ∀ scope ∈ s.scopes, ∀ k n, (f scope).indexConstants.get? k = some n →
      Settled p.opens s.counter n) : (s.onScope f).Traced p := by
  -- Only the innermost scope differs, and all the others are as they were.
  have hscopes : ∀ scope ∈ (s.onScope f).scopes,
      scope ∈ s.scopes ∨ ∃ old ∈ s.scopes, scope = f old := by
    intro scope hscope
    unfold LowerState.onScope at hscope
    split at hscope
    · exact .inl hscope
    · next old outer hs =>
      rw [hs]
      rcases List.mem_cons.mp hscope with rfl | hscope
      · exact .inr ⟨old, List.mem_cons_self .., rfl⟩
      · exact .inl (List.mem_cons_of_mem _ hscope)
  constructor
  · rw [onScope_blocks]
    exact h.blocks
  · intro scope hscope id n hn
    rw [onScope_counter]
    rcases hscopes scope hscope with hscope | ⟨old, hold, rfl⟩
    · exact h.nodes scope hscope id n hn
    · exact hnodes old hold id n hn
  · intro scope hscope k n hn
    rw [onScope_counter]
    rcases hscopes scope hscope with hscope | ⟨old, hold, rfl⟩
    · exact h.constants scope hscope k n hn
    · exact hconstants old hold k n hn
  · rw [onScope_symbols, onScope_counter]
    exact h.symbols
  · rw [onScope_actions, onScope_counter]
    exact h.used
  · rw [onScope_actions, onScope_counter]
    exact h.opens
  · simp only [onScope_actions, Contains, onScope_blocks]
    exact h.emitted
  · rw [onScope_actions]
    exact h.careful

theorem visit (h : s.Traced p) (o : OpId) : (s.visit o).Traced p :=
  h.onScope h.nodes h.constants

theorem bindConstant (h : s.Traced p) (k : Int) {n : Name}
    (hn : Settled p.opens s.counter n) : (s.onScope fun scope =>
      { scope with indexConstants := scope.indexConstants.bind k n }).Traced p := by
  refine h.onScope (fun scope hscope => h.nodes scope hscope) fun scope hscope j m hm => ?_
  rw [Scope.get?_bind] at hm
  split at hm
  · cases hm
    exact hn
  · exact h.constants scope hscope j m hm

theorem bindSymbol (h : s.Traced p) (symbol : String) {n : Name}
    (hn : Settled p.opens s.counter n) :
    ({ s with symbols := s.symbols.insert symbol n } : LowerState).Traced p where
  blocks := h.blocks
  nodes := h.nodes
  constants := h.constants
  symbols other m hm := by
    rw [Table.get?_insert] at hm
    split at hm
    · cases hm
      exact hn
    · exact h.symbols other m hm
  used := h.used
  opens := h.opens
  emitted := h.emitted
  careful := h.careful

/-- A node may be bound to a settled name. -/
theorem name (h : s.Traced p) (id : NodeId) {n : Name} (hn : Settled p.opens s.counter n) :
    (s.name id n).Traced p := by
  have hscope : (s.onScope fun scope =>
      { scope with names := scope.names.bind id n }).Traced p := by
    refine h.onScope (fun scope hscope other m hm => ?_) h.constants
    rw [Scope.get?_bind] at hm
    split at hm
    · cases hm
      exact hn
    · exact h.nodes scope hscope other m hm
  have hcounter : (s.name id n).counter = s.counter := onScope_counter s _
  refine ⟨hscope.blocks, hscope.nodes, hscope.constants, hscope.symbols, ?_, ?_, ?_, ?_⟩
  -- Binding a node is an action that uses the name; nothing else is added to the history.
  · intro m hm
    rw [hcounter]
    rw [actions_name] at hm
    rcases used_append.mp hm with hm | hm
    · exact h.used m hm
    · rw [used_bind.mp hm]
      exact hn.taken
  · intro b hb
    rw [hcounter, actions_name]
    refine ⟨(h.opens b hb).1.append fun m hm => ?_, (h.opens b hb).2⟩
    rw [used_bind.mp hm]
    exact hn.closed b hb
  · intro t
    have hcontains : (s.name id n).Contains t ↔ s.Contains t := by
      rw [Contains, Contains, LowerState.name, onScope_blocks]
    rw [actions_name, hcontains, ← h.emitted t]
    simp
  · rw [actions_name]
    exact h.careful.bind id n

/-- A statement may read settled names, write open buffers and take the region that waits. -/
theorem push {t : Buffer.Stmt} (h : s.Traced ⟨opens, t.body⟩)
    (hreads : ∀ n ∈ t.reads, Settled opens s.counter n) (hwrites : ∀ n ∈ t.writes, n ∈ opens) :
    (s.push t).Traced (.writing opens) := by
  refine ⟨push_open h.blocks t, ?_, ?_, ?_, ?_, ?_, ?_, ?_⟩
  · rw [push_scopes, push_counter]
    exact h.nodes
  · rw [push_scopes, push_counter]
    exact h.constants
  · rw [push_symbols, push_counter]
    exact h.symbols
  · intro n hn
    rw [push_counter]
    rw [actions_push h.blocks] at hn
    rcases used_append.mp hn with hn | hn
    · exact h.used n hn
    · exact (hreads n (used_emit.mp hn)).taken
  -- An open buffer stays blank, since the statement reads settled names only.
  · intro b hb
    rw [push_counter, actions_push h.blocks]
    obtain ⟨hblank, hold⟩ := h.opens b hb
    exact ⟨hblank.append fun n hn => (hreads n (used_emit.mp hn)).closed b hb, hold⟩
  · intro u
    rw [contains_push h.blocks, actions_push h.blocks, List.mem_append, h.emitted u,
      List.mem_singleton, LowerAction.emit.injEq]
    simp only [Pending.writing, Buffer.statements_nil, List.not_mem_nil]
    tauto
  · rw [actions_push h.blocks]
    apply h.careful.concat
    intro u hu n hn
    cases hu
    exact ⟨(h.opens n (hwrites n hn)).1, fun m hm => (hreads m hm).closed n (hwrites n hn)⟩

/-- A buffer with a new name is created, and may be written from then on. -/
theorem create {t : Buffer.Stmt} {base : String} (h : s.Traced (.writing opens))
    (hcreated : t.created? = some (.numbered base s.counter))
    (hreads : ∀ n ∈ t.reads, Settled opens s.counter n) :
    (({ s with counter := s.counter + 1 } : LowerState).push t).Traced
      (.writing (.numbered base s.counter :: opens)) := by
  obtain ⟨hwrites, hbody⟩ := Buffer.Stmt.plain_of_created hcreated
  have hkeeps : ∀ {n}, Settled opens s.counter n →
      Settled (.numbered base s.counter :: opens) (s.counter + 1) n :=
    (opened_numbered (fun b hb => (h.opens b hb).2) base).keeps
  have hpushed : (({ s with counter := s.counter + 1 } : LowerState).push t).Traced
      (.writing opens) := by
    apply push
    · rw [hbody]
      exact h.take
    · exact fun n hn => (hreads n hn).later (Nat.le_succ _)
    · simp [hwrites]
  refine { hpushed with nodes := ?_, constants := ?_, symbols := ?_, opens := ?_ }
  · rw [push_scopes, push_counter]
    exact fun scope hscope id n hn => hkeeps (h.nodes scope hscope id n hn)
  · rw [push_scopes, push_counter]
    exact fun scope hscope k n hn => hkeeps (h.constants scope hscope k n hn)
  · rw [push_symbols, push_counter]
    exact fun symbol n hn => hkeeps (h.symbols symbol n hn)
  · intro b hb
    rcases List.mem_cons.mp hb with rfl | hb
    · -- What was used before has lower numbers, and so has what the statement itself reads.
      rw [push_counter, actions_push h.take.blocks]
      refine ⟨.of_unused ⟨t, by simp, hcreated⟩ fun m hm => ?_, Name.below_numbered base⟩
      have hm : m.Below s.counter := by
        rcases used_append.mp hm with hm | hm
        · exact h.used m hm
        · exact (hreads m (used_emit.mp hm)).taken
      exact hm.key_ne base
    · exact hpushed.opens b hb

/-- A new block is empty. -/
theorem enter (h : s.Traced (.writing opens)) : s.enter.Traced (.writing opens) where
  blocks := by simp [LowerState.enter]
  nodes scope hscope id n hn := by
    rcases List.mem_cons.mp hscope with rfl | hscope
    · cases hn
    · exact h.nodes scope hscope id n hn
  constants scope hscope k n hn := by
    rcases List.mem_cons.mp hscope with rfl | hscope
    · cases hn
    · exact h.constants scope hscope k n hn
  symbols := h.symbols
  used := h.used
  opens := h.opens
  emitted t := by
    rw [contains_enter]
    exact h.emitted t
  careful := h.careful

/-- A block that is closed is the region that waits for its statement. -/
theorem leave (h : s.Traced (.writing opens)) (hblocks : s.blocks.tail ≠ []) :
    s.leave.Traced ⟨opens, s.block⟩ where
  blocks := hblocks
  nodes scope hscope := h.nodes scope (List.mem_of_mem_tail hscope)
  constants scope hscope := h.constants scope (List.mem_of_mem_tail hscope)
  symbols := h.symbols
  used := h.used
  opens := h.opens
  emitted t := by
    refine (h.emitted t).trans ?_
    rw [contains_leave h.blocks]
    simp [Pending.writing]
  careful := h.careful

end LowerState.Traced

/-! ## Steps that keep the discipline -/

namespace LowerM

variable {α β : Type} {p : Pending} {opens opens' : List Name} {c : Nat} {m : LowerM α}
  {q : α → Pending} {q' : β → Pending} {R : Nat → α → Prop} {T : Nat → β → Prop}

/-- What a step leaves of a state besides what is pending: its blocks and its history have grown. -/
structure Grown (s s' : LowerState) : Prop where
  blocks : s'.blocks.length = s.blocks.length
  counter : s.counter ≤ s'.counter
  actions : s.actions <+: s'.actions

theorem Grown.refl (s : LowerState) : Grown s s :=
  ⟨rfl, Nat.le_refl _, List.prefix_refl _⟩

theorem Grown.trans {s s₁ s' : LowerState} (h : Grown s s₁) (h' : Grown s₁ s') : Grown s s' :=
  ⟨h'.blocks.trans h.blocks, Nat.le_trans h.counter h'.counter, h.actions.trans h'.actions⟩

/-- Steps that neither emit nor bind. -/
theorem Grown.of_eq {s s' : LowerState} (hblocks : s'.blocks = s.blocks)
    (hcounter : s'.counter = s.counter) (hactions : s'.actions = s.actions) : Grown s s' :=
  ⟨congrArg List.length hblocks, Nat.le_of_eq hcounter.symm, by rw [hactions]⟩

theorem Grown.push {s : LowerState} (h : s.blocks ≠ []) (t : Buffer.Stmt) :
    Grown s (s.push t) where
  blocks := LowerState.length_push s t
  counter := by rw [LowerState.push_counter]
  actions := by
    rw [LowerState.actions_push h]
    exact List.prefix_append _ _

/--
If the step succeeds in a state in which the discipline was kept, it was kept in the state after it,
and the result has a property with regard to the next number.
-/
def Follows (p : Pending) (c : Nat) (m : LowerM α) (q : α → Pending) (R : Nat → α → Prop) : Prop :=
  ∀ s, s.counter = c → s.Traced p → ∀ a s', m s = .ok (a, s') →
    s'.Traced (q a) ∧ Grown s s' ∧ R s'.counter a

/-- The step leaves the same buffers open. -/
abbrev Keeps (opens : List Name) (c : Nat) (m : LowerM α) (R : Nat → α → Prop) : Prop :=
  Follows (.writing opens) c m (fun _ => .writing opens) R

section Rules

theorem Follows.bind {f : α → LowerM β} (hm : Follows p c m q R)
    (hf : ∀ a c₁, c ≤ c₁ → R c₁ a → Follows (q a) c₁ (f a) q' T) :
    Follows p c (m >>= f) q' T := by
  intro s hc hs b s' hrun
  obtain ⟨a, s₁, hm', hf'⟩ := exists_of_bind hrun
  obtain ⟨hs₁, hgrown, hR⟩ := hm s hc hs a s₁ hm'
  obtain ⟨hs', hgrown', hT⟩ := hf a s₁.counter (hc ▸ hgrown.counter) hR s₁ rfl hs₁ b s' hf'
  exact ⟨hs', hgrown.trans hgrown', hT⟩

/-- Buffers may be closed before a step. -/
theorem Follows.close (hsub : opens' ⊆ opens) (hm : Follows (.writing opens') c m q R) :
    Follows (.writing opens) c m q R :=
  fun s hc hs => hm s hc (hs.close hsub)

theorem follows_pure {a : α} (h : R c a) : Follows p c (pure a) (fun _ => p) R := by
  intro s hc hs b s' hrun
  cases hrun
  subst hc
  exact ⟨hs, .refl s, h⟩

/-- A result with which some of the open buffers are left. -/
theorem follows_leaving {a : α} {left : α → List Name} (hsub : left a ⊆ opens) (h : R c a) :
    Follows (.writing opens) c (pure a) (fun a => .writing (left a)) R := by
  intro s hc hs b s' hrun
  cases hrun
  subst hc
  exact ⟨hs.close hsub, .refl s, h⟩

theorem follows_throw {fault : LoweringFault} : Follows p c (throw fault : LowerM α) q R := by
  intro _ _ _ a s' hrun
  cases hrun

/-- A step that reads the state goes on from what it read. -/
theorem follows_get_bind {f : LowerState → LowerM β}
    (h : ∀ s, s.counter = c → s.Traced p → Follows p c (f s) q' T) :
    Follows p c (get >>= f) q' T :=
  fun s hc hs => h s hc hs s hc hs

theorem follows_ite {b : Prop} [Decidable b] {m' : LowerM α} (ht : b → Follows p c m q R)
    (hf : ¬ b → Follows p c m' q R) : Follows p c (if b then m else m') q R := by
  split
  · exact ht ‹_›
  · exact hf ‹_›

/-- Two ways to a result that is used in the same way. -/
theorem follows_ite_bind {b : Prop} [Decidable b] {m' : LowerM α} {f : α → LowerM β}
    (ht : b → Follows p c m q R) (hf : ¬ b → Follows p c m' q R)
    (hrest : ∀ a c₁, c ≤ c₁ → R c₁ a → Follows (q a) c₁ (f a) q' T) :
    Follows p c (if b then m >>= f else m' >>= f) q' T :=
  follows_ite (fun h => (ht h).bind hrest) fun h => (hf h).bind hrest

end Rules

/-! ## Primitive steps -/

section Steps

theorem follows_fresh (base : String) :
    Follows p c (fresh base) (fun _ => p) (Settled p.opens) := by
  intro s hc hs n s' hrun
  cases hrun
  subst hc
  refine ⟨hs.take, ⟨rfl, Nat.le_succ _, List.prefix_refl _⟩, ?_⟩
  exact settled_numbered (fun b hb => (hs.opens b hb).2) base

/-- A statement may read settled names, write open buffers and take the region that waits. -/
theorem follows_emit {t : Buffer.Stmt} {region : List Buffer.Stmt} (hbody : t.body = region)
    (hreads : ∀ n ∈ t.reads, Settled opens c n) (hwrites : ∀ n ∈ t.writes, n ∈ opens) :
    Follows ⟨opens, region⟩ c (emit t) (fun _ => .writing opens) fun _ _ => True := by
  subst hbody
  intro s hc hs a s' hrun
  cases hrun
  subst hc
  exact ⟨hs.push hreads hwrites, .push hs.blocks t, trivial⟩

/-- A statement without a region. -/
theorem keeps_emit {t : Buffer.Stmt} (hbody : t.body = [])
    (hreads : ∀ n ∈ t.reads, Settled opens c n) (hwrites : ∀ n ∈ t.writes, n ∈ opens) :
    Keeps opens c (emit t) fun _ _ => True :=
  follows_emit hbody hreads hwrites

theorem keeps_bind (id : NodeId) {n : Name} (hn : Settled opens c n) :
    Keeps opens c (LowerM.bind id n) fun _ _ => True := by
  intro s hc hs a s' hrun
  cases hrun
  subst hc
  refine ⟨hs.name id hn, ⟨?_, ?_, ?_⟩, trivial⟩
  · exact congrArg List.length (LowerState.onScope_blocks s _)
  · exact Nat.le_of_eq (LowerState.onScope_counter s _).symm
  · rw [LowerState.actions_name]
    exact List.prefix_append _ _

/-- A block that is closed waits for its statement. -/
theorem follows_region {steps : LowerM Unit} (h : Keeps opens c steps fun _ _ => True) :
    Follows (.writing opens) c (region steps) (fun block => ⟨opens, block⟩) fun _ _ => True := by
  intro s hc hs block s' hrun
  have hsteps : (steps s.enter >>= fun r => Except.ok (r.2.block, r.2.leave)) = .ok (block, s') :=
    hrun
  cases hinner : steps s.enter with
  | error fault =>
    rw [hinner] at hsteps
    cases hsteps
  | ok r =>
    rw [hinner] at hsteps
    cases hsteps
    obtain ⟨hs₁, hgrown, -⟩ := h s.enter hc hs.enter r.1 r.2 hinner
    have hlength : r.2.leave.blocks.length = s.blocks.length := by
      rw [LowerState.leave, List.length_tail, hgrown.blocks]
      simp [LowerState.enter]
    refine ⟨hs₁.leave ?_, ⟨hlength, hgrown.counter, hgrown.actions⟩, trivial⟩
    rw [← List.length_pos_iff]
    exact hlength ▸ List.length_pos_iff.mpr hs.blocks

theorem keeps_visit (o : OpId) : Keeps opens c (visit o) fun _ _ => True := by
  intro s hc hs a s' hrun
  cases hrun
  refine ⟨hs.visit o, .of_eq ?_ ?_ ?_, trivial⟩
  · exact LowerState.onScope_blocks s _
  · exact LowerState.onScope_counter s _
  · exact LowerState.onScope_actions s _

theorem keeps_bindConstant (k : Int) {n : Name} (hn : Settled opens c n) :
    Keeps opens c (modify fun s => s.onScope fun scope =>
      { scope with indexConstants := scope.indexConstants.bind k n }) fun _ _ => True := by
  intro s hc hs a s' hrun
  cases hrun
  subst hc
  refine ⟨hs.bindConstant k hn, .of_eq ?_ ?_ ?_, trivial⟩
  · exact LowerState.onScope_blocks s _
  · exact LowerState.onScope_counter s _
  · exact LowerState.onScope_actions s _

theorem keeps_bindSymbol (symbol : String) {n : Name} (hn : Settled opens c n) :
    Keeps opens c (modify fun s => { s with symbols := s.symbols.insert symbol n })
      fun _ _ => True := by
  intro s hc hs a s' hrun
  cases hrun
  subst hc
  exact ⟨hs.bindSymbol symbol hn, .of_eq rfl rfl rfl, trivial⟩

/-- A new name is defined by a statement that only reads, and used further on. -/
theorem follows_define {base : String} {stmt : Name → Buffer.Stmt} {f : Name → LowerM β}
    (hplain : ∀ n, (stmt n).writes = [] ∧ (stmt n).body = [])
    (hreads : ∀ n, ∀ r ∈ (stmt n).reads, Settled opens c r)
    (hf : ∀ n c₁, c ≤ c₁ → Settled opens c₁ n → Follows (.writing opens) c₁ (f n) q' T) :
    Follows (.writing opens) c (do
      let n ← fresh base
      emit (stmt n)
      f n) q' T := by
  refine (follows_fresh base).bind fun n c₁ h₁ hn => ?_
  refine (keeps_emit (hplain n).2 (fun r hr => (hreads n r hr).later h₁) ?_).bind
    fun _ c₂ h₂ _ => hf n c₂ (Nat.le_trans h₁ h₂) (hn.later h₂)
  simp [(hplain n).1]

/-- A new name is defined by a statement that only reads, and given back. -/
theorem keeps_definition {base : String} {stmt : Name → Buffer.Stmt}
    (hplain : ∀ n, (stmt n).writes = [] ∧ (stmt n).body = [])
    (hreads : ∀ n, ∀ r ∈ (stmt n).reads, Settled opens c r) :
    Keeps opens c (do
      let n ← fresh base
      emit (stmt n)
      pure n) (Settled opens) :=
  follows_define hplain hreads fun _ _ _ hn => follows_pure hn

/-- A buffer with a new name is created, and written further on. -/
theorem follows_create {base : String} {stmt : Name → Buffer.Stmt} {f : Name → LowerM β}
    (hcreated : ∀ n, (stmt n).created? = some n)
    (hreads : ∀ n, ∀ r ∈ (stmt n).reads, Settled opens c r)
    (hf : ∀ b c₁, c ≤ c₁ → Opened opens c c₁ [b] →
      Follows (.writing (b :: opens)) c₁ (f b) q' T) :
    Follows (.writing opens) c (do
      let b ← fresh base
      emit (stmt b)
      f b) q' T := by
  intro s hc hs a s' hrun
  obtain ⟨b, s₁, hfresh, hrun⟩ := exists_of_bind hrun
  obtain ⟨⟨⟩, s₂, hemit, hrun⟩ := exists_of_bind hrun
  cases hfresh
  cases hemit
  subst hc
  have hcreate := hs.create (hcreated _) (hreads (.numbered base s.counter))
  have hopened := opened_numbered (fun b hb => (hs.opens b hb).2) base
  obtain ⟨hs', hgrown, hT⟩ :=
    hf _ (s.counter + 1) (Nat.le_succ _) hopened _ (LowerState.push_counter _ _) hcreate a s' hrun
  have htaken : Grown s { s with counter := s.counter + 1 } :=
    ⟨rfl, Nat.le_succ _, List.prefix_refl _⟩
  exact ⟨hs', (htaken.trans (.push hs.take.blocks _)).trans hgrown, hT⟩

end Steps

end LowerM

end TensorKernel
