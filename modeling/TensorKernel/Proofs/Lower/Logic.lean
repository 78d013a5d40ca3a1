import TensorKernel.Lower.Function
import TensorKernel.Proofs.Graph.Depth

/-!
# Reasoning about lowering steps

`LowerM.Lowers` says of a lowering step that it succeeds, that the state has grown afterwards, and
what holds of its result.  There is one rule for each way of combining steps.

`LowerState.Grows` is what every step does to a state.  `LowerState.Ready` is what a step may rely
on: what the graph is given has a name, and an operator that was visited has either named its result
or is still at work on it.  In the second case the result needs more operators in a row than the
nodes that are asked for now, so the operator is not asked for again.
-/

namespace TensorKernel

namespace LowerState

variable {s : LowerState}

/-- A node has a name. -/
def Bound (s : LowerState) (id : NodeId) : Prop :=
  (s.lookup id).isSome = true

/-- A shape symbol has a name. -/
def Known (s : LowerState) (symbol : String) : Prop :=
  s.symbols.contains symbol = true

/-- The state with a new block. -/
def enter (s : LowerState) : LowerState :=
  { s with scopes := .empty :: s.scopes, blocks := #[] :: s.blocks }

/-- The state after the innermost block is closed. -/
def leave (s : LowerState) : LowerState :=
  { s with scopes := s.scopes.tail, blocks := s.blocks.tail }

/-- The state in which an operator was visited. -/
def visit (s : LowerState) (o : OpId) : LowerState :=
  s.onScope fun scope => { scope with visited := o :: scope.visited }

@[simp]
theorem push_scopes (s : LowerState) (stmt : Buffer.Stmt) : (s.push stmt).scopes = s.scopes := by
  unfold push
  split <;> rfl

@[simp]
theorem push_symbols (s : LowerState) (stmt : Buffer.Stmt) : (s.push stmt).symbols = s.symbols := by
  unfold push
  split <;> rfl

@[simp]
theorem onScope_symbols (s : LowerState) (f : LowerScope → LowerScope) :
    (s.onScope f).symbols = s.symbols := by
  unfold onScope
  split <;> rfl

@[simp]
theorem onScope_tail (s : LowerState) (f : LowerScope → LowerScope) :
    (s.onScope f).scopes.tail = s.scopes.tail := by
  unfold onScope
  split
  · rfl
  · next h => rw [h]; rfl

theorem onScope_open (h : s.scopes ≠ []) (f : LowerScope → LowerScope) :
    (s.onScope f).scopes ≠ [] := by
  unfold onScope
  split
  · exact h
  · simp

theorem name_open (h : s.scopes ≠ []) (id : NodeId) (n : Name) : (s.name id n).scopes ≠ [] :=
  onScope_open h _

/-- What does not change the names in a scope does not change what is looked up. -/
theorem lookup_onScope {f : LowerScope → LowerScope} (hf : ∀ scope, (f scope).names = scope.names)
    (id : NodeId) : (s.onScope f).lookup id = s.lookup id := by
  unfold onScope lookup
  split
  · rfl
  · next h => rw [h]; simp only [List.findSome?_cons, hf]

/-- What does not visit an operator in a scope does not change whether it was visited. -/
theorem isVisited_onScope {f : LowerScope → LowerScope}
    (hf : ∀ scope, (f scope).visited = scope.visited) (o : OpId) :
    (s.onScope f).isVisited o = s.isVisited o := by
  unfold onScope isVisited
  split
  · rfl
  · next h => rw [h]; simp only [List.any_cons, hf]

/-- Naming a node changes what is looked up for this node only. -/
theorem lookup_name (h : s.scopes ≠ []) (id other : NodeId) (n : Name) :
    (s.name id n).lookup other = if other = id then some n else s.lookup other := by
  unfold name onScope lookup
  split
  · next hnil => exact absurd hnil h
  · next hcons =>
    rw [hcons]
    by_cases same : other = id <;> simp [List.findSome?_cons, Scope.get?_bind, same]

theorem isVisited_visit (h : s.scopes ≠ []) (o other : OpId) :
    (s.visit o).isVisited other = (decide (other = o) || s.isVisited other) := by
  unfold visit onScope isVisited
  split
  · next hnil => exact absurd hnil h
  · next hcons => rw [hcons]; simp [Bool.or_assoc]

theorem isVisited_name (id : NodeId) (n : Name) (o : OpId) :
    (s.name id n).isVisited o = s.isVisited o := by
  apply isVisited_onScope
  exact fun _ => rfl

theorem lookup_visit (o : OpId) (id : NodeId) : (s.visit o).lookup id = s.lookup id := by
  apply lookup_onScope
  exact fun _ => rfl

theorem bound_visit {o : OpId} {id : NodeId} (h : s.Bound id) : (s.visit o).Bound id := by
  rwa [Bound, lookup_visit]

theorem bound_name (h : s.scopes ≠ []) (id : NodeId) (n : Name) : (s.name id n).Bound id := by
  simp [Bound, lookup_name h]

/-! ## Growing states -/

/--
The second state is the first one after some steps in the innermost block.  The operators visited in
these steps have named their results.
-/
structure Grows (g : Graph) (s s' : LowerState) : Prop where
  isOpen : s.scopes ≠ [] → s'.scopes ≠ []
  outer : s'.scopes.tail = s.scopes.tail
  known : ∀ {symbol}, s.Known symbol → s'.Known symbol
  bound : ∀ {id}, s.Bound id → s'.Bound id
  visited : ∀ {o}, s'.isVisited o = true →
    s.isVisited o = true ∨ ∀ id, (g.node id).producer = some o → s'.Bound id

namespace Grows

variable {g : Graph} {s' s'' : LowerState}

theorem refl (s : LowerState) : Grows g s s :=
  ⟨id, rfl, id, id, Or.inl⟩

theorem trans (h : Grows g s s') (h' : Grows g s' s'') : Grows g s s'' where
  isOpen hopen := h'.isOpen (h.isOpen hopen)
  outer := h'.outer.trans h.outer
  known hsymbol := h'.known (h.known hsymbol)
  bound hid := h'.bound (h.bound hid)
  visited ho := by
    rcases h'.visited ho with ho | hbound
    · exact (h.visited ho).imp id fun hbound id hid => h'.bound (hbound id hid)
    · exact Or.inr hbound

/-- Steps that touch neither names nor operators. -/
theorem of_scopes_eq (hscopes : s'.scopes = s.scopes)
    (hsymbols : ∀ {symbol}, s.Known symbol → s'.Known symbol) : Grows g s s' where
  isOpen := by rw [hscopes]; exact id
  outer := by rw [hscopes]
  known := hsymbols
  bound {id} := by simp only [Bound, lookup, hscopes]; exact fun h => h
  visited {o} := by simp only [isVisited, hscopes]; exact Or.inl

theorem push (s : LowerState) (stmt : Buffer.Stmt) : Grows g s (s.push stmt) :=
  of_scopes_eq (push_scopes s stmt) fun h => by rwa [Known, push_symbols]

theorem name (h : s.scopes ≠ []) (id : NodeId) (n : Name) : Grows g s (s.name id n) where
  isOpen hopen := onScope_open hopen _
  outer := onScope_tail s _
  known h := by rwa [LowerState.name, Known, onScope_symbols]
  bound {other} hother := by
    rw [Bound, lookup_name h]
    split
    · rfl
    · exact hother
  visited {o} ho := by
    rw [isVisited_name] at ho
    exact Or.inl ho

/-- An operator that was visited and named its result. -/
theorem of_visit {o : OpId} (hopen : s.scopes ≠ []) (h : Grows g (s.visit o) s')
    (hresult : ∀ id, (g.node id).producer = some o → s'.Bound id) : Grows g s s' where
  isOpen _ := h.isOpen (onScope_open hopen _)
  outer := h.outer.trans (onScope_tail s _)
  known hsymbol := h.known (by rwa [LowerState.visit, Known, onScope_symbols])
  bound hid := h.bound (bound_visit hid)
  visited {other} hother := by
    rcases h.visited hother with hvisited | hbound
    · rw [isVisited_visit hopen, Bool.or_eq_true, decide_eq_true_iff] at hvisited
      rcases hvisited with rfl | hvisited
      · exact Or.inr hresult
      · exact Or.inl hvisited
    · exact Or.inr hbound

/-- A block that is closed again leaves nothing but its statements behind. -/
theorem leave (h : Grows g s.enter s') : Grows g s s'.leave :=
  of_scopes_eq h.outer h.known

end Grows

/-! ## Ready states -/

/-- What lowering relies on for nodes that need at most `n` operators in a row. -/
structure Ready (g : Graph) (e : Entry) (n : Nat) (s : LowerState) : Prop where
  isOpen : s.scopes ≠ []
  given : ∀ {id}, e.node id → s.Bound id
  symbols : ∀ {symbol}, e.symbol symbol → s.Known symbol
  visited : ∀ {o id}, s.isVisited o = true → (g.node id).producer = some o →
    s.Bound id ∨ g.Available e id ∧ ¬ g.AvailableAt e n id

namespace Ready

variable {g : Graph} {e : Entry} {n m : Nat} {s' : LowerState}

theorem mono (hnm : n ≤ m) (h : Ready g e m s) : Ready g e n s where
  isOpen := h.isOpen
  given := h.given
  symbols := h.symbols
  visited ho hproducer :=
    (h.visited ho hproducer).imp id fun ⟨hid, hnot⟩ => ⟨hid, fun hn => hnot (hn.mono hnm)⟩

theorem grow (h : Ready g e n s) (hs : Grows g s s') : Ready g e n s' where
  isOpen := hs.isOpen h.isOpen
  given hid := hs.bound (h.given hid)
  symbols hsymbol := hs.known (h.symbols hsymbol)
  visited {o id} ho hproducer := by
    rcases hs.visited ho with ho | hbound
    · exact (h.visited ho hproducer).imp hs.bound fun h => h
    · exact Or.inl (hbound id hproducer)

theorem enter (h : Ready g e n s) : Ready g e n s.enter where
  isOpen := by simp [LowerState.enter]
  given hid := h.given hid
  symbols hsymbol := h.symbols hsymbol
  visited {o id} ho hproducer := h.visited (o := o) (by
    simpa [isVisited, LowerState.enter, LowerScope.empty] using ho) hproducer

/-- While an operator is at work, only nodes that need fewer operators are asked for. -/
theorem visit (hc : g.Coherent) (h : Ready g e (n + 1) s) {o : OpId} {id : NodeId}
    (hproducer : (g.node id).producer = some o) (hid : g.Available e id)
    (hnot : ¬ g.AvailableAt e n id) : Ready g e n (s.visit o) where
  isOpen := onScope_open h.isOpen _
  given hother := bound_visit (h.given hother)
  symbols hsymbol := by
    rw [LowerState.visit, Known, onScope_symbols]
    exact h.symbols hsymbol
  visited {other result} hother hresult := by
    rw [isVisited_visit h.isOpen, Bool.or_eq_true, decide_eq_true_iff] at hother
    rcases hother with rfl | hother
    · obtain ⟨-, houtputs⟩ := hc id other hproducer
      obtain ⟨-, houtputs'⟩ := hc result other hresult
      obtain rfl := List.singleton_inj.mp (houtputs.symm.trans houtputs')
      exact Or.inr ⟨hid, hnot⟩
    · exact ((h.mono (Nat.le_succ n)).visited hother hresult).imp bound_visit fun h => h

end Ready

theorem bound_enter {id : NodeId} (h : s.Bound id) : s.enter.Bound id := h

end LowerState

namespace LowerM

open LowerState (Grows)

variable {g : Graph} {α β : Type} {s : LowerState}

/-- A step that succeeds, only lets the state grow, and gives a result with a property. -/
def Lowers (g : Graph) (m : LowerM α) (s : LowerState) (R : α → LowerState → Prop) : Prop :=
  ∃ a s', m s = .ok (a, s') ∧ Grows g s s' ∧ R a s'

section Rules

variable {m : LowerM α} {R R' : α → LowerState → Prop} {T : β → LowerState → Prop}

theorem Lowers.mono (hm : Lowers g m s R) (h : ∀ a s', Grows g s s' → R a s' → R' a s') :
    Lowers g m s R' := by
  obtain ⟨a, s', hrun, hgrows, hR⟩ := hm
  exact ⟨a, s', hrun, hgrows, h a s' hgrows hR⟩

theorem Lowers.bind {f : α → LowerM β} (hm : Lowers g m s R)
    (hf : ∀ a s', Grows g s s' → R a s' → Lowers g (f a) s' T) : Lowers g (m >>= f) s T := by
  obtain ⟨a, s', hrun, hgrows, hR⟩ := hm
  obtain ⟨b, s'', hrun', hgrows', hT⟩ := hf a s' hgrows hR
  refine ⟨b, s'', ?_, hgrows.trans hgrows', hT⟩
  calc (m >>= f) s = (m s >>= fun p => f p.1 p.2) := rfl
    _ = f a s' := by rw [hrun]; rfl
    _ = .ok (b, s'') := hrun'

theorem lowers_pure {a : α} (h : R a s) : Lowers g (pure a) s R :=
  ⟨a, s, rfl, .refl s, h⟩

/-- A step that reads the state goes on from what it read. -/
theorem lowers_get_bind {f : LowerState → LowerM β} (h : Lowers g (f s) s T) :
    Lowers g (get >>= f) s T := h

theorem lowers_modify {f : LowerState → LowerState} {R : Unit → LowerState → Prop}
    (hgrows : Grows g s (f s)) (h : R () (f s)) : Lowers g (modify f) s R :=
  ⟨(), f s, rfl, hgrows, h⟩

theorem lowers_ite {c : Prop} [Decidable c] {m' : LowerM α} (ht : c → Lowers g m s R)
    (hf : ¬ c → Lowers g m' s R) : Lowers g (if c then m else m') s R := by
  split
  · exact ht ‹_›
  · exact hf ‹_›

/-- Two ways to a result that is used in the same way. -/
theorem lowers_ite_bind {c : Prop} [Decidable c] {m' : LowerM α} {f : α → LowerM β}
    (ht : Lowers g m s R) (hf : Lowers g m' s R)
    (hrest : ∀ a s', Grows g s s' → R a s' → Lowers g (f a) s' T) :
    Lowers g (if c then m >>= f else m' >>= f) s T :=
  lowers_ite (fun _ => ht.bind hrest) fun _ => hf.bind hrest

end Rules

/-! ## Primitive steps -/

theorem lowers_fresh (base : String) : Lowers g (fresh base) s fun _ _ => True :=
  ⟨_, _, rfl, .of_scopes_eq rfl id, trivial⟩

theorem lowers_emit (stmt : Buffer.Stmt) : Lowers g (emit stmt) s fun _ _ => True :=
  lowers_modify (.push s stmt) trivial

theorem lowers_name (h : s.scopes ≠ []) (id : NodeId) (name : Name) :
    Lowers g (LowerM.bind id name) s fun _ s' => s'.Bound id :=
  lowers_modify (.name h id name) (LowerState.bound_name h id name)

/-- An operator may be visited if the steps that follow name its result. -/
theorem lowers_visit {o : OpId} {f : Unit → LowerM α} {R : α → LowerState → Prop}
    (hs : s.scopes ≠ []) (h : Lowers g (f ()) (s.visit o) R)
    (hresult : ∀ a s', R a s' → ∀ id, (g.node id).producer = some o → s'.Bound id) :
    Lowers g (visit o >>= f) s R := by
  obtain ⟨a, s', hrun, hgrows, hR⟩ := h
  exact ⟨a, s', hrun, .of_visit hs hgrows (hresult a s' hR), hR⟩

/-- A block of its own may be opened and closed around any steps. -/
theorem lowers_region {steps : LowerM Unit} (h : Lowers g steps s.enter fun _ _ => True) :
    Lowers g (region steps) s fun _ _ => True := by
  obtain ⟨⟨⟩, s', hrun, hgrows, -⟩ := h
  refine ⟨s'.block, s'.leave, ?_, hgrows.leave, trivial⟩
  calc region steps s = (steps s.enter >>= fun p => .ok (p.2.block, p.2.leave)) := rfl
    _ = .ok (s'.block, s'.leave) := by rw [hrun]; rfl

/-- A step that gives a name to a new value. -/
theorem lowers_define (base : String) (stmt : Name → Buffer.Stmt) :
    Lowers g (do
      let dst ← fresh base
      emit (stmt dst)
      pure dst) s fun _ _ => True :=
  (lowers_fresh base).bind fun dst _ _ _ =>
    (lowers_emit (stmt dst)).bind fun _ _ _ _ => lowers_pure trivial

end LowerM

end TensorKernel
