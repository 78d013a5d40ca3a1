import TensorKernel.Proofs.Buffer.Typing
import TensorKernel.Proofs.Lower.Logic

/-!
# Reasoning about emitted statements

`LowerM.Emits` says what a lowering step leaves behind if it succeeds: it appends typed statements
to the innermost block, which define new names only, and what the state knows of nodes, symbols and
index constants stays true of the values that are known after these statements.  There is one rule
for each way of combining steps.

Some names are taken before the statement that defines them is emitted, among them the arguments of
regions.  Therefore the numbers from some number `lo` up to the counter may be set aside: no
statement defines them yet, and the next one may.  `LowerM.Reserves` describes the steps that set
names aside.
-/

namespace TensorKernel

open Buffer (Operand Ty Holds TypedIn definitions results)

/-! ## New names -/

/-- Values with different numbers from an interval. -/
structure Numbered (lo hi : Nat) (ds : List Operand) : Prop where
  number : ∀ d ∈ ds, ∃ k : Nat, lo ≤ k ∧ k < hi ∧ d.name.number = some (k : Int)
  nodup : (ds.map Operand.key).Nodup

namespace Numbered

variable {lo lo' mid hi hi' : Nat} {xs ys : List Operand}

theorem nil : Numbered lo hi [] :=
  ⟨by simp, by simp⟩

theorem single {k : Nat} (hlo : lo ≤ k) (hhi : k < hi) (base : String) (type : Ty) :
    Numbered lo hi [⟨.numbered base k, type⟩] :=
  ⟨by simpa using ⟨k, hlo, hhi, rfl⟩, by simp⟩

theorem mono (hlo : lo' ≤ lo) (hhi : hi ≤ hi') (h : Numbered lo hi xs) : Numbered lo' hi' xs where
  number d hd := by
    obtain ⟨k, h₁, h₂, hk⟩ := h.number d hd
    exact ⟨k, Nat.le_trans hlo h₁, Nat.lt_of_lt_of_le h₂ hhi, hk⟩
  nodup := h.nodup

theorem perm (hp : xs.Perm ys) (h : Numbered lo hi xs) : Numbered lo hi ys where
  number d hd := h.number d (hp.mem_iff.mpr hd)
  nodup := (hp.map Operand.key).nodup_iff.mp h.nodup

/-- Values numbered from neighbouring intervals. -/
theorem append (hlo : lo ≤ mid) (hhi : mid ≤ hi) (hx : Numbered lo mid xs)
    (hy : Numbered mid hi ys) : Numbered lo hi (xs ++ ys) where
  number d hd := by
    rcases List.mem_append.mp hd with hd | hd
    · exact (hx.mono (Nat.le_refl lo) hhi).number d hd
    · exact (hy.mono hlo (Nat.le_refl hi)).number d hd
  nodup := by
    rw [List.map_append, List.nodup_append]
    refine ⟨hx.nodup, hy.nodup, fun a ha b hb hab => ?_⟩
    obtain ⟨x, hxs, rfl⟩ := List.mem_map.mp ha
    obtain ⟨y, hys, rfl⟩ := List.mem_map.mp hb
    obtain ⟨k, -, hk, hxk⟩ := hx.number x hxs
    obtain ⟨l, hl, -, hyl⟩ := hy.number y hys
    simp only [Operand.key, Name.key, hxk, hyl, NameKey.numbered.injEq] at hab
    omega

end Numbered

/-! ## What a state knows -/

/-- Nodes, index constants and shape symbols have names that are known at their types. -/
structure LowerState.Knows (g : Graph) (known : List Operand) (s : LowerState) : Prop where
  scopes : s.scopes ≠ []
  blocks : s.blocks ≠ []
  node : ∀ {id n}, s.lookup id = some n → ⟨n, g.valueType id⟩ ∈ known
  index : ∀ {k n}, s.indexConstant? k = some n → ⟨n, .index⟩ ∈ known
  symbol : ∀ {symbol n}, s.symbols.get? symbol = some n → ⟨n, .index⟩ ∈ known

namespace LowerState

variable {s : LowerState}

@[simp]
theorem onScope_blocks (s : LowerState) (f : LowerScope → LowerScope) :
    (s.onScope f).blocks = s.blocks := by
  unfold onScope
  split <;> rfl

@[simp]
theorem onScope_counter (s : LowerState) (f : LowerScope → LowerScope) :
    (s.onScope f).counter = s.counter := by
  unfold onScope
  split <;> rfl

/-- What does not change the constants in a scope does not change what is found. -/
theorem indexConstant?_onScope {f : LowerScope → LowerScope}
    (hf : ∀ scope, (f scope).indexConstants = scope.indexConstants) (k : Int) :
    (s.onScope f).indexConstant? k = s.indexConstant? k := by
  unfold onScope indexConstant?
  split
  · rfl
  · next h => rw [h]; simp only [List.findSome?_cons, hf]

theorem indexConstant?_name (id : NodeId) (n : Name) (k : Int) :
    (s.name id n).indexConstant? k = s.indexConstant? k := by
  apply indexConstant?_onScope
  exact fun _ => rfl

theorem indexConstant?_visit (o : OpId) (k : Int) :
    (s.visit o).indexConstant? k = s.indexConstant? k := by
  apply indexConstant?_onScope
  exact fun _ => rfl

theorem lookup_bindConstant (k : Int) (n : Name) (id : NodeId) :
    (s.onScope fun scope =>
      { scope with indexConstants := scope.indexConstants.bind k n }).lookup id = s.lookup id := by
  apply lookup_onScope
  exact fun _ => rfl

theorem indexConstant?_bind (h : s.scopes ≠ []) (k other : Int) (n : Name) :
    (s.onScope fun scope =>
      { scope with indexConstants := scope.indexConstants.bind k n }).indexConstant? other =
        if other = k then some n else s.indexConstant? other := by
  unfold onScope indexConstant?
  split
  · next hnil => exact absurd hnil h
  · next hcons =>
    rw [hcons]
    by_cases same : other = k <;> simp [List.findSome?_cons, Scope.get?_bind, same]

@[simp]
theorem push_counter (s : LowerState) (stmt : Buffer.Stmt) : (s.push stmt).counter = s.counter := by
  unfold push
  split <;> rfl

theorem push_blocks_tail (s : LowerState) (stmt : Buffer.Stmt) :
    (s.push stmt).blocks.tail = s.blocks.tail := by
  unfold push
  split
  · rfl
  · next h => rw [h]; rfl

theorem push_open (h : s.blocks ≠ []) (stmt : Buffer.Stmt) : (s.push stmt).blocks ≠ [] := by
  unfold push
  split
  · exact h
  · simp

theorem block_push (h : s.blocks ≠ []) (stmt : Buffer.Stmt) :
    (s.push stmt).block = s.block ++ [stmt] := by
  unfold push block
  split
  · next hnil => exact absurd hnil h
  · next hcons => simp [hcons]

end LowerState

namespace LowerState.Knows

variable {g : Graph} {known known' : List Operand} {s : LowerState}

theorem mono (hsub : known ⊆ known') (h : s.Knows g known) : s.Knows g known' :=
  ⟨h.scopes, h.blocks, fun hn => hsub (h.node hn), fun hn => hsub (h.index hn),
    fun hn => hsub (h.symbol hn)⟩

/-- What is known depends on the scopes and the symbols. -/
theorem congr {s' : LowerState} (h : s.Knows g known) (hscopes : s'.scopes = s.scopes)
    (hblocks : s'.blocks ≠ []) (hsymbols : s'.symbols = s.symbols) : s'.Knows g known where
  scopes := by rw [hscopes]; exact h.scopes
  blocks := hblocks
  node hn := h.node (by rwa [lookup, hscopes] at hn)
  index hn := h.index (by rwa [indexConstant?, hscopes] at hn)
  symbol hn := h.symbol (by rwa [hsymbols] at hn)

theorem name (h : s.Knows g known) {id : NodeId} {n : Name} (hn : ⟨n, g.valueType id⟩ ∈ known) :
    (s.name id n).Knows g known where
  scopes := onScope_open h.scopes _
  blocks := by rw [LowerState.name, onScope_blocks]; exact h.blocks
  node {other m} hm := by
    rw [lookup_name h.scopes] at hm
    split at hm
    · next same =>
      subst same
      cases hm
      exact hn
    · exact h.node hm
  index hm := h.index (by rwa [indexConstant?_name] at hm)
  symbol hm := h.symbol (by rwa [LowerState.name, onScope_symbols] at hm)

theorem visit (h : s.Knows g known) (o : OpId) : (s.visit o).Knows g known where
  scopes := onScope_open h.scopes _
  blocks := by rw [LowerState.visit, onScope_blocks]; exact h.blocks
  node hm := h.node (by rwa [lookup_visit] at hm)
  index hm := h.index (by rwa [indexConstant?_visit] at hm)
  symbol hm := h.symbol (by rwa [LowerState.visit, onScope_symbols] at hm)

/-- A new index constant is known. -/
theorem indexConstant (h : s.Knows g known) (k : Int) {n : Name} (hn : ⟨n, .index⟩ ∈ known) :
    (s.onScope fun scope =>
      { scope with indexConstants := scope.indexConstants.bind k n }).Knows g known where
  scopes := onScope_open h.scopes _
  blocks := by rw [onScope_blocks]; exact h.blocks
  node hm := h.node (by rwa [lookup_bindConstant] at hm)
  index {j m} hm := by
    rw [indexConstant?_bind h.scopes] at hm
    split at hm
    · cases hm
      exact hn
    · exact h.index hm
  symbol hm := h.symbol (by rwa [onScope_symbols] at hm)

/-- Taking numbers changes nothing that is known. -/
theorem reserve {s' : LowerState} (h : s.Knows g known)
    (hs' : s' = { s with counter := s'.counter, history := s'.history }) : s'.Knows g known := by
  rw [hs']
  exact h.congr rfl h.blocks rfl

/-- A new block knows nothing of its own. -/
theorem enter (h : s.Knows g known) : s.enter.Knows g known where
  scopes := by simp [LowerState.enter]
  blocks := by simp [LowerState.enter]
  node hm := h.node hm
  index hm := h.index hm
  symbol hm := h.symbol hm

end LowerState.Knows

/-! ## Emitting steps -/

/--
The second state is the first one after statements were emitted.  If `fixed` holds, the shape
symbols are as before.
-/
structure LowerState.Emitted (g : Graph) (castable : ElemSize → Prop) (fixed : Prop)
    (known : List Operand) (lo : Nat) (stmts : List Buffer.Stmt) (s s' : LowerState) : Prop where
  scopes : s'.scopes.tail = s.scopes.tail
  blocks : s'.blocks.tail = s.blocks.tail
  symbols : fixed → s'.symbols = s.symbols
  counter : s.counter ≤ s'.counter
  block : s'.block = s.block ++ stmts
  typed : Holds (TypedIn castable) known stmts
  plain : ∀ t ∈ stmts, t.isTerminator = false
  numbered : Numbered lo s'.counter (definitions stmts)
  knows : s'.Knows g (known ++ results stmts)

namespace LowerState.Emitted

variable {g : Graph} {castable : ElemSize → Prop} {fixed : Prop} {known : List Operand} {lo : Nat}
  {stmts stmts' : List Buffer.Stmt} {s s' s'' : LowerState}

/-- A state that knows as much, reached without emitting anything. -/
theorem silent (hscopes : s'.scopes.tail = s.scopes.tail) (hblocks : s'.blocks = s.blocks)
    (hsymbols : fixed → s'.symbols = s.symbols) (hcounter : s.counter ≤ s'.counter)
    (hknows : s'.Knows g known) : Emitted g castable fixed known lo [] s s' where
  scopes := hscopes
  blocks := by rw [hblocks]
  symbols := hsymbols
  counter := hcounter
  block := by simp [LowerState.block, hblocks]
  typed := .nil
  plain := by simp
  numbered := .nil
  knows := by simpa using hknows

/-- A statement at the end of the innermost block. -/
theorem push (hs : s.Knows g known) {stmt : Buffer.Stmt} (htyped : TypedIn castable known stmt)
    (hbody : Holds (TypedIn castable) (known ++ stmt.args) stmt.body)
    (hinner : stmt.isTerminator = false) (hnumbered : Numbered lo s.counter (definitions [stmt])) :
    Emitted g castable fixed known lo [stmt] s (s.push stmt) where
  scopes := by rw [push_scopes]
  blocks := push_blocks_tail s stmt
  symbols _ := push_symbols s stmt
  counter := by rw [push_counter]
  block := block_push hs.blocks stmt
  typed := .cons htyped hbody .nil
  plain := by simpa using hinner
  numbered := by rwa [push_counter]
  knows := (hs.congr (push_scopes s stmt) (push_open hs.blocks stmt) (push_symbols s stmt)).mono
    (List.subset_append_left ..)

theorem join {mid : Nat} (h : Emitted g castable fixed known mid stmts s s') {mid' : Nat}
    (h' : Emitted g castable fixed (known ++ results stmts) mid' stmts' s' s'')
    (hnumbered : Numbered lo s''.counter (definitions stmts ++ definitions stmts')) :
    Emitted g castable fixed known lo (stmts ++ stmts') s s'' where
  scopes := h'.scopes.trans h.scopes
  blocks := h'.blocks.trans h.blocks
  symbols hfixed := (h'.symbols hfixed).trans (h.symbols hfixed)
  counter := Nat.le_trans h.counter h'.counter
  block := by rw [h'.block, h.block, List.append_assoc]
  typed := h.typed.append h'.typed
  plain t ht := (List.mem_append.mp ht).elim (h.plain t) (h'.plain t)
  numbered := by rwa [Buffer.definitions_append]
  knows := by
    rw [Buffer.results_append, ← List.append_assoc]
    exact h'.knows

theorem trans (hlo : lo ≤ s.counter) (h : Emitted g castable fixed known lo stmts s s')
    (h' : Emitted g castable fixed (known ++ results stmts) s'.counter stmts' s' s'') :
    Emitted g castable fixed known lo (stmts ++ stmts') s s'' :=
  h.join h' (h.numbered.append (Nat.le_trans hlo h.counter) h'.counter h'.numbered)

/-- Numbers may be taken before anything is emitted. -/
theorem of_reserve (hs' : s' = { s with counter := s'.counter, history := s'.history })
    (hcounter : s.counter ≤ s'.counter)
    (h : Emitted g castable fixed known lo stmts s' s'') :
    Emitted g castable fixed known lo stmts s s'' where
  scopes := by rw [h.scopes, hs']
  blocks := by rw [h.blocks, hs']
  symbols hfixed := by rw [h.symbols hfixed, hs']
  counter := Nat.le_trans hcounter h.counter
  block := by rw [h.block, hs']; rfl
  typed := h.typed
  plain := h.plain
  numbered := h.numbered
  knows := h.knows

end LowerState.Emitted

namespace LowerM

open LowerState (Emitted)

/-- If the step succeeds, it emits typed statements and its result has a property. -/
def Emits {α : Type} (g : Graph) (castable : ElemSize → Prop) (fixed : Prop) (known : List Operand)
    (lo : Nat) (m : LowerM α) (s : LowerState) (R : List Operand → α → Prop) : Prop :=
  s.Knows g known → lo ≤ s.counter → ∀ a s', m s = .ok (a, s') →
    ∃ stmts, Emitted g castable fixed known lo stmts s s' ∧ R (known ++ results stmts) a

/-- If the step succeeds, it has done nothing but take numbers, and its result has a property. -/
def Reserves {α : Type} (g : Graph) (known : List Operand) (m : LowerM α) (s : LowerState)
    (R : Nat → α → Prop) : Prop :=
  s.Knows g known → ∀ a s', m s = .ok (a, s') →
    s' = { s with counter := s'.counter, history := s'.history } ∧ s.counter ≤ s'.counter ∧ R s'.counter a

theorem run_bind {α β : Type} {m : LowerM α} {f : α → LowerM β} {s s₁ : LowerState} {a : α}
    (h : m s = .ok (a, s₁)) : (m >>= f) s = f a s₁ := by
  calc (m >>= f) s = (m s >>= fun p => f p.1 p.2) := rfl
    _ = f a s₁ := by rw [h]; rfl

/-- A bind succeeds if its steps do. -/
theorem exists_of_bind {α β : Type} {m : LowerM α} {f : α → LowerM β} {s : LowerState} {b : β}
    {s' : LowerState} (h : (m >>= f) s = .ok (b, s')) :
    ∃ a s₁, m s = .ok (a, s₁) ∧ f a s₁ = .ok (b, s') := by
  have hbind : (m s >>= fun p => f p.1 p.2) = .ok (b, s') := h
  cases hm : m s with
  | error fault =>
    rw [hm] at hbind
    cases hbind
  | ok p =>
    rw [hm] at hbind
    exact ⟨p.1, p.2, rfl, hbind⟩

variable {g : Graph} {castable : ElemSize → Prop} {fixed : Prop} {known : List Operand} {lo : Nat}
  {α β : Type} {m : LowerM α} {s : LowerState} {R R' : List Operand → α → Prop}
  {T : List Operand → β → Prop}

section Rules

theorem Emits.mono (hm : Emits g castable fixed known lo m s R)
    (h : ∀ known' a, known ⊆ known' → R known' a → R' known' a) :
    Emits g castable fixed known lo m s R' := by
  intro hs hlo a s' hrun
  obtain ⟨stmts, hstmts, hR⟩ := hm hs hlo a s' hrun
  exact ⟨stmts, hstmts, h _ a (List.subset_append_left ..) hR⟩

theorem Emits.bind {f : α → LowerM β} (hm : Emits g castable fixed known lo m s R)
    (hf : ∀ a s₁ known₁, known ⊆ known₁ → R known₁ a →
      Emits g castable fixed known₁ s₁.counter (f a) s₁ T) :
    Emits g castable fixed known lo (m >>= f) s T := by
  intro hs hlo b s' hrun
  obtain ⟨a, s₁, hm', hf'⟩ := exists_of_bind hrun
  obtain ⟨stmts, hstmts, hR⟩ := hm hs hlo a s₁ hm'
  obtain ⟨stmts', hstmts', hT⟩ := hf a s₁ _ (List.subset_append_left ..) hR hstmts.knows
    (Nat.le_refl _) b s' hf'
  refine ⟨stmts ++ stmts', hstmts.trans hlo hstmts', ?_⟩
  rwa [Buffer.results_append, ← List.append_assoc]

theorem emits_pure {a : α} (h : R known a) : Emits g castable fixed known lo (pure a) s R := by
  intro hs _ b s' hrun
  cases hrun
  exact ⟨[], .silent rfl rfl (fun _ => rfl) (Nat.le_refl _) hs, by simpa using h⟩

theorem emits_throw {fault : LoweringFault} :
    Emits g castable fixed known lo (throw fault : LowerM α) s R := by
  intro _ _ a s' hrun
  cases hrun

/-- A step that reads the state goes on from what it read, which knows what is known. -/
theorem emits_get_bind {f : LowerState → LowerM β}
    (h : s.Knows g known → Emits g castable fixed known lo (f s) s T) :
    Emits g castable fixed known lo (get >>= f) s T :=
  fun hs => h hs hs

theorem emits_ite {c : Prop} [Decidable c] {m' : LowerM α}
    (ht : c → Emits g castable fixed known lo m s R)
    (hf : ¬ c → Emits g castable fixed known lo m' s R) :
    Emits g castable fixed known lo (if c then m else m') s R := by
  split
  · exact ht ‹_›
  · exact hf ‹_›

/-- Two ways to a result that is used in the same way. -/
theorem emits_ite_bind {c : Prop} [Decidable c] {m' : LowerM α} {f : α → LowerM β}
    (ht : c → Emits g castable fixed known lo m s R)
    (hf : ¬ c → Emits g castable fixed known lo m' s R)
    (hrest : ∀ a s₁ known₁, known ⊆ known₁ → R known₁ a →
      Emits g castable fixed known₁ s₁.counter (f a) s₁ T) :
    Emits g castable fixed known lo (if c then m >>= f else m' >>= f) s T :=
  emits_ite (fun h => (ht h).bind hrest) fun h => (hf h).bind hrest

end Rules

/-! ## Names that are set aside -/

section Reserved

variable {P : Nat → α → Prop} {Q : Nat → β → Prop}

theorem Reserves.bind {f : α → LowerM β} (hm : Reserves g known m s P)
    (hf : ∀ a s₁, s.counter ≤ s₁.counter → P s₁.counter a → Reserves g known (f a) s₁ Q) :
    Reserves g known (m >>= f) s Q := by
  intro hs b s' hrun
  obtain ⟨a, s₁, hm', hf'⟩ := exists_of_bind hrun
  obtain ⟨hs₁, hcounter, hP⟩ := hm hs a s₁ hm'
  obtain ⟨hs', hcounter', hQ⟩ := hf a s₁ hcounter hP (hs.reserve hs₁) b s' hf'
  refine ⟨?_, Nat.le_trans hcounter hcounter', hQ⟩
  rw [hs', hs₁]

theorem reserves_pure {a : α} (h : P s.counter a) : Reserves g known (pure a) s P := by
  intro _ b s' hrun
  cases hrun
  exact ⟨rfl, Nat.le_refl _, h⟩

theorem reserves_fresh (base : String) : Reserves g known (fresh base) s fun hi n =>
    ∀ type, Numbered s.counter hi [⟨n, type⟩] := by
  intro _ n s' hrun
  cases hrun
  exact ⟨rfl, Nat.le_succ _, .single (Nat.le_refl _) (Nat.lt_succ_self _) base⟩

theorem Reserves.bind_emits {f : α → LowerM β} (hm : Reserves g known m s P)
    (hf : ∀ a s₁, s.counter ≤ s₁.counter → P s₁.counter a →
      Emits g castable fixed known lo (f a) s₁ T) :
    Emits g castable fixed known lo (m >>= f) s T := by
  intro hs hlo b s' hrun
  obtain ⟨a, s₁, hm', hf'⟩ := exists_of_bind hrun
  obtain ⟨hs₁, hcounter, hP⟩ := hm hs a s₁ hm'
  obtain ⟨stmts, hstmts, hT⟩ := hf a s₁ hcounter hP (hs.reserve hs₁) (Nat.le_trans hlo hcounter) b
    s' hf'
  exact ⟨stmts, hstmts.of_reserve hs₁ hcounter, hT⟩

/-- Steps in a block of their own, which end with a `yield`, make a region. -/
theorem reserves_region {args : List Operand} {values : α → List Operand} {types : List Ty}
    (hm : Emits g castable True (known ++ args) s.counter m s.enter fun known' a =>
      (∀ v ∈ values a, v ∈ known') ∧ (values a).map Operand.type = types) :
    Reserves g known (region (m >>= fun a => emit (.yield (values a)))) s fun hi block =>
      Holds (TypedIn castable) (known ++ args) block ∧ Buffer.Yields types block ∧
        Numbered s.counter hi (definitions block) := by
  intro hs block s' hrun
  have hsteps : ((m >>= fun a => emit (.yield (values a))) s.enter >>= fun p =>
      Except.ok (p.2.block, p.2.leave)) = .ok (block, s') := hrun
  cases hinner : (m >>= fun a => emit (.yield (values a))) s.enter with
  | error fault =>
    rw [hinner] at hsteps
    cases hsteps
  | ok p =>
    obtain ⟨⟨⟩, s₂⟩ := p
    rw [hinner] at hsteps
    obtain ⟨a, s₁, hm', hemit⟩ := exists_of_bind hinner
    cases hemit
    cases hsteps
    -- What is known outside is known inside, together with the arguments.
    have henter := hs.enter.mono (List.subset_append_left known args)
    obtain ⟨stmts, hstmts, hvalues, htypes⟩ := hm henter (Nat.le_refl _) a s₁ hm'
    have hblock : (s₁.push (.yield (values a))).block = stmts ++ [.yield (values a)] := by
      rw [LowerState.block_push hstmts.knows.blocks, hstmts.block]
      rfl
    refine ⟨?_, ?_, ?_⟩
    · simp only [LowerState.leave, LowerState.push_scopes, LowerState.push_symbols,
        LowerState.push_counter, LowerState.push_blocks_tail, hstmts.scopes, hstmts.blocks,
        hstmts.symbols trivial]
      rfl
    · simpa [LowerState.leave, LowerState.enter] using hstmts.counter
    · rw [hblock]
      refine ⟨hstmts.typed.append (.cons hvalues .nil .nil), ⟨stmts, values a, rfl, hstmts.plain,
        htypes⟩, ?_⟩
      simpa [LowerState.leave, Buffer.definitions_append, Buffer.definitions_cons,
        Buffer.Stmt.results, Buffer.Stmt.args, Buffer.Stmt.body] using hstmts.numbered

end Reserved

/-! ## Primitive steps -/

section Steps

variable {stmt : Buffer.Stmt}

/-- A statement without a region that may stand anywhere in a block, and what it defines. -/
structure Simple (stmt : Buffer.Stmt) (ds : List Operand) : Prop where
  results : stmt.results = ds
  args : stmt.args = []
  body : stmt.body = []
  inner : stmt.isTerminator = false

theorem emits_emit (htyped : TypedIn castable known stmt)
    (hbody : Holds (TypedIn castable) (known ++ stmt.args) stmt.body)
    (hinner : stmt.isTerminator = false) (hnumbered : Numbered lo s.counter (definitions [stmt])) :
    Emits g castable fixed known lo (emit stmt) s fun known' _ => stmt.results ⊆ known' := by
  intro hs _ _ s' hrun
  cases hrun
  exact ⟨[stmt], .push hs htyped hbody hinner hnumbered, by simp⟩

namespace Simple

variable {ds : List Operand} (h : Simple stmt ds)
include h

theorem definitions_eq : definitions [stmt] = ds := by
  simp [Buffer.definitions_cons, h.results, h.args, h.body]

theorem region : Holds (TypedIn castable) (known ++ stmt.args) stmt.body := by
  rw [h.body]
  exact .nil

end Simple

theorem emits_simple {ds : List Operand} (hsimple : Simple stmt ds)
    (htyped : TypedIn castable known stmt) (hnumbered : Numbered lo s.counter ds) :
    Emits g castable fixed known lo (emit stmt) s fun known' _ => ds ⊆ known' := by
  rw [← hsimple.definitions_eq] at hnumbered
  rw [← hsimple.results]
  exact emits_emit htyped hsimple.region hsimple.inner hnumbered

/-- A statement that defines nothing. -/
theorem emits_effect (hsimple : Simple stmt []) (htyped : TypedIn castable known stmt) :
    Emits g castable fixed known lo (emit stmt) s fun _ _ => True :=
  (emits_simple hsimple htyped .nil).mono fun _ _ _ _ => trivial

/-- A new name is defined and used further on. -/
theorem emits_define {base : String} {stmt : Name → Buffer.Stmt} {type : Ty} {f : Name → LowerM β}
    (hsimple : ∀ n, Simple (stmt n) [⟨n, type⟩]) (htyped : ∀ n, TypedIn castable known (stmt n))
    (hf : ∀ n s₁ known₁, known ⊆ known₁ → ⟨n, type⟩ ∈ known₁ →
      Emits g castable fixed known₁ s₁.counter (f n) s₁ T) :
    Emits g castable fixed known lo (do
      let n ← fresh base
      emit (stmt n)
      f n) s T := by
  intro hs hlo
  refine (reserves_fresh base).bind_emits (fun n s₁ hcounter hn => ?_) hs hlo
  refine (emits_simple (hsimple n) (htyped n) ((hn type).mono hlo (Nat.le_refl _))).bind
    fun _ s₂ known₂ hsub hdefined => ?_
  exact hf n s₂ known₂ hsub (by simpa using hdefined)

/-- A new name is defined and given back. -/
theorem emits_definition {base : String} {stmt : Name → Buffer.Stmt} {type : Ty}
    (hsimple : ∀ n, Simple (stmt n) [⟨n, type⟩]) (htyped : ∀ n, TypedIn castable known (stmt n)) :
    Emits g castable fixed known lo (do
      let n ← fresh base
      emit (stmt n)
      pure n) s fun known' n => ⟨n, type⟩ ∈ known' :=
  emits_define hsimple htyped fun _ _ _ _ hn => emits_pure hn

/-- A new name is taken, and defined after other steps. -/
theorem emits_late {base : String} {stmt : Name → α → Buffer.Stmt} {type : Ty}
    (hsimple : ∀ n a, Simple (stmt n a) [⟨n, type⟩])
    (hm : ∀ s₁, Emits g castable fixed known s₁.counter m s₁ R)
    (htyped : ∀ n a known₁, known ⊆ known₁ → R known₁ a → TypedIn castable known₁ (stmt n a)) :
    Emits g castable fixed known lo (do
      let n ← fresh base
      let a ← m
      emit (stmt n a)
      pure n) s fun known' n => ⟨n, type⟩ ∈ known' := by
  intro hs hlo n s' hrun
  obtain ⟨n, s₁, hfresh, hrun⟩ := exists_of_bind hrun
  obtain ⟨a, s₂, hm', hrun⟩ := exists_of_bind hrun
  obtain ⟨⟨⟩, s₃, hemit, hpure⟩ := exists_of_bind hrun
  cases hpure
  cases hemit
  obtain ⟨hs₁, hcounter, hn⟩ := reserves_fresh base hs n s₁ hfresh
  obtain ⟨stmts, hstmts, hR⟩ := hm s₁ (hs.reserve hs₁) (Nat.le_refl _) a s₂ hm'
  have hlast : Emitted g castable fixed (known ++ results stmts) s.counter [stmt n a] s₂
      (s₂.push (stmt n a)) := by
    refine .push hstmts.knows (htyped n a _ (List.subset_append_left ..) hR)
      (hsimple n a).region (hsimple n a).inner ?_
    rw [(hsimple n a).definitions_eq]
    exact (hn type).mono (Nat.le_refl _) hstmts.counter
  refine ⟨stmts ++ [stmt n a], (hstmts.of_reserve hs₁ hcounter).join hlast ?_,
    by simp [(hsimple n a).results]⟩
  rw [(hsimple n a).definitions_eq, LowerState.push_counter]
  exact ((hn type).append hcounter hstmts.counter hstmts.numbered).perm List.perm_append_comm
    |>.mono hlo (Nat.le_refl _)

/-- A change of what is known of nodes and index constants. -/
theorem emits_modify {f : LowerState → LowerState} (htail : (f s).scopes.tail = s.scopes.tail)
    (hblocks : (f s).blocks = s.blocks) (hsymbols : (f s).symbols = s.symbols)
    (hcounter : (f s).counter = s.counter) (hknows : s.Knows g known → (f s).Knows g known) :
    Emits g castable fixed known lo (modify f) s fun _ _ => True := by
  intro hs _ _ s' hrun
  cases hrun
  exact ⟨[], .silent htail hblocks (fun _ => hsymbols) (Nat.le_of_eq hcounter.symm) (hknows hs),
    trivial⟩

/-- A change of the innermost scope. -/
theorem emits_onScope {f : LowerScope → LowerScope}
    (hknows : s.Knows g known → (s.onScope f).Knows g known) :
    Emits g castable fixed known lo (modify fun s => s.onScope f) s fun _ _ => True :=
  emits_modify (LowerState.onScope_tail s f) (LowerState.onScope_blocks s f)
    (LowerState.onScope_symbols s f) (LowerState.onScope_counter s f) hknows

theorem emits_name {id : NodeId} {n : Name} (hn : ⟨n, g.valueType id⟩ ∈ known) :
    Emits g castable fixed known lo (LowerM.bind id n) s fun _ _ => True :=
  emits_modify (LowerState.onScope_tail s _) (LowerState.onScope_blocks s _)
    (LowerState.onScope_symbols s _) (LowerState.onScope_counter s _) fun hs => hs.name hn

theorem emits_bindConstant (k : Int) {n : Name} (hn : ⟨n, .index⟩ ∈ known) :
    Emits g castable fixed known lo (modify fun s => s.onScope fun scope =>
      { scope with indexConstants := scope.indexConstants.bind k n }) s fun _ _ => True :=
  emits_onScope fun hs => hs.indexConstant k hn

theorem emits_visit (o : OpId) :
    Emits g castable fixed known lo (visit o) s fun _ _ => True :=
  emits_onScope fun hs => hs.visit o

end Steps

end LowerM

end TensorKernel
