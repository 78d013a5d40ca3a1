import TensorKernel.Proofs.Build.Formed

/-!
# Reasoning about building steps

`BuildM.Meets` says of a building step what holds of its result and of the builder afterwards if it
succeeds, that the cache keeps a property in any case, and, where that is asked for, that a failure
is no internal error.  There is one rule for each way of combining steps.

`BuildM.Builds` specializes this to the steps of an expression, which only let the graph grow, keep
what is cached well-formed and, where that is asked for, keep the graph orderly.
-/

namespace TensorKernel

namespace BuildM

variable {sz : ElemSize} {caches : GraphCache → Prop} {strict closed : Prop} {α β : Type}

/-- The result of a step with the cache afterwards. -/
def run (m : BuildM α) (b : FunctionBuilder) (cache : GraphCache) :
    Except BuildError (α × FunctionBuilder) × GraphCache :=
  m b cache

theorem run_bind (m : BuildM α) (f : α → BuildM β) (b : FunctionBuilder) (cache : GraphCache) :
    run (m >>= f) b cache =
      match run m b cache with
      | (.ok (a, b'), cache') => run (f a) b' cache'
      | (.error err, cache') => (.error err, cache') := by
  have hrun : run (m >>= f) b cache =
      match m b cache with
      | (r, cache') => (ExceptT.bindCont (fun p => f p.1 p.2) r) cache' := rfl
  rw [hrun]
  unfold run
  rcases m b cache with ⟨r, cache'⟩
  cases r <;> rfl

/-- A failure that may happen: if internal errors are ruled out then it is none. -/
def Permitted (strict : Prop) (err : BuildError) : Prop :=
  strict → err.kind ≠ .internalError

/-- What a result satisfies if it is a success, and that it is a permitted failure otherwise. -/
def Outcome (strict : Prop) (Q : α → FunctionBuilder → Prop) :
    Except BuildError (α × FunctionBuilder) → Prop
  | .ok (a, b) => Q a b
  | .error err => Permitted strict err

/-- A step that keeps a property of the cache, fails as permitted, and succeeds with a property. -/
def Meets (caches : GraphCache → Prop) (strict : Prop) (m : BuildM α) (b : FunctionBuilder)
    (Q : α → FunctionBuilder → Prop) : Prop :=
  ∀ cache : GraphCache, caches cache →
    caches (run m b cache).2 ∧ Outcome strict Q (run m b cache).1

section Rules

variable {b : FunctionBuilder} {Q R : α → FunctionBuilder → Prop} {m : BuildM α}

theorem Meets.mono (hm : Meets caches strict m b Q) (h : ∀ a b', Q a b' → R a b') :
    Meets caches strict m b R := by
  intro cache hcache
  obtain ⟨hsound, hresult⟩ := hm cache hcache
  refine ⟨hsound, ?_⟩
  revert hresult
  cases (run m b cache).1 with
  | ok p => exact h p.1 p.2
  | error err => exact id

theorem Meets.bind {f : α → BuildM β} {S : β → FunctionBuilder → Prop}
    (hm : Meets caches strict m b Q) (hf : ∀ a b', Q a b' → Meets caches strict (f a) b' S) :
    Meets caches strict (m >>= f) b S := by
  intro cache hcache
  obtain ⟨hsound, hresult⟩ := hm cache hcache
  rw [run_bind]
  generalize run m b cache = result at hsound hresult
  obtain ⟨r, cache'⟩ := result
  cases r with
  | ok p => exact hf p.1 p.2 hresult cache' hsound
  | error err => exact ⟨hsound, hresult⟩

theorem Meets.and (hm : Meets caches strict m b Q) (hm' : Meets caches strict m b R) :
    Meets caches strict m b fun a b' => Q a b' ∧ R a b' := by
  intro cache hcache
  obtain ⟨hsound, hresult⟩ := hm cache hcache
  obtain ⟨-, hresult'⟩ := hm' cache hcache
  refine ⟨hsound, ?_⟩
  revert hresult hresult'
  cases (run m b cache).1 with
  | ok p => exact And.intro
  | error err => exact fun h _ => h

theorem meets_pure {a : α} (h : Q a b) : Meets caches strict (pure a : BuildM α) b Q :=
  fun _ hcache => ⟨hcache, h⟩

theorem meets_get {Q : FunctionBuilder → FunctionBuilder → Prop} (h : Q b b) :
    Meets caches strict (get : BuildM FunctionBuilder) b Q :=
  fun _ hcache => ⟨hcache, h⟩

theorem meets_set {b' : FunctionBuilder} {Q : PUnit → FunctionBuilder → Prop} (h : Q ⟨⟩ b') :
    Meets caches strict (set b' : BuildM PUnit) b Q :=
  fun _ hcache => ⟨hcache, h⟩

theorem meets_modify {f : FunctionBuilder → FunctionBuilder} {Q : PUnit → FunctionBuilder → Prop}
    (h : Q ⟨⟩ (f b)) : Meets caches strict (modify f : BuildM PUnit) b Q :=
  fun _ hcache => ⟨hcache, h⟩

theorem meets_onGraph {f : Graph → α × Graph}
    (h : Q (f b.graph).1 { b with graph := (f b.graph).2 }) :
    Meets caches strict (onGraph f) b Q :=
  fun _ hcache => ⟨hcache, h⟩

theorem meets_throw {err : BuildError} (h : Permitted strict err) :
    Meets caches strict (throw err : BuildM α) b Q :=
  fun _ hcache => ⟨hcache, h⟩

theorem meets_fail {span : Span} {fault : BuildFault} (h : fault.kind ≠ .internalError) :
    Meets caches strict (fail span fault : BuildM α) b Q :=
  meets_throw fun _ => h

theorem meets_ofExcept {span : Span} {r : Except BuildFault α} (hok : ∀ a, r = .ok a → Q a b)
    (herror : ∀ fault, r = .error fault → fault.kind ≠ .internalError) :
    Meets caches strict (ofExcept span r) b Q := by
  cases r with
  | ok a => exact meets_pure (hok a rfl)
  | error fault => exact meets_fail (herror fault rfl)

theorem meets_ite {c : Prop} [Decidable c] {m' : BuildM α} (hthen : c → Meets caches strict m b Q)
    (helse : ¬ c → Meets caches strict m' b Q) : Meets caches strict (if c then m else m') b Q := by
  split
  · next h => exact hthen h
  · next h => exact helse h

/-- The result of providing the graph of a function, with the cache afterwards. -/
def runCall (m : CacheM α) (cache : GraphCache) : Except BuildError α × GraphCache :=
  m cache

theorem run_lift (m : CacheM α) (b : FunctionBuilder) (cache : GraphCache) :
    run (monadLift m : BuildM α) b cache =
      ((runCall m cache).1.map fun a => (a, b), (runCall m cache).2) := by
  have hlift : run (monadLift m : BuildM α) b cache =
      match m cache with
      | (r, cache') => (ExceptT.bindCont (fun a => pure (a, b)) r :
          StateM GraphCache (Except BuildError (α × FunctionBuilder))) cache' := rfl
  rw [hlift]
  unfold runCall
  rcases m cache with ⟨r, cache'⟩
  cases r <;> rfl

/-- A step that only uses the cache. -/
theorem meets_lift {m : CacheM α} {P : α → Prop}
    (hm : ∀ cache : GraphCache, caches cache → caches (runCall m cache).2 ∧
      ∀ a, (runCall m cache).1 = .ok a → P a)
    (herror : ∀ cache : GraphCache, caches cache → ∀ err, (runCall m cache).1 = .error err →
      Permitted strict err) (hQ : ∀ a, P a → Q a b) :
    Meets caches strict (monadLift m : BuildM α) b Q := by
  intro cache hcache
  obtain ⟨hsound, hok⟩ := hm cache hcache
  have herr := herror cache hcache
  rw [run_lift]
  refine ⟨hsound, ?_⟩
  cases hresult : (runCall m cache).1 with
  | ok a => exact hQ a (hok a hresult)
  | error err => exact herr err hresult

/-- A step that reads the builder first. -/
theorem meets_get_bind {f : FunctionBuilder → BuildM β} {S : β → FunctionBuilder → Prop}
    (h : Meets caches strict (f b) b S) : Meets caches strict (get >>= f) b S :=
  (meets_get (Q := fun a b' => a = b ∧ b' = b) ⟨rfl, rfl⟩).bind fun _ _ ⟨ha, hb⟩ => by
    rw [ha, hb]
    exact h

end Rules

/-! ## Steps of expressions -/

/-- A step that only lets the graph of a well-formed builder grow. -/
def Builds (sz : ElemSize) (strict closed : Prop) (m : BuildM α) (b : FunctionBuilder)
    (P : α → FunctionBuilder → Prop) : Prop :=
  b.WellFormed sz → Meets (GraphCache.Formed sz closed) strict m b fun a b' =>
    b.Grown b' ∧ (closed → b.Encloses sz b') ∧ P a b'

section BuildsRules

variable {b : FunctionBuilder} {P R : α → FunctionBuilder → Prop} {m : BuildM α}

theorem Builds.mono (hm : Builds sz strict closed m b P) (h : ∀ a b', b.Grown b' → P a b' → R a b') :
    Builds sz strict closed m b R :=
  fun hb => (hm hb).mono fun a b' h' => ⟨h'.1, h'.2.1, h a b' h'.1 h'.2.2⟩

theorem Builds.bind {f : α → BuildM β} {S : β → FunctionBuilder → Prop}
    (hm : Builds sz strict closed m b P)
    (hf : ∀ a b', b.Grown b' → P a b' → Builds sz strict closed (f a) b' S) :
    Builds sz strict closed (m >>= f) b S :=
  fun hb => (hm hb).bind fun a b' h =>
    (hf a b' h.1 h.2.2 (h.1.wellFormed hb)).mono fun _ _ h' =>
      ⟨h.1.trans h'.1, fun hclosed => (h.2.1 hclosed).trans (h'.2.1 hclosed), h'.2.2⟩

theorem builds_of_wellFormed (h : b.WellFormed sz → Builds sz strict closed m b P) :
    Builds sz strict closed m b P :=
  fun hb => h hb hb

theorem builds_pure {a : α} (h : P a b) : Builds sz strict closed (pure a : BuildM α) b P :=
  fun hb => meets_pure ⟨.refl hb.valid, fun _ => id, h⟩

theorem builds_get_bind {f : FunctionBuilder → BuildM β} {S : β → FunctionBuilder → Prop}
    (h : Builds sz strict closed (f b) b S) : Builds sz strict closed (get >>= f) b S :=
  fun hb => meets_get_bind (h hb)

theorem builds_ite {c : Prop} [Decidable c] {m' : BuildM α}
    (hthen : c → Builds sz strict closed m b P) (helse : ¬ c → Builds sz strict closed m' b P) :
    Builds sz strict closed (if c then m else m') b P :=
  fun hb => meets_ite (fun h => hthen h hb) fun h => helse h hb

theorem builds_fail {span : Span} {fault : BuildFault} (h : fault.kind ≠ .internalError) :
    Builds sz strict closed (fail span fault : BuildM α) b P :=
  fun _ => meets_fail h

theorem builds_ofExcept {span : Span} {r : Except BuildFault α} (hok : ∀ a, r = .ok a → P a b)
    (herror : ∀ fault, r = .error fault → fault.kind ≠ .internalError) :
    Builds sz strict closed (ofExcept span r) b P :=
  fun hb => meets_ofExcept (fun a h => ⟨.refl hb.valid, fun _ => id, hok a h⟩) herror

/-- A node that is added to the graph with a value, which stays orderly. -/
theorem builds_onGraph_of {f : Graph → NodeId × Graph} (ty : KernelType)
    {P : NodeId → FunctionBuilder → Prop}
    (h : b.graph.Valid b.entry → b.graph.Produces b.entry (f b.graph) ty)
    (horderly : b.graph.Valid b.entry → b.graph.Orderly b.entry sz b.symbols →
      (f b.graph).2.Orderly b.entry sz b.symbols)
    (hP : b.Grown { b with graph := (f b.graph).2 } → (f b.graph).2.Available b.entry (f b.graph).1 →
      (f b.graph).2.type (f b.graph).1 = ty → P (f b.graph).1 { b with graph := (f b.graph).2 }) :
    Builds sz strict closed (onGraph f) b P := by
  intro hb
  have hproduces := h hb.valid
  exact meets_onGraph ⟨.of_produces hb.valid hproduces, fun _ => horderly hb.valid,
    hP (.of_produces hb.valid hproduces) hproduces.available hproduces.type⟩

/-- What holds of any new node of the type. -/
theorem builds_onGraph {f : Graph → NodeId × Graph} (ty : KernelType)
    {P : NodeId → FunctionBuilder → Prop}
    (h : b.graph.Valid b.entry → b.graph.Produces b.entry (f b.graph) ty)
    (horderly : b.graph.Valid b.entry → b.graph.Orderly b.entry sz b.symbols →
      (f b.graph).2.Orderly b.entry sz b.symbols)
    (hP : ∀ id b', b.Grown b' → b'.Has id → b'.graph.type id = ty → P id b') :
    Builds sz strict closed (onGraph f) b P :=
  builds_onGraph_of ty h horderly fun hgrown hhas htype => hP _ _ hgrown hhas htype

end BuildsRules

end BuildM

end TensorKernel
