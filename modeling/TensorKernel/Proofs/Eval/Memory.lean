import TensorKernel.Proofs.Eval.Nodes

/-!
# Evaluation remembers meanings

The scopes of an evaluation hold the meanings of available nodes and nothing else.
`Evaluator.Follows` says of a step that it has the result that the meaning of its operands gives,
and that it leaves such scopes behind.  There is one rule for each way of combining steps.
-/

namespace TensorKernel

namespace Evaluator

variable {α β : Type}

/-- The result of a step with the scopes afterwards. -/
def run (m : EvalM α) (s : List EvalScope) : Except EvalFault α × List EvalScope :=
  m s

theorem run_bind (m : EvalM α) (f : α → EvalM β) (s : List EvalScope) :
    run (m >>= f) s =
      match run m s with
      | (.ok a, s') => run (f a) s'
      | (.error fault, s') => (.error fault, s') := by
  have hrun : run (m >>= f) s = (ExceptT.bindCont f (m s).1) (m s).2 := rfl
  rw [hrun]
  unfold run
  rcases m s with ⟨r, s'⟩
  cases r <;> rfl

/-- A sequence of steps succeeds if its first part does and the rest does after it. -/
theorem exists_of_run_bind {m : EvalM α} {f : α → EvalM β} {s s' : List EvalScope} {b : β}
    (h : run (m >>= f) s = (.ok b, s')) :
    ∃ a between, run m s = (.ok a, between) ∧ run (f a) between = (.ok b, s') := by
  rw [run_bind] at h
  split at h
  · next a between hm => exact ⟨a, between, hm, h⟩
  · cases h

theorem run_get (s : List EvalScope) : run get s = (.ok s, s) := rfl

/-- The scopes in which a node has a value. -/
theorem lookup_cons (scope : EvalScope) (s : List EvalScope) (id : NodeId) :
    lookup (scope :: s) id = (scope.get? id).or (lookup s id) := by
  unfold lookup
  rw [List.findSome?_cons]
  cases scope.get? id <;> rfl

/-! ## Memories -/

/-- Scopes that hold the given values, and otherwise meanings of available nodes. -/
structure Memory (ctx : EvalContext) (given : GivenValues) (e : Entry) (s : List EvalScope) :
    Prop where
  isOpen : s ≠ []
  holds : ∀ {id v}, given.get? id = some v → lookup s id = some v
  remembered : ∀ {id v}, lookup s id = some v →
    ctx.graph.Available e id ∧ meaning ctx given id = .ok v

/-- The second list of scopes is the first one with more values in the innermost scope. -/
structure Remembers (s s' : List EvalScope) : Prop where
  outer : s'.tail = s.tail
  kept : ∀ {id v}, lookup s id = some v → lookup s' id = some v

theorem Remembers.refl (s : List EvalScope) : Remembers s s := ⟨rfl, id⟩

theorem Remembers.trans {s s' s'' : List EvalScope} (h : Remembers s s') (h' : Remembers s' s'') :
    Remembers s s'' :=
  ⟨h'.outer.trans h.outer, fun hid => h'.kept (h.kept hid)⟩

theorem Remembers.bound {s s' : List EvalScope} (h : Remembers s s') {id : NodeId}
    (hid : (lookup s id).isSome) : (lookup s' id).isSome := by
  obtain ⟨v, hv⟩ := Option.isSome_iff_exists.mp hid
  rw [h.kept hv]
  rfl

variable {ctx : EvalContext} {given : GivenValues} {e : Entry} {s : List EvalScope}

/-- Before anything is evaluated, the given values are all there is. -/
theorem memory_start (hgiven : e.GivenBy given) : Memory ctx given e [.ofTable given] where
  isOpen := by simp
  holds {id v} h := by
    rw [lookup_cons, Scope.get?_ofTable, h]
    rfl
  remembered {id v} h := by
    have hvalue : given.get? id = some v := by
      rw [lookup_cons, Scope.get?_ofTable] at h
      simpa [lookup] using h
    have hid : e.node id := (hgiven id).mp (by simp [Table.contains, hvalue])
    exact ⟨Graph.Source.available (Or.inl hid), meaning_of_given hvalue⟩

/--
A step with the given result, which leaves a memory behind whether it succeeds or not.  If it succeeds
then the result and the memory have a property.
-/
structure Follows (ctx : EvalContext) (given : GivenValues) (e : Entry) (m : EvalM α)
    (s : List EvalScope) (x : Except EvalFault α) (R : α → List EvalScope → Prop) : Prop where
  result : (run m s).1 = x
  memory : Memory ctx given e (run m s).2
  remembers : Remembers s (run m s).2
  holds : ∀ a, x = .ok a → R a (run m s).2

section Rules

variable {m : EvalM α} {x : Except EvalFault α} {R R' : α → List EvalScope → Prop}
  {T : β → List EvalScope → Prop}

/-- A step whose outcome is known. -/
theorem follows_of_run_eq {s' : List EvalScope} (h : run m s = (x, s'))
    (hmemory : Memory ctx given e s') (hkept : Remembers s s') (hR : ∀ a, x = .ok a → R a s') :
    Follows ctx given e m s x R := by
  constructor <;> rw [h]
  · exact hmemory
  · exact hkept
  · exact hR

/-- A step that reads nothing but its arguments. -/
theorem follows_of_run (hs : Memory ctx given e s) (h : run m s = (x, s))
    (hR : ∀ a, x = .ok a → R a s) : Follows ctx given e m s x R :=
  follows_of_run_eq h hs (.refl s) hR

theorem Follows.mono (hm : Follows ctx given e m s x R) (h : ∀ a s', R a s' → R' a s') :
    Follows ctx given e m s x R' :=
  { hm with holds := fun a ha => h a _ (hm.holds a ha) }

theorem Follows.bind {f : α → EvalM β} {y : α → Except EvalFault β}
    (hm : Follows ctx given e m s x R)
    (hf : ∀ a s', x = .ok a → Memory ctx given e s' → Remembers s s' → R a s' →
      Follows ctx given e (f a) s' (y a) T) :
    Follows ctx given e (m >>= f) s (x >>= y) T := by
  have hrun : run m s = (x, (run m s).2) := Prod.ext hm.result rfl
  cases x with
  | error fault =>
    exact follows_of_run_eq (by rw [run_bind, hrun]; rfl) hm.memory hm.remembers nofun
  | ok a =>
    have hstep : run (m >>= f) s = run (f a) (run m s).2 := by rw [run_bind, hrun]
    have hrest := hf a _ rfl hm.memory hm.remembers (hm.holds a rfl)
    exact follows_of_run_eq (hstep.trans (Prod.ext hrest.result rfl)) hrest.memory
      (hm.remembers.trans hrest.remembers) hrest.holds

theorem follows_pure (hs : Memory ctx given e s) {a : α} (h : R a s) :
    Follows ctx given e (pure a) s (.ok a) R :=
  follows_of_run hs rfl fun _ hb => Except.ok.inj hb ▸ h

theorem follows_throw (hs : Memory ctx given e s) (fault : EvalFault) :
    Follows ctx given e (throw fault) s (.error fault) R :=
  follows_of_run hs rfl nofun

theorem follows_ite {c : Prop} [Decidable c] {m' : EvalM α} {x' : Except EvalFault α}
    (ht : c → Follows ctx given e m s x R) (hf : ¬ c → Follows ctx given e m' s x' R) :
    Follows ctx given e (if c then m else m') s (if c then x else x') R := by
  split
  · exact ht ‹_›
  · exact hf ‹_›

end Rules

/-! ## Giving a node its value -/

/-- A step that gives a node the value it means. -/
def Delivers (ctx : EvalContext) (given : GivenValues) (e : Entry) (dst : NodeId) (m : EvalM Unit)
    (s : List EvalScope) (x : Except EvalFault Value) : Prop :=
  meaning ctx given dst = x → Follows ctx given e m s (x.map fun _ => ())
    fun _ s' => ∀ v, x = .ok v → lookup s' dst = some v

section Delivers

variable {dst : NodeId}

theorem Delivers.bind {m : EvalM α} {x : Except EvalFault α} {R : α → List EvalScope → Prop}
    {f : α → EvalM Unit} {y : α → Except EvalFault Value} (hm : Follows ctx given e m s x R)
    (hf : ∀ a s', x = .ok a → Memory ctx given e s' → Remembers s s' → R a s' →
      Delivers ctx given e dst (f a) s' (y a)) :
    Delivers ctx given e dst (m >>= f) s (x >>= y) := by
  intro hmeaning
  cases x with
  | error fault => exact hm.bind (y := fun _ => .error fault) fun a s' ha => by cases ha
  | ok a =>
    refine hm.bind (y := fun _ => (y a).map fun _ => ()) fun a' s' ha hs' hkept hR => ?_
    obtain rfl := Except.ok.inj ha
    exact hf a s' rfl hs' hkept hR hmeaning

theorem Delivers.bind_map {γ : Type} {m : EvalM α} {z : Except EvalFault γ} {g : γ → α}
    {R : α → List EvalScope → Prop} {f : α → EvalM Unit} {y : γ → Except EvalFault Value}
    (hm : Follows ctx given e m s (z.map g) R)
    (hf : ∀ c s', z = .ok c → Memory ctx given e s' → Remembers s s' → R (g c) s' →
      Delivers ctx given e dst (f (g c)) s' (y c)) :
    Delivers ctx given e dst (m >>= f) s (z >>= y) := by
  cases z with
  | error fault => exact Delivers.bind (y := fun _ => .error fault) hm fun a s' ha => by cases ha
  | ok c =>
    refine Delivers.bind (y := fun _ => y c) hm fun a s' ha hs' hkept hR => ?_
    obtain rfl := Except.ok.inj ha
    exact hf c s' rfl hs' hkept hR

/-- Giving a node its meaning as its value. -/
theorem delivers_bind (hs : Memory ctx given e s) (hdst : ctx.graph.Available e dst) (v : Value) :
    Delivers ctx given e dst (Evaluator.bind dst v) s (.ok v) := by
  intro hmeaning
  obtain ⟨scope, outer, rfl⟩ := List.exists_cons_of_ne_nil hs.isOpen
  have hrun : run (Evaluator.bind dst v) (scope :: outer) =
      (.ok (), scope.bind dst v :: outer) := rfl
  have hlookup : ∀ id, lookup (scope.bind dst v :: outer) id =
      if id = dst then some v else lookup (scope :: outer) id := by
    intro id
    rw [lookup_cons, lookup_cons, Scope.get?_bind]
    split <;> rfl
  -- A value that the node had before was its meaning already.
  have hkept : Remembers (scope :: outer) (scope.bind dst v :: outer) := by
    refine ⟨rfl, fun {id w} h => ?_⟩
    rw [hlookup]
    split
    · next same =>
      subst same
      rw [(hs.remembered h).2] at hmeaning
      rw [Except.ok.inj hmeaning]
    · exact h
  refine follows_of_run_eq hrun ⟨by simp, fun h => hkept.kept (hs.holds h), fun {id w} h => ?_⟩ hkept
    fun _ _ w hw => ?_
  · rw [hlookup] at h
    split at h
    · next same =>
      subst same
      obtain rfl := Option.some.inj h
      exact ⟨hdst, hmeaning⟩
    · exact hs.remembered h
  · rw [hlookup, if_pos rfl, Except.ok.inj hw]

end Delivers

end Evaluator

end TensorKernel
