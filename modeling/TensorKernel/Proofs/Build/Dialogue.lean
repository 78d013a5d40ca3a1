import TensorKernel.Proofs.Build.Logic

/-!
# Building as a dialogue

Building a function touches the registry at one point only: where it asks for the graph of a function
that it calls.  A `Dialogue` is what such a step does at each of these points, as a tree: it ends with
a result, or it asks for a graph and goes on with the answer.  Whoever provides the graphs, and
whatever is cached, the tree is the same.

What is proved here about trees holds of every step that has one: two providers with equal answers
lead to equal results, a success has had an answer to everything that was demanded, and a failure
comes from the tree or from the provider.
-/

namespace TensorKernel

/-- What provides the graph of a function that is called. -/
abbrev Provider := String → List KernelType → Span → CacheM FunctionGraph

/-- What a building step asks for, and what it does with the answers. -/
inductive Dialogue (α : Type) where
  | done (result : Except BuildError α)
  | ask (id : String) (types : List KernelType) (span : Span) (next : FunctionGraph → Dialogue α)

namespace Dialogue

variable {α β : Type}

/-- The result of a dialogue with a provider, and the cache afterwards. -/
def run (call : Provider) : Dialogue α → GraphCache → Except BuildError α × GraphCache
  | done result, cache => (result, cache)
  | ask id types span next, cache =>
    match BuildM.runCall (call id types span) cache with
    | (.ok g, after) => (next g).run call after
    | (.error err, after) => (.error err, after)

/-- Goes on with another dialogue after a success. -/
def bind (f : α → Dialogue β) : Dialogue α → Dialogue β
  | done (.ok a) => f a
  | done (.error err) => done (.error err)
  | ask id types span next => ask id types span fun g => (next g).bind f

section Ask

variable {call : Provider} {id : String} {types : List KernelType} {span : Span}
  {next : FunctionGraph → Dialogue α} {cache : GraphCache}

theorem run_ask_of_ok {g : FunctionGraph}
    (h : (BuildM.runCall (call id types span) cache).1 = .ok g) :
    (ask id types span next).run call cache =
      (next g).run call (BuildM.runCall (call id types span) cache).2 := by
  rw [run]
  split
  · next g' after heq =>
    rw [heq] at h ⊢
    rw [Except.ok.inj h]
  · next heq =>
    rw [heq] at h
    cases h

theorem run_ask_of_error {err : BuildError}
    (h : (BuildM.runCall (call id types span) cache).1 = .error err) :
    (ask id types span next).run call cache =
      (.error err, (BuildM.runCall (call id types span) cache).2) := by
  rw [run]
  split
  · next heq =>
    rw [heq] at h
    cases h
  · next heq =>
    rw [heq] at h ⊢
    rw [Except.error.inj h]

end Ask

theorem run_bind (call : Provider) (f : α → Dialogue β) (d : Dialogue α) (cache : GraphCache) :
    (d.bind f).run call cache =
      match d.run call cache with
      | (.ok a, after) => (f a).run call after
      | (.error err, after) => (.error err, after) := by
  induction d generalizing cache with
  | done result => cases result <;> rfl
  | ask id types span next ih =>
    cases hr : (BuildM.runCall (call id types span) cache).1 with
    | error err => rw [run_ask_of_error hr, bind, run_ask_of_error hr]
    | ok g => rw [run_ask_of_ok hr, bind, run_ask_of_ok hr, ih]

/-! ## What a dialogue is about -/

/-- Only the given functions are asked for. -/
def AsksOnly (names : List String) : Dialogue α → Prop
  | done _ => True
  | ask id _ _ next => id ∈ names ∧ ∀ g, (next g).AsksOnly names

/-- There is no success without asking for a function. -/
def Demands (id : String) : Dialogue α → Prop
  | done (.ok _) => False
  | done (.error _) => True
  | ask other _ _ next => other = id ∨ ∀ g, (next g).Demands id

/-- The dialogue itself fails with certain errors only. -/
def FailsWith (E : BuildError → Prop) : Dialogue α → Prop
  | done (.ok _) => True
  | done (.error err) => E err
  | ask _ _ _ next => ∀ g, (next g).FailsWith E

/-- With answers of a kind, what is asked for has types of a kind, and a success is of a kind. -/
def Yields (T : KernelType → Prop) (P : FunctionGraph → Prop) (Q : α → Prop) : Dialogue α → Prop
  | done (.ok a) => Q a
  | done (.error _) => True
  | ask _ types _ next => (∀ ty ∈ types, T ty) ∧ ∀ g, P g → (next g).Yields T P Q

/-- A failure that is not about recursion. -/
def NotRecursive (err : BuildError) : Prop :=
  ∀ id, err.fault ≠ .recursiveCall id

/--
The dialogue asks for the given functions and for no others, and for each of them before it succeeds.
It never complains about recursion.
-/
structure Consults (names : List String) (d : Dialogue α) : Prop where
  asks : d.AsksOnly names
  demands : ∀ id ∈ names, d.Demands id
  fails : d.FailsWith NotRecursive

theorem AsksOnly.mono {names names' : List String} (h : ∀ id ∈ names, id ∈ names')
    {d : Dialogue α} (hd : d.AsksOnly names) : d.AsksOnly names' := by
  induction d with
  | done _ => trivial
  | ask id types span next ih => exact ⟨h id hd.1, fun g => ih g (hd.2 g)⟩

theorem Yields.mono {T : KernelType → Prop} {P : FunctionGraph → Prop} {Q R : α → Prop}
    {d : Dialogue α} (hd : d.Yields T P Q) (h : ∀ a, Q a → R a) : d.Yields T P R := by
  induction d with
  | done result =>
    cases result with
    | ok a => exact h a hd
    | error err => trivial
  | ask id types span next ih => exact ⟨hd.1, fun g hg => ih g (hd.2 g hg)⟩

theorem Consults.congr {names names' : List String} (h : ∀ id, id ∈ names ↔ id ∈ names')
    {d : Dialogue α} (hd : d.Consults names) : d.Consults names' where
  asks := hd.asks.mono fun id => (h id).mp
  demands id hid := hd.demands id ((h id).mpr hid)
  fails := hd.fails

section Bind

variable {f : α → Dialogue β} {d : Dialogue α}

theorem AsksOnly.bind {names : List String} (hd : d.AsksOnly names)
    (hf : ∀ a, (f a).AsksOnly names) : (d.bind f).AsksOnly names := by
  induction d with
  | done result =>
    cases result with
    | ok a => exact hf a
    | error err => trivial
  | ask id types span next ih => exact ⟨hd.1, fun g => ih g (hd.2 g)⟩

theorem Demands.bind_left {id : String} (hd : d.Demands id) : (d.bind f).Demands id := by
  induction d with
  | done result =>
    cases result with
    | ok a => exact hd.elim
    | error err => trivial
  | ask other types span next ih => exact hd.imp_right fun h g => ih g (h g)

theorem Demands.bind_right {id : String} (hf : ∀ a, (f a).Demands id) : (d.bind f).Demands id := by
  induction d with
  | done result =>
    cases result with
    | ok a => exact hf a
    | error err => trivial
  | ask other types span next ih => exact Or.inr ih

theorem FailsWith.bind {E : BuildError → Prop} (hd : d.FailsWith E)
    (hf : ∀ a, (f a).FailsWith E) : (d.bind f).FailsWith E := by
  induction d with
  | done result =>
    cases result with
    | ok a => exact hf a
    | error err => exact hd
  | ask id types span next ih => exact fun g => ih g (hd g)

theorem Yields.bind {T : KernelType → Prop} {P : FunctionGraph → Prop} {Q : α → Prop}
    {R : β → Prop} (hd : d.Yields T P Q) (hf : ∀ a, Q a → (f a).Yields T P R) :
    (d.bind f).Yields T P R := by
  induction d with
  | done result =>
    cases result with
    | ok a => exact hf a hd
    | error err => trivial
  | ask id types span next ih => exact ⟨hd.1, fun g hg => ih g (hd.2 g hg)⟩

theorem Consults.bind {names names' : List String} (hd : d.Consults names)
    (hf : ∀ a, (f a).Consults names') : (d.bind f).Consults (names ++ names') where
  asks := (hd.asks.mono fun _ => List.mem_append_left _).bind fun a =>
    (hf a).asks.mono fun _ => List.mem_append_right _
  demands id hid := by
    rcases List.mem_append.mp hid with hid | hid
    · exact (hd.demands id hid).bind_left
    · exact Demands.bind_right fun a => (hf a).demands id hid
  fails := hd.fails.bind fun a => (hf a).fails

end Bind

/-- A failure is a dialogue about anything. -/
theorem consults_error {err : BuildError} (h : NotRecursive err) (names : List String) :
    (done (.error err) : Dialogue α).Consults names :=
  ⟨trivial, fun _ _ => trivial, h⟩

/-- A success is a dialogue about nothing. -/
theorem consults_ok (a : α) : (done (.ok a)).Consults [] :=
  ⟨trivial, nofun, trivial⟩

/-! ## Running a dialogue -/

section Run

variable {call call' : Provider} {I I' : GraphCache → Prop} {names : List String} {d : Dialogue α}

/-- A provider keeps a property of the cache when it is asked for one of the given functions. -/
def Maintains (call : Provider) (I : GraphCache → Prop) (names : List String) : Prop :=
  ∀ id ∈ names, ∀ types span cache, I cache →
    I (BuildM.runCall (call id types span) cache).2

/-- Two providers answer alike when they are asked for one of the given functions. -/
def Agree (call : Provider) (I : GraphCache → Prop) (call' : Provider) (I' : GraphCache → Prop)
    (names : List String) : Prop :=
  ∀ id ∈ names, ∀ types span cache cache', I cache → I' cache' →
    (BuildM.runCall (call id types span) cache).1 = (BuildM.runCall (call' id types span) cache').1

/--
A provider that is asked for one of the given functions, with types of a kind, keeps a property of the
cache and answers with graphs of a kind.
-/
def Serves (call : Provider) (I : GraphCache → Prop) (T : KernelType → Prop)
    (P : FunctionGraph → Prop) (names : List String) : Prop :=
  ∀ id ∈ names, ∀ types span cache, (∀ ty ∈ types, T ty) → I cache →
    I (BuildM.runCall (call id types span) cache).2 ∧
      ∀ g, (BuildM.runCall (call id types span) cache).1 = .ok g → P g

/-- Asking keeps what the provider keeps. -/
theorem run_maintains (hcall : Maintains call I names) (hd : d.AsksOnly names) {cache : GraphCache}
    (hcache : I cache) : I (d.run call cache).2 := by
  induction d generalizing cache with
  | done result => exact hcache
  | ask id types span next ih =>
    have hafter := hcall id hd.1 types span cache hcache
    cases hr : (BuildM.runCall (call id types span) cache).1 with
    | error err => exact run_ask_of_error hr ▸ hafter
    | ok g => exact run_ask_of_ok hr ▸ ih g (hd.2 g) hafter

/-- Equal answers lead to equal results. -/
theorem run_agree (hcall : Maintains call I names) (hcall' : Maintains call' I' names)
    (hagree : Agree call I call' I' names) (hd : d.AsksOnly names) {cache cache' : GraphCache}
    (hcache : I cache) (hcache' : I' cache') :
    (d.run call cache).1 = (d.run call' cache').1 := by
  induction d generalizing cache cache' with
  | done result => rfl
  | ask id types span next ih =>
    have hsame := hagree id hd.1 types span cache cache' hcache hcache'
    cases hr : (BuildM.runCall (call id types span) cache).1 with
    | error err => rw [run_ask_of_error hr, run_ask_of_error (hsame ▸ hr)]
    | ok g =>
      rw [run_ask_of_ok hr, run_ask_of_ok (hsame ▸ hr)]
      exact ih g (hd.2 g) (hcall id hd.1 types span cache hcache)
        (hcall' id hd.1 types span cache' hcache')

/-- A success has had an answer to everything that was demanded. -/
theorem exists_answer (hcall : Maintains call I names) (hd : d.AsksOnly names) {id : String}
    (hid : d.Demands id) {cache : GraphCache} (hcache : I cache) {a : α}
    (h : (d.run call cache).1 = .ok a) :
    ∃ types span before, I before ∧ ∃ g, (BuildM.runCall (call id types span) before).1 = .ok g := by
  induction d generalizing cache with
  | done result =>
    obtain rfl : result = .ok a := h
    exact hid.elim
  | ask other types span next ih =>
    cases hr : (BuildM.runCall (call other types span) cache).1 with
    | error err =>
      rw [run_ask_of_error hr] at h
      cases h
    | ok g =>
      rw [run_ask_of_ok hr] at h
      rcases hid with rfl | hid
      · exact ⟨types, span, cache, hcache, g, hr⟩
      · exact ih g (hd.2 g) (hid g) (hcall other hd.1 types span cache hcache) h

/-- A failure is one of the dialogue or one of the provider. -/
theorem error_cases {E : BuildError → Prop} (hcall : Maintains call I names)
    (hd : d.AsksOnly names) (hfails : d.FailsWith E) {cache : GraphCache} (hcache : I cache)
    {err : BuildError} (h : (d.run call cache).1 = .error err) :
    E err ∨ ∃ id ∈ names, ∃ types span before, I before ∧
      (BuildM.runCall (call id types span) before).1 = .error err := by
  induction d generalizing cache with
  | done result =>
    obtain rfl : result = .error err := h
    exact Or.inl hfails
  | ask id types span next ih =>
    cases hr : (BuildM.runCall (call id types span) cache).1 with
    | error err' =>
      rw [run_ask_of_error hr] at h
      obtain rfl := Except.error.inj h
      exact Or.inr ⟨id, hd.1, types, span, cache, hcache, hr⟩
    | ok g =>
      rw [run_ask_of_ok hr] at h
      exact ih g (hd.2 g) (hfails g) (hcall id hd.1 types span cache hcache) h

/-- With a provider that serves it, a success is of the kind that the dialogue yields. -/
theorem run_yields {T : KernelType → Prop} {P : FunctionGraph → Prop} {Q : α → Prop}
    (hcall : Serves call I T P names) (hd : d.AsksOnly names) (hyields : d.Yields T P Q)
    {cache : GraphCache} (hcache : I cache) :
    I (d.run call cache).2 ∧ ∀ a, (d.run call cache).1 = .ok a → Q a := by
  induction d generalizing cache with
  | done result =>
    refine ⟨hcache, fun a h => ?_⟩
    obtain rfl : result = .ok a := h
    exact hyields
  | ask id types span next ih =>
    obtain ⟨htypes, hnext⟩ := hyields
    obtain ⟨hafter, hanswer⟩ := hcall id hd.1 types span cache htypes hcache
    cases hr : (BuildM.runCall (call id types span) cache).1 with
    | error err =>
      rw [run_ask_of_error hr]
      exact ⟨hafter, fun a h => by cases h⟩
    | ok g =>
      rw [run_ask_of_ok hr]
      exact ih g (hd.2 g) (hnext g (hanswer g hr)) hafter

end Run

end Dialogue

end TensorKernel
