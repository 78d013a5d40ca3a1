import Mathlib.Logic.Relation
import TensorKernel.Proofs.Build.Variables

/-!
# Names of a function under construction

While the body of a function is visited, no name stands for two things: parameters and shape symbols
stay what they were, variables are neither, and a variable keeps its type while every assignment
gives it a new node.

The builders that are passed on the way are those that some steps lead to from the one where the
parameters have been added.  The steps are taken in any order, so there are more of these builders
than any body has.
-/

namespace TensorKernel

open Relation (ReflTransGen)

/-- A step of visiting a body, which may be that of any function. -/
inductive FunctionBuilder.Step (ctx : BuildContext) : FunctionBuilder → FunctionBuilder → Prop
  | plan {b b' : FunctionBuilder} {result : ReturnHint} {cache after : GraphCache}
    (hrun : BuildM.run (BuildM.planReturn result) b cache = (.ok ((), b'), after)) : Step ctx b b'
  | returning (b : FunctionBuilder) : Step ctx b { b with returned := true }
  | expr {b b' : FunctionBuilder} {e : Expr} {node : NodeId} {cache after : GraphCache}
    (hrun : BuildM.run (BuildM.expr ctx e) b cache = (.ok (node, b'), after)) : Step ctx b b'
  | stmt {b b' : FunctionBuilder} {s : Stmt} {cache after : GraphCache}
    (hrun : BuildM.run (BuildM.stmt ctx s) b cache = (.ok ((), b'), after)) : Step ctx b b'

namespace FunctionBuilder

variable {ctx : BuildContext} {b b' : FunctionBuilder}

/-! ## Runs -/

theorem Separate.step (h : b.Separate) (hstep : Step ctx b b') : b'.Separate ∧ b.Precedes b' := by
  have hframes (hframe : b.Frames b') : b'.Separate ∧ b.Precedes b' :=
    ⟨h.of_frames hframe, h.precedes hframe⟩
  cases hstep with
  | plan hrun => exact hframes ((BuildM.yields_planResult _).of_run hrun)
  | returning => exact hframes ⟨rfl, rfl, rfl, rfl, rfl, .refl _⟩
  | expr hrun => exact hframes ((BuildM.appends_expr ctx _).of_run hrun).frames
  | stmt hrun =>
    have hvisits := (BuildM.yields_stmt h _).of_run hrun
    exact ⟨hvisits.separate, hvisits.precedes⟩

theorem Separate.steps (h : b.Separate) (hsteps : ReflTransGen (Step ctx) b b') :
    b'.Separate ∧ b.Precedes b' := by
  induction hsteps with
  | refl => exact ⟨h, .refl b⟩
  | tail _ hstep ih =>
    obtain ⟨hseparate, hprecedes⟩ := ih.1.step hstep
    exact ⟨hseparate, ih.2.trans hprecedes⟩

/-! ## Lookups -/

theorem disjoint_keys {α β : Type} {t : Table String α} {t' : Table String β}
    (h : ∀ id, t.contains id = true → t'.contains id = false) : t.keys.Disjoint t'.keys := by
  intro id hid hid'
  have hnone := h id ((t.contains_iff_mem_keys id).mpr hid)
  rw [(t'.contains_iff_mem_keys id).mpr hid'] at hnone
  cases hnone

/-- What the function declares is no variable. -/
theorem Separate.free (h : b.Separate) {id : String}
    (hid : b.params.contains id = true ∨ b.symbols.contains id = true) :
    b.scalars.get? id = none ∧ b.tensors.get? id = none := by
  refine Option.or_eq_none_iff.mp ?_
  by_contra hlocal
  obtain ⟨hparam, hsymbol⟩ := h.unbound id (Option.isSome_iff_ne_none.mpr hlocal)
  rw [hparam, hsymbol] at hid
  simp at hid

/-- The keys of the four tables have nothing in common. -/
theorem Separate.disjoint (h : b.Separate) :
    [b.params.keys, b.symbols.keys, b.scalars.keys, b.tensors.keys].Pairwise List.Disjoint := by
  have hfree (id : String) (hid : b.params.contains id = true ∨ b.symbols.contains id = true) :
      b.scalars.contains id = false ∧ b.tensors.contains id = false := by
    obtain ⟨hscalar, htensor⟩ := h.free hid
    simp [Table.contains, hscalar, htensor]
  simp only [List.pairwise_cons, List.mem_cons, List.not_mem_nil, or_false, forall_eq_or_imp,
    forall_eq, List.Pairwise.nil, and_true, false_imp_iff, implies_true]
  exact ⟨⟨disjoint_keys h.declared, disjoint_keys fun id hid => (hfree id (.inl hid)).1,
    disjoint_keys fun id hid => (hfree id (.inl hid)).2⟩,
    ⟨disjoint_keys fun id hid => (hfree id (.inr hid)).1,
      disjoint_keys fun id hid => (hfree id (.inr hid)).2⟩, disjoint_keys h.apart⟩

/-- What each of the four tables has for a name. -/
def lookups (b : FunctionBuilder) (id : String) : List (Option NodeId) :=
  [b.scalars.get? id, b.tensors.get? id, (b.symbols.get? id).map ShapeSymbol.node, b.params.get? id]

theorem findSome?_lookups (b : FunctionBuilder) (id : String) :
    (b.lookups id).findSome? (fun node => node) = b.resolve? id := by
  simp only [lookups, resolve?, local?, List.findSome?_cons, List.findSome?_nil]
  cases b.scalars.get? id <;> cases b.tensors.get? id <;> cases b.symbols.get? id <;>
    cases b.params.get? id <;> rfl

/-- Whichever table has a name, what it has is what the name stands for. -/
theorem Separate.resolve?_eq (h : b.Separate) {id : String} {node : NodeId}
    (hnode : some node ∈ b.lookups id) : b.resolve? id = some node := by
  simp only [lookups, List.mem_cons, List.not_mem_nil, or_false] at hnode
  -- A later table is only reached if the earlier ones have nothing, which is what separates them.
  rcases hnode with hscalar | htensor | hsymbol | hparam
  · simp [resolve?, local?, ← hscalar]
  · simp [resolve?, h.local_of_tensor htensor.symm]
  · obtain ⟨symbol, hget, rfl⟩ := Option.map_eq_some_iff.mp hsymbol.symm
    have hcontains : b.symbols.contains id = true := by simp [Table.contains, hget]
    obtain ⟨hscalar, htensor⟩ := h.free (.inr hcontains)
    simp [resolve?, local?, hscalar, htensor, hget]
  · have hcontains : b.params.contains id = true := by simp [Table.contains, ← hparam]
    obtain ⟨hscalar, htensor⟩ := h.free (.inl hcontains)
    have hsymbol : b.symbols.get? id = none := by
      simpa [Table.contains] using h.declared id hcontains
    simp [resolve?, local?, hscalar, htensor, hsymbol, ← hparam]

/-- The tables may be asked in any order. -/
theorem Separate.findSome?_eq (h : b.Separate) {id : String} {lookups : List (Option NodeId)}
    (hperm : lookups.Perm (b.lookups id)) :
    lookups.findSome? (fun node => node) = b.resolve? id := by
  cases hfound : lookups.findSome? (fun node => node) with
  | some node =>
    obtain ⟨entry, hentry, rfl⟩ := List.exists_of_findSome?_eq_some hfound
    exact (h.resolve?_eq (hperm.mem_iff.mp hentry)).symm
  | none =>
    rw [List.findSome?_eq_none_iff] at hfound
    rw [← b.findSome?_lookups id, eq_comm, List.findSome?_eq_none_iff]
    exact fun entry hentry => hfound entry (hperm.mem_iff.mpr hentry)

end FunctionBuilder

/-! ## Bodies -/

namespace BuildM

open FunctionBuilder (Step)

variable {ctx : BuildContext}

/-- Every statement of a body that is built was built, after some steps. -/
theorem exists_run_of_mem_body (stmts : List Stmt) :
    ∀ {b b' : FunctionBuilder} {cache after : GraphCache},
      run (body ctx stmts) b cache = (.ok ((), b'), after) → ∀ s ∈ stmts, ∃ b₁ b₂ before behind,
        ReflTransGen (Step ctx) b b₁ ∧ run (stmt ctx s) b₁ before = (.ok ((), b₂), behind) := by
  induction stmts with
  | nil => exact fun _ => nofun
  | cons s rest ih =>
    intro b b' cache after hrun
    have hrun' : run (if b.returned then fail s.span .unreachableStatement else do
        stmt ctx s
        body ctx rest) b cache = (.ok ((), b'), after) := hrun
    split at hrun'
    · cases hrun'
    · obtain ⟨⟨⟩, b₁, between, hstmt, hrest⟩ := exists_of_run_bind hrun'
      refine List.forall_mem_cons.mpr ⟨⟨b, b₁, cache, between, .refl, hstmt⟩, fun s' hs' => ?_⟩
      obtain ⟨b₂, b₃, before, behind, hsteps, hstmt'⟩ := ih hrest s' hs'
      exact ⟨b₂, b₃, before, behind, .head (.stmt hstmt) hsteps, hstmt'⟩

/-- In a function that is built, no statement assigns to what the function declares. -/
theorem not_declared_of_build {f : FunctionDef} {types : List KernelType} {cache after : GraphCache}
    {g : FunctionGraph} (hbuild : runCall (f.build ctx types) cache = (.ok g, after)) {s : Stmt}
    (hs : s ∈ f.body) {id : String} (hid : s.assigned? = some id) :
    ∃ b between, run (parameters ctx f types) (.start f.id) cache = (.ok ((), b), between) ∧
      b.params.contains id = false ∧ b.symbols.contains id = false := by
  obtain ⟨b', hrun⟩ := exists_run_of_build hbuild
  rw [function_eq] at hrun
  obtain ⟨⟨⟩, b, between, hparams, hrun⟩ := exists_of_run_bind hrun
  obtain ⟨⟨⟩, b₁, _, hplan, hrun⟩ := exists_of_run_bind hrun
  obtain ⟨⟨⟩, b₂, _, hbody, -⟩ := exists_of_run_bind hrun
  obtain ⟨b₃, b₄, _, _, hsteps, hstmt⟩ := exists_run_of_mem_body f.body hbody s hs
  have hseparate := ((yields_parameters f types).of_run hparams).1
  obtain ⟨hseparate₃, hprecedes⟩ := hseparate.steps (.head (.plan hplan) hsteps)
  have hrebinds := ((yields_stmt hseparate₃ s).of_run hstmt).rebinds id hid
  exact ⟨b, between, hparams, hprecedes.params ▸ hrebinds.param, hprecedes.symbols ▸ hrebinds.symbol⟩

end BuildM

namespace FunctionBuilder

/-- What holds of the names of a builder that comes after the one where a body starts. -/
structure Tables (ctx : BuildContext) (b₀ b : FunctionBuilder) : Prop where
  disjoint : [b.params.keys, b.symbols.keys, b.scalars.keys, b.tensors.keys].Pairwise List.Disjoint
  params : b.params = b₀.params
  symbols : b.symbols = b₀.symbols
  scalars : ∀ id node, b.scalars.get? id = some node →
    node.index < b.graph.nodes.size ∧ b.graph.isScalar node = true
  tensors : ∀ id node, b.tensors.get? id = some node →
    node.index < b.graph.nodes.size ∧ b.graph.isScalar node = false
  types : ∀ b', ReflTransGen (Step ctx) b b' → ∀ id node, b.local? id = some node →
    ∃ node', b'.local? id = some node' ∧ b'.graph.type node' = b.graph.type node
  assigned : ∀ (s : Stmt) id, s.assigned? = some id → ∀ cache after b',
    BuildM.run (BuildM.stmt ctx s) b cache = (.ok ((), b'), after) →
      ∃ node, b'.resolve? id = some node ∧ b.graph.nodes.size ≤ node.index ∧
        node.index < b'.graph.nodes.size
  order : ∀ id (lookups : List (Option NodeId)), lookups.Perm (b.lookups id) →
    lookups.findSome? (fun node => node) = b.resolve? id

theorem Separate.tables (h : b.Separate) {b₀ : FunctionBuilder} (hprecedes : b₀.Precedes b) :
    b₀.Tables ctx b where
  disjoint := h.disjoint
  params := hprecedes.params
  symbols := hprecedes.symbols
  scalars _ _ := h.scalar
  tensors _ _ := h.tensor
  types b' hsteps _ _ := (h.steps hsteps).2.locals
  assigned s id hid cache after b' hrun := by
    obtain ⟨node, hnode, hbounds⟩ := (((BuildM.yields_stmt h s).of_run hrun).rebinds id hid).bound
    exact ⟨node, by rw [resolve?, hnode]; rfl, hbounds⟩
  order id lookups hperm := h.findSome?_eq hperm

end FunctionBuilder

/--
From the parameters on, the names of a function are kept apart and every assignment binds a new
node; a body that assigns to a parameter or to a shape symbol is not built.
-/
theorem FunctionDef.tables_parameters (f : FunctionDef) (ctx : BuildContext) (types : List KernelType)
    (cache : GraphCache) :
    (∀ b₀ after,
      BuildM.run (BuildM.parameters ctx f types) (.start f.id) cache = (.ok ((), b₀), after) →
        ∀ b, ReflTransGen (FunctionBuilder.Step ctx) b₀ b → b₀.Tables ctx b) ∧
    ∀ s ∈ f.body, ∀ id, s.assigned? = some id →
      (id ∈ f.params.map Param.id ∨ ∃ b₀ after,
        BuildM.run (BuildM.parameters ctx f types) (.start f.id) cache = (.ok ((), b₀), after) ∧
          b₀.symbols.contains id = true) →
      ∃ err, (BuildM.runCall (f.build ctx types) cache).1 = .error err := by
  refine ⟨fun b₀ after hstart b hsteps => ?_, fun s hs id hid hdeclared => ?_⟩
  · obtain ⟨hseparate, hprecedes⟩ :=
      ((BuildM.yields_parameters f types).of_run hstart).1.steps hsteps
    exact hseparate.tables hprecedes
  · cases hbuild : BuildM.runCall (f.build ctx types) cache with
    | mk result after =>
      cases result with
      | error err => exact ⟨err, rfl⟩
      | ok g =>
        obtain ⟨b, between, hrun, hparam, hsymbol⟩ := BuildM.not_declared_of_build hbuild hs hid
        -- Adding the parameters has one outcome, so what was declared then is declared now.
        rcases hdeclared with hname | ⟨b₀, after₀, hrun₀, hsymbol₀⟩
        · obtain ⟨-, hnamed, _, -, hb⟩ := (BuildM.yields_parameters f types).of_run hrun
          rw [← hb.names] at hname
          obtain ⟨p, hp, rfl⟩ := List.mem_map.mp hname
          rw [hnamed.taken p hp] at hparam
          cases hparam
        · rw [hrun] at hrun₀
          cases hrun₀
          rw [hsymbol] at hsymbol₀
          cases hsymbol₀

/-- A function that assigns to the size of its parameter. -/
def resizing : FunctionDef where
  id := "f"
  params := [⟨"x", some (.subscript (.name "int64" .nowhere) (.name "N" .nowhere) .nowhere), .nowhere⟩]
  result := .missing
  body := [.assign (.name "N" .nowhere) (.int 1 .nowhere) .nowhere,
    .returns (some (.name "x" .nowhere)) .nowhere]
  span := .nowhere

theorem resizing_tables : ∃ b₀,
    BuildM.run (BuildM.parameters ((Registry.ofDefs []).context .standard .default "f") resizing [])
      (.start "f") .empty = (.ok ((), b₀), .empty) ∧
    b₀.Tables ((Registry.ofDefs []).context .standard .default "f") b₀ ∧
    ∃ err, (BuildM.runCall (resizing.build ((Registry.ofDefs []).context .standard .default "f") [])
      .empty).1 = .error err := by
  have h := resizing.tables_parameters ((Registry.ofDefs []).context .standard .default "f") [] .empty
  refine ⟨_, rfl, h.1 _ _ rfl _ .refl, ?_⟩
  exact h.2 _ (List.mem_cons_self ..) "N" rfl (.inr ⟨_, _, rfl, by decide⟩)

end TensorKernel
