import TensorKernel.Proofs.History.Operator
import TensorKernel.Proofs.SingleAssignment

/-!
# Lowered functions write to blank buffers

A copy of a tensor may share the buffer of its source, so several nodes and parameters may be bound
to one buffer.  This is harmless because no buffer is written once it stands for a value:
`lower_writesBlank` follows a whole run of lowering and says of every statement that writes a buffer
that the buffer was created by an earlier statement of the function, and that up to then no node was
bound to it and no statement read it, neither to compute something nor to make a view.
-/

namespace TensorKernel

open Buffer (Operand definitions statements)

namespace LowerM

variable {opens : List Name} {c : Nat} {g : Graph} {need : NodeId → LowerM Name}

/-! ## Nodes -/

theorem keeps_answer (id : NodeId) : Keeps opens c (answer id) (Settled opens) := by
  apply follows_get_bind
  intro s hc hs
  subst hc
  cases hfound : s.lookup id with
  | some n => exact follows_pure (hs.lookup hfound)
  | none => exact follows_throw

theorem keeps_nodeRule (hneed : GivesSettled need) (id : NodeId) :
    Keeps opens c (nodeRule g need id) (Settled opens) := by
  apply follows_get_bind
  intro s hc hs
  subst hc
  cases hfound : s.lookup id with
  | some n => exact follows_pure (hs.lookup hfound)
  | none =>
    cases hconstant : (g.node id).constant? with
    | some v =>
      simp only [hconstant]
      refine (keeps_constant v _).bind fun n c₁ _ hn => ?_
      exact (keeps_bind id hn).bind fun _ _ h₂ _ => follows_pure (hn.later h₂)
    | none =>
      cases hproducer : (g.node id).producer with
      | none =>
        simp only [hconstant, hproducer]
        exact follows_throw
      | some o =>
        simp only [hconstant, hproducer]
        apply follows_get_bind
        intro _ _ _
        apply follows_ite
        · exact fun _ => keeps_answer id
        · intro _
          refine (keeps_visit o).bind fun _ _ _ _ => ?_
          exact (keeps_operator hneed (g.op o)).bind fun _ _ _ _ => keeps_answer id

/-- The induction is on the depth: an operator asks for nodes that may need one step less. -/
theorem givesSettled_node (g : Graph) (depth : Nat) : GivesSettled (node g depth) := by
  induction depth with
  | zero => exact fun _ => follows_throw
  | succ depth ih => exact fun id => keeps_nodeRule ih id

/-! ## Functions -/

/-- The parameters are bound before anything is emitted. -/
def parameterBindings (inputs : List (String × NodeId)) : List LowerAction :=
  inputs.map fun input => .bind input.2 (.plain (sanitize input.1))

theorem keeps_bindParams (inputs : List (String × NodeId)) : ∀ {c},
    Keeps [] c (bindParams g inputs) fun _ _ => True := by
  induction inputs with
  | nil => exact follows_pure trivial
  | cons input inputs ih =>
    intro c
    refine (keeps_bind input.2 (settled_plain _)).bind fun _ _ _ _ => ?_
    exact ih.bind fun _ _ _ _ => follows_pure trivial

theorem actions_bindParams {inputs : List (String × NodeId)} : ∀ {s params s'},
    bindParams g inputs s = .ok (params, s') →
    s'.actions = s.actions ++ parameterBindings inputs := by
  induction inputs with
  | nil =>
    intro s params s' hrun
    cases hrun
    exact (List.append_nil _).symm
  | cons input inputs ih =>
    intro s params s' hrun
    obtain ⟨⟨⟩, s₁, hbind, hrun⟩ := exists_of_bind hrun
    obtain ⟨rest, s₂, hrest, hpure⟩ := exists_of_bind hrun
    cases hbind
    cases hpure
    rw [ih hrest, LowerState.actions_name, List.append_assoc]
    rfl

theorem keeps_bindSymbols (entries : List (String × ShapeSymbol)) : ∀ {c},
    Keeps opens c (bindSymbols g entries) fun _ _ => True := by
  have hneed : GivesSettled (node g (depth g)) := givesSettled_node g (depth g)
  induction entries with
  | nil => exact follows_pure trivial
  | cons entry entries ih =>
    intro c
    refine (keeps_operand hneed entry.2.arg).bind fun src c₁ _ hsrc => ?_
    refine (keeps_indexConstant _).bind fun axis c₂ h₂ haxis => ?_
    refine follows_define (fun _ => ⟨rfl, rfl⟩) (fun _ => ?_) fun size c₃ _ hsize => ?_
    · simpa [Buffer.Stmt.reads, Buffer.Stmt.operands] using ⟨hsrc.later h₂, haxis⟩
    refine (keeps_bindSymbol _ hsize).bind fun _ c₄ h₄ _ => ?_
    refine follows_define (fun _ => ⟨rfl, rfl⟩) (fun _ => ?_) fun v c₅ _ hv => ?_
    · simpa [Buffer.Stmt.reads, Buffer.Stmt.operands] using hsize.later h₄
    exact (keeps_bind entry.2.node hv).bind fun _ _ _ _ => ih

theorem traced_start : LowerState.start.Traced (.writing []) where
  blocks := by simp [LowerState.start]
  nodes := by simp [LowerState.start, LowerScope.empty]
  constants := by simp [LowerState.start, LowerScope.empty]
  symbols := by simp [LowerState.start]
  used := by simp [Used, LowerState.actions, LowerState.start]
  opens := by simp [Pending.writing]
  emitted := by simp [LowerState.actions, LowerState.Contains, LowerState.start, Pending.writing]
  careful := Careful.nil

/--
The discipline is kept by a function as a whole.  Its history begins with the parameters, and what
was emitted stands in its body.
-/
theorem careful_function {f : FunctionGraph} {options : Options} {fn : Buffer.Function}
    {s : LowerState} (hrun : function f options .start = .ok (fn, s)) :
    Careful s.actions ∧ parameterBindings f.inputs <+: s.actions ∧
      ∀ t, .emit t ∈ s.actions ↔ t ∈ statements fn.body := by
  have hneed : GivesSettled (node f.graph (depth f.graph)) := givesSettled_node f.graph _
  obtain ⟨params, s₁, hparams, hrun⟩ := exists_of_bind hrun
  obtain ⟨⟨⟩, s₂, hsymbols, hrun⟩ := exists_of_bind hrun
  obtain ⟨values, s₃, hvalues, hrun⟩ := exists_of_bind hrun
  obtain ⟨⟨⟩, s₄, hreturns, hrun⟩ := exists_of_bind hrun
  cases hrun
  obtain ⟨hs₁, hgrown₁, -⟩ := keeps_bindParams f.inputs _ rfl traced_start _ s₁ hparams
  obtain ⟨hs₂, hgrown₂, -⟩ := keeps_bindSymbols f.symbols.entries s₁ rfl hs₁ _ s₂ hsymbols
  obtain ⟨hs₃, hgrown₃, hsettled⟩ := keeps_operands hneed f.outputs s₂ rfl hs₂ _ s₃ hvalues
  have hemit : Keeps [] s₃.counter (emit (.returns values)) fun _ _ => True :=
    keeps_emit rfl (List.forall_mem_map.mpr hsettled) (List.forall_mem_nil _)
  obtain ⟨hs₄, hgrown₄, -⟩ := hemit s₃ rfl hs₃ _ s hreturns
  have hgrown : Grown s₁ s := (hgrown₂.trans hgrown₃).trans hgrown₄
  refine ⟨hs₄.careful, ?_, fun t => ?_⟩
  · have hparameters : s₁.actions = parameterBindings f.inputs := actions_bindParams hparams
    exact hparameters ▸ hgrown.actions
  · -- Only one block is open, and it is the body.
    rw [hs₄.emitted t]
    obtain ⟨block, hs⟩ := List.length_eq_one_iff.mp (hgrown₁.trans hgrown).blocks
    simp [LowerState.Contains, LowerState.block, hs, Pending.writing]

end LowerM

/-! ## The discipline of lowered functions -/

/--
What the writes of a function are like, in view of what was done to emit it, in order.

The statements of the function were emitted, and its parameters were bound before that.  A buffer
that a statement writes was created before and does not stand for a value yet; it is no parameter
and no view; and no node is bound to its memory, neither directly nor through a view.
-/
structure WritesBlank (f : FunctionGraph) (fn : Buffer.Function) (actions : List LowerAction) :
    Prop where
  emitted : ∀ t, .emit t ∈ actions ↔ t ∈ statements fn.body
  parameters : LowerM.parameterBindings f.inputs <+: actions
  careful : Careful actions
  noParameter : ∀ t ∈ statements fn.body, ∀ n ∈ t.writes, ∀ p ∈ fn.params, p.key ≠ n.key
  noView : ∀ t ∈ statements fn.body, ∀ n ∈ t.writes, ∀ u ∈ statements fn.body, ∀ dst src,
    u.view? = some (dst, src) → dst.key ≠ n.key
  apart : ∀ before t after, actions = before ++ .emit t :: after → ∀ n ∈ t.writes, ∀ id m,
    .bind id m ∈ before → ¬ Buffer.Shares (fun u => .emit u ∈ before) n m

/--
A graph that was built lowers to a function that writes to blank buffers only.  Hence no statement
changes an argument, or a buffer that nodes share.
-/
theorem lower_writesBlank {defs : List FunctionDef} {main : String} {options : Options}
    {f : FunctionGraph} (h : buildGraph defs main options = .ok f) (lowering : Options) :
    ∃ fn s, LowerM.function f lowering .start = .ok (fn, s) ∧ f.lower lowering = .ok fn ∧
      WritesBlank f fn s.actions := by
  have hf := buildGraph_wellFormed h
  obtain ⟨fn, hlower⟩ := hf.exists_lower lowering
  obtain ⟨s, hrun⟩ := FunctionGraph.run_of_lower hlower
  obtain ⟨hcareful, hparameters, hemitted⟩ := LowerM.careful_function hrun
  have hform : LowerM.Emitted (fun _ => True) f fn :=
    LowerM.emitted_function hf (fun _ _ => trivial) trivial hrun
  obtain ⟨hi, hnumbered⟩ := hform.numbered
  -- What a statement writes was created by a statement of the function.
  have hcreated : ∀ t ∈ statements fn.body, ∀ n ∈ t.writes,
      ∃ u ∈ statements fn.body, u.created? = some n := by
    intro t ht n hn
    obtain ⟨before, after, hsplit⟩ := List.append_of_mem ((hemitted t).mpr ht)
    obtain ⟨u, hu, hcreated⟩ := (hcareful before t after hsplit n hn).1.created
    refine ⟨u, (hemitted u).mp ?_, hcreated⟩
    rw [hsplit]
    exact List.mem_append_left _ hu
  refine ⟨fn, s, hrun, hlower, hemitted, hparameters, hcareful, ?_, ?_, ?_⟩
  · intro t ht n hn p hp hkey
    obtain ⟨u, hu, hcreated⟩ := hcreated t ht n hn
    obtain ⟨type, hresult⟩ := Buffer.Stmt.exists_result_of_created hcreated
    have hnumber : n.number.isSome = true := by
      apply hnumbered.isSome ⟨n, type⟩
      exact List.mem_flatMap.mpr ⟨u, hu, List.mem_append_left _ hresult⟩
    rw [hform.params] at hp
    obtain ⟨input, -, rfl⟩ := List.mem_map.mp hp
    rw [← Name.number_eq_of_key_eq hkey] at hnumber
    cases hnumber
  · intro t ht n hn u hu dst src hview
    obtain ⟨v, hv, hcreated⟩ := hcreated t ht n hn
    exact Buffer.created_key_ne_view hnumbered.nodup hv hu hcreated hview
  · intro before t after hsplit n hn id m hm
    exact (hcareful before t after hsplit n hn).1.not_shares hm

/--
A kernel in which a parameter and two variables share one buffer until elements of the variables are
assigned; all three are read afterwards.
-/
def sharedBuffer : FunctionDef :=
  let name (id : String) : Expr := .name id .nowhere
  let item (id : String) (i : Int) : Expr := .subscript (name id) (.int i .nowhere) .nowhere
  ⟨"shared", [⟨"a", some (.subscript (name "int32") (.int 2 .nowhere) .nowhere), .nowhere⟩],
    .missing,
    [.assign (name "b") (name "a") .nowhere,
      .assign (name "c") (name "b") .nowhere,
      .assign (item "b" 0) (.int 7 .nowhere) .nowhere,
      .assign (item "c" 1) (item "b" 0) .nowhere,
      .returns (some (.binary (name "a") .add (.binary (name "b") .add (name "c") .nowhere)
        .nowhere)) .nowhere], .nowhere⟩

/-- Two buffers are copied and changed, two are filled with sums, and the parameter is only read. -/
theorem lower_writesBlank_sharedBuffer :
    ∃ f fn s, buildGraph [sharedBuffer] "shared" .default = .ok f ∧
      f.lower .default = .ok fn ∧
      (statements fn.body).flatMap Buffer.Stmt.writes =
        [3, 3, 10, 10, 11, 16].map (.numbered "buf") ∧
      LowerM.function f .default .start = .ok (fn, s) ∧ WritesBlank f fn s.actions := by
  have hbuilds : (buildGraph [sharedBuffer] "shared" .default).toOption.any (fun f =>
      (f.lower .default).toOption.any fun fn => decide (
        (statements fn.body).flatMap Buffer.Stmt.writes =
          [3, 3, 10, 10, 11, 16].map (.numbered "buf"))) = true := by decide +kernel
  obtain ⟨f, hbuild, hlowers⟩ := exists_of_any_toOption hbuilds
  obtain ⟨fn, hlower, hwrites⟩ := exists_of_any_toOption hlowers
  obtain ⟨fn', s, hrun, hlower', hblank⟩ := lower_writesBlank hbuild .default
  cases hlower.symm.trans hlower'
  exact ⟨f, fn, s, hbuild, hlower, of_decide_eq_true hwrites, hrun, hblank⟩

end TensorKernel
