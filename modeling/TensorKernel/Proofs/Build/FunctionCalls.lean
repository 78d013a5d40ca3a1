import TensorKernel.Proofs.Build.Callees
import TensorKernel.Proofs.Build.Function

/-!
# What functions ask for

A function asks for the functions that its body calls, and for each of them before its graph is
finished.  In a finished graph nothing waits any more: the node of a declared result is computed by
what is returned.
-/

namespace TensorKernel

namespace FunctionBuilder

variable {b : FunctionBuilder} {W : NodeId → Prop}

/-- The result is taken from the declared node, which is then computed. -/
theorem Awaits.returnDeclared (h : b.Awaits W) {ty : KernelType} {dst : NodeId}
    (hplan : b.returnPlan = .static ty dst) (kind : OpKind)
    (hkind : ∀ axes body init, kind ≠ .reduction axes body init) (src : NodeId) :
    ({ b with
      graph := (b.graph.addOp kind [src] [dst]).2
      outputs := b.outputs ++ [dst] } : FunctionBuilder).Awaits W := by
  have hdst : b.entry.result dst := ⟨ty, hplan⟩
  have hlt := (h.graph.known (Or.inr hdst)).1
  refine ⟨h.graph.addOp (Or.inr hdst) (fun hop => absurd hop (hkind _ _ _)) (fun _ => id)
    (fun _ hid => hid.imp_right Or.inl),
    fun {ty' dst'} hplan' _ => ?_, h.bounded.addOp kind [src] [dst]⟩
  obtain ⟨-, rfl⟩ := ReturnPlan.static.inj (hplan.symm.trans hplan')
  show ((b.graph.addOp kind [src] [dst]).2.node dst).producer ≠ none
  rw [Graph.addOp_producer, if_pos ⟨List.mem_singleton_self dst, hlt⟩]
  exact Option.some_ne_none _

end FunctionBuilder

namespace BuildM

variable {W : NodeId → Prop} {ctx : BuildContext} {b : FunctionBuilder}

/-! ## Statements -/

/-- An annotation stands for a type whose constants are sizes. -/
theorem consults_type (P : FunctionBuilder → Prop) (hint : Expr) :
    Consults [] (P b) (fun _ => ofLocated (TypeHint.type hint)) b fun ty b' => P b' ∧ ty.Bounded := by
  cases hty : TypeHint.type hint with
  | ok ty => exact consults_pure fun hb => ⟨hb, TypeHint.type_bounded hty⟩
  | error err =>
    refine consults_throw [] (notRecursive_of_kind ?_)
    rw [TypeHint.type_error hty]
    decide

theorem asks_freshName (id : String) : Asks W [] (fun _ => freshName id) b :=
  consults_of_ok (fun _ _ => rfl) fun hb => ⟨hb.graph, hb.returned, hb.bounded⟩

/-- The type of a variable is that of its annotation or of a node. -/
theorem consults_variableType (id : String) (hint : Option KernelType) (previous : Option NodeId)
    (value : NodeId) (span : Span) :
    Consults [] (b.Awaits W ∧ ∀ ty, hint = some ty → ty.Bounded)
      (fun _ => variableType id hint (previous.map b.graph.type) (b.graph.type value) span) b
      fun ty b' => b'.Awaits W ∧ ty.Bounded := by
  unfold variableType
  cases hint with
  | some declared =>
    have hdeclared : Consults [] (b.Awaits W ∧ ∀ ty, some declared = some ty → ty.Bounded)
        (fun _ => (pure declared : BuildM KernelType)) b fun ty b' => b'.Awaits W ∧ ty.Bounded :=
      consults_pure fun hb => ⟨hb.1, hb.2 _ rfl⟩
    cases previous with
    | some node => exact consults_ite (fun _ => hdeclared) fun _ => consults_fail [] nofun
    | none => exact hdeclared
  | none =>
    cases previous with
    | some node => exact consults_pure fun hb => ⟨hb.1, hb.1.bounded node⟩
    | none => exact consults_pure fun hb => ⟨hb.1, hb.1.bounded value⟩

theorem asks_bindLocal (id : String) (ty : KernelType) (node : NodeId) :
    Asks W [] (fun _ => bindLocal id ty node) b := by
  refine consults_of_ok (fun _ _ => rfl) fun hb => ?_
  split
  · exact ⟨hb.graph, hb.returned, hb.bounded⟩
  · exact ⟨hb.graph, hb.returned, hb.bounded⟩

/-- A new node of a type is computed at once. -/
theorem consults_compute {α : Type} (name : Option String) (ty : KernelType) (kind : OpKind)
    (hkind : ∀ axes body init, kind ≠ .reduction axes body init) (inputs : List NodeId)
    {f : NodeId → BuildM α} {names : List String}
    (hf : ∀ dst b', Asks W names (fun _ => f dst) b') :
    Consults names (b.Awaits W ∧ ty.Bounded) (fun _ => do
      let dst ← onGraph fun g => g.addOfType name ty
      let _ ← onGraph fun g => g.addOp kind inputs [dst]
      f dst) b fun _ b' => b'.Awaits W :=
  Consults.step (Q := fun dst b' => b'.Awaits fun id => W id ∨ id = dst)
    (consults_of_ok (fun _ _ => rfl) fun ⟨hb, hty⟩ => hb.addOfType name hty) fun dst _ =>
    Consults.step (Q := fun _ b' => b'.Awaits W) (consults_of_ok (fun _ _ => rfl) fun hb =>
      hb.compute (Or.inr rfl) kind hkind inputs (fun _ => Or.inl) fun _ => id) fun _ b₂ => hf dst b₂

theorem consults_assignName (id : String) (value : NodeId) (hint : Option KernelType) (span : Span) :
    Consults [] (b.Awaits W ∧ ∀ ty, hint = some ty → ty.Bounded)
      (fun _ => assignName id value hint span) b fun _ b' => b'.Awaits W := by
  refine consults_get_bind <| consults_ite (fun _ => consults_fail [] nofun) fun _ =>
    consults_ite (fun _ => consults_fail [] nofun) fun _ => ?_
  refine (consults_variableType id hint (b.local? id) value span).step fun ty b₁ =>
    consults_ite (fun _ => consults_fail [] nofun) fun _ => ?_
  have hrest (name : String) (b₂ : FunctionBuilder) :=
    consults_compute (W := W) (b := b₂) (some name) ty
      (if ((b.local? id).map b.graph.type).isSome && !ty.isScalar then .deepCopy else .copy)
      (Graph.copies_ne_reduction (by split <;> simp)) [value]
      fun dst b₃ => asks_bindLocal (b := b₃) id ty dst
  exact consults_ite (fun _ => ((asks_freshName id).carry ty.Bounded).step hrest) fun _ => hrest id b₁

theorem asks_targetIndices (index : Expr) (target : NodeId) (span : Span) :
    Asks W index.calls (fun call => targetIndices (ctx.calling call) index target span) b := by
  have hall : ∀ e ∈ TypeHint.elements index, Voiced W ctx e := fun e _ => voiced W ctx e
  have hcalls : ∀ id, id ∈ Expr.callsOfList (TypeHint.elements index) ↔ id ∈ index.calls := by
    intro id
    unfold TypeHint.elements
    split
    · rw [Expr.calls]
    · simp [Expr.callsOfList]
  exact Consults.congr (asks_indexedAxes_bind target _ span fun axes hlength =>
    asks_axisIndices hall axes hlength span b) hcalls

theorem asks_elementTarget (id : String) (span : Span) : Asks W [] (fun _ => elementTarget id span) b := by
  refine consults_get_bind <| consults_ite (fun _ => consults_fail [] nofun) fun _ => ?_
  cases b.tensors.get? id with
  | some node => exact asks_pure node
  | none => exact consults_ite (fun _ => consults_fail [] nofun) fun _ => consults_fail [] nofun

theorem asks_assignElement (target index : Expr) (value : NodeId) (span : Span) :
    Asks W (target.calls ++ index.calls)
      (fun call => assignElement (ctx.calling call) target index value span) b := by
  unfold assignElement
  split
  · next id _ =>
    simp only [Expr.calls, List.nil_append]
    refine (asks_elementTarget id span).step fun tensor b₁ => consults_get_bind ?_
    refine (((asks_targetIndices index tensor span).carry (b₁.graph.type tensor).Bounded).mono
      (fun hb => ⟨hb, hb.bounded tensor⟩) fun _ _ h => h).last fun choices b₂ => ?_
    cases elementNodes? choices with
    | none => exact consults_fail [] nofun
    | some nodes =>
      refine consults_ite (fun _ => consults_fail [] nofun) fun _ => consults_get_bind <|
        consults_ite (fun _ => consults_fail [] nofun) fun _ => ?_
      refine ((asks_freshName id).carry (b₁.graph.type tensor).Bounded).step fun name b₃ => ?_
      exact consults_compute (some name) _ .setItem nofun _ fun dst b₄ =>
        consults_of_ok (fun _ _ => rfl) fun hb => ⟨hb.graph, hb.returned, hb.bounded⟩
  · exact consults_fail _ nofun

theorem asks_assign (target value : Expr) (span : Span) :
    Asks W (target.calls ++ value.calls)
      (fun call => assign (ctx.calling call) target value span) b := by
  refine Consults.congr ?_ fun id => List.mem_append.trans (or_comm.trans List.mem_append.symm)
  unfold assign
  split
  · next id _ =>
    refine (asks_expr value).bind fun node b₁ => ?_
    refine ((consults_assignName id node none span).mono (fun hb => ⟨hb, nofun⟩) fun _ _ h => h).congr
      fun _ => ?_
    simp [Expr.calls]
  · exact (asks_expr value).bind fun node b₁ => asks_assignElement _ _ node span
  · exact consults_fail _ nofun

theorem asks_assignHinted (target hint : Expr) (value : Option Expr) (span : Span) :
    Asks W (target.calls ++ Expr.callsOfOption value)
      (fun call => assignHinted (ctx.calling call) target hint value span) b := by
  unfold assignHinted
  split
  · next id _ value =>
    refine Consults.step (consults_type (·.Awaits W) hint) fun ty b₁ => consults_get_bind ?_
    cases b₁.unknownSymbol? ty with
    | some symbol => exact consults_fail _ nofun
    | none =>
      refine (((asks_expr value).carry ty.Bounded).last fun node b₂ =>
        (consults_assignName id node (some ty) span).mono (fun ⟨hb, hty⟩ => ⟨hb, fun ty' h =>
          Option.some.inj h ▸ hty⟩) fun _ _ h => h).congr fun _ => ?_
      simp [Expr.calls, Expr.callsOfOption]
  · exact consults_fail _ nofun
  · exact consults_fail _ nofun
  · exact consults_fail _ nofun

theorem asks_returnNode (node : NodeId) (span : Span) :
    Asks W [] (fun _ => returnNode node span) b := by
  refine consults_get_bind ?_
  split
  · next declared dst hplan =>
    exact consults_ite (fun _ => consults_fail [] nofun) fun _ =>
      consults_of_ok (fun _ _ => rfl) fun hb => hb.returnDeclared hplan _
        (Graph.copies_ne_reduction (by split <;> simp)) node
  · next hplan =>
    exact consults_of_ok (fun _ _ => rfl) fun hb =>
      ⟨hb.graph, fun hstatic => (hplan _ _ hstatic).elim, hb.bounded⟩

theorem asks_returns (value : Option Expr) (span : Span) :
    Asks W (Expr.callsOfOption value) (fun call => returns (ctx.calling call) value span) b := by
  refine Consults.step (Q := fun _ b' => b'.Awaits W)
    (consults_of_ok (fun _ _ => rfl) fun hb => ⟨hb.graph, hb.returned, hb.bounded⟩) fun _ b₁ =>
    consults_get_bind ?_
  split
  · exact asks_pure ()
  · exact consults_fail _ nofun
  · exact consults_fail _ nofun
  · next e _ => exact (asks_expr e).last fun node b₂ => asks_returnNode node span

theorem asks_stmt (s : Stmt) : Asks W s.calls (fun call => stmt (ctx.calling call) s) b := by
  cases s with
  | assign target value span => exact asks_assign target value span
  | annotated target hint value span => exact asks_assignHinted target hint value span
  | augmented target op value span =>
    refine (asks_assign target (.binary target op value span) span).congr fun id => ?_
    simp only [Expr.calls, Stmt.calls, List.mem_append]
    tauto
  | returns value span => exact asks_returns value span
  | expr value span =>
    cases value with
    | call func args keywords span => exact (asks_expr _).last fun _ _ => asks_pure ()
    | string text span => exact asks_pure ()
    | _ => exact consults_fail _ nofun
  | pass span => exact asks_pure ()
  | delete span => exact consults_fail _ nofun
  | conditional span => exact consults_fail _ nofun
  | loop span => exact consults_fail _ nofun
  | unsupported kind span => exact consults_fail _ nofun

theorem asks_body (stmts : List Stmt) : ∀ b : FunctionBuilder,
    Asks W (stmts.flatMap Stmt.calls) (fun call => body (ctx.calling call) stmts) b := by
  induction stmts with
  | nil => exact fun _ => asks_pure ()
  | cons s rest ih =>
    exact fun b => consults_get_bind <| consults_ite (fun _ => consults_fail _ nofun) fun _ =>
      (asks_stmt s).bind fun _ b₁ => ih b₁

/-! ## Functions -/

/-- A builder whose result is not planned yet. -/
structure Unplanned (b : FunctionBuilder) : Prop where
  awaits : b.Awaits fun _ => False
  plan : b.returnPlan = .template
  outputs : b.outputs = []

theorem unplanned_start (name : String) : Unplanned (.start name) where
  awaits := ⟨Graph.empty_settled.retarget (fun _ hid => by
    rcases hid with ((h | ⟨_, h, -⟩) | h) | ⟨_, h⟩ <;> cases h) fun _ hid => by
    rcases hid with h | h <;> exact h.elim, nofun, .empty⟩
  plan := rfl
  outputs := rfl

/-- A new node that the function is given is no constant. -/
theorem Unplanned.give {b b' : FunctionBuilder} (hb : Unplanned b)
    {W : NodeId → Prop} (hgraph : b'.graph.Settled (b.entry.awaiting W)) (hbounded : b'.graph.Bounded)
    (hplan : b'.returnPlan = b.returnPlan) (houtputs : b'.outputs = b.outputs)
    (hentry : ∀ id, b'.entry.node id ↔ b.entry.node id ∨ W id) : Unplanned b' where
  awaits := by
    refine ⟨hgraph.retarget ?_ ?_, fun h => (nomatch (hplan.trans hb.plan).symm.trans h), hbounded⟩
    · rintro id ((hid | hid) | ⟨ty, hid⟩)
      · exact Or.inl ((hentry id).mp hid)
      · exact hid.elim
      · exact nomatch (hplan.trans hb.plan).symm.trans hid
    · rintro id (hid | ⟨ty, hid⟩)
      · exact Or.inl (Or.inl ((hentry id).mpr hid))
      · exact nomatch hb.plan.symm.trans hid
  plan := hplan.trans hb.plan
  outputs := houtputs.trans hb.outputs

/-- A plan that declares no type waits for nothing. -/
theorem Unplanned.open {b b' : FunctionBuilder} (hb : Unplanned b) (hgraph : b'.graph = b.graph)
    (hinputs : b'.inputs = b.inputs) (hsymbols : b'.symbols = b.symbols)
    (hplan : ∀ ty dst, b'.returnPlan ≠ .static ty dst) : b'.Awaits fun _ => False := by
  have hentry (id : NodeId) : b'.entry.node id ↔ b.entry.node id := by
    simp only [FunctionBuilder.entry, Entry.ofFunction, hinputs, hsymbols]
  refine ⟨hgraph ▸ hb.awaits.graph.retarget ?_ ?_, fun h => absurd h (hplan _ _),
    hgraph ▸ hb.awaits.bounded⟩
  · rintro id ((hid | hid) | ⟨ty, hid⟩)
    · exact Or.inl (Or.inl ((hentry id).mp hid))
    · exact hid.elim
    · exact absurd hid (hplan ty id)
  · rintro id ((hid | hid) | ⟨ty, hid⟩)
    · exact Or.inl (Or.inl ((hentry id).mpr hid))
    · exact hid.elim
    · cases hb.plan.symm.trans hid

/-- A new node of a declared type is set apart for the result. -/
theorem Unplanned.declare (hb : Unplanned b) {ty : KernelType} (hty : ty.Bounded) :
    ({ b with
      graph := (b.graph.addOfType none ty).2
      returnPlan := .static ty (b.graph.addOfType none ty).1
      returnType := some ty } : FunctionBuilder).Awaits fun _ => False := by
  refine ⟨(hb.awaits.addOfType none hty).graph.retarget ?_ ?_, fun _ hout => absurd hb.outputs hout,
    (hb.awaits.addOfType none hty).bounded⟩
  · rintro id ((hid | hid) | ⟨ty', hid⟩)
    · exact Or.inl (Or.inl hid)
    · exact hid.elim
    · obtain ⟨-, rfl⟩ := ReturnPlan.static.inj hid
      exact Or.inl (Or.inr (Or.inr rfl))
  · rintro id ((hid | hid | rfl) | ⟨ty', hid⟩)
    · exact Or.inl (Or.inl hid)
    · exact hid.elim
    · exact Or.inr ⟨ty, rfl⟩
    · exact nomatch hb.plan.symm.trans hid

theorem consults_addSymbols (indexSize : ElemSize) (arg : NodeId) (axes : Shape) :
    ∀ {b : FunctionBuilder} (axis : Nat), Consults [] (Unplanned b)
      (fun _ => addSymbols indexSize arg axis axes) b fun _ b' => Unplanned b' := by
  induction axes with
  | nil => exact fun _ => consults_pure id
  | cons d rest ih =>
    intro b axis
    cases d with
    | const n => exact ih (axis + 1)
    | node id => exact ih (axis + 1)
    | sym name =>
      refine consults_get_bind (consults_ite (fun _ => ih (axis + 1)) fun hnew => ?_)
      refine Consults.step (Q := fun node b' => Unplanned b ∧ node = ⟨b.graph.nodes.size⟩ ∧
        b' = { b with graph := (b.graph.addScalar (some name) indexSize).2 })
        (consults_of_ok (fun _ _ => rfl) fun hb => ⟨hb, rfl, rfl⟩) fun node b₁ => ?_
      refine Consults.step (Q := fun _ b' => Unplanned b') (consults_of_ok (fun _ _ => rfl)
        fun ⟨hb, hnode, hsame⟩ => ?_) fun _ _ => ih (axis + 1)
      subst hsame hnode
      have hnode := hb.awaits.addOfType (some name) (KernelType.bounded_scalar indexSize)
      have hnew : b.symbols.contains name = false := by simpa using hnew
      exact hb.give hnode.graph hnode.bounded rfl rfl fun id =>
        (FunctionBuilder.given_insert_symbol hnew).trans (or_congr_right (iff_of_eq (false_or _)).symm)

theorem consults_addParam (function : String) (param : Param) (given : Option KernelType) :
    Consults [] (Unplanned b ∧ ∀ ty, given = some ty → ty.Bounded)
      (fun call => addParam (ctx.calling call) function param given) b fun _ b' => Unplanned b' := by
  refine consults_get_bind (consults_ite (fun _ => consults_fail [] nofun) fun _ => ?_)
  have htype : Consults [] (Unplanned b ∧ ∀ ty, given = some ty → ty.Bounded)
      (fun _ => paramType function param given) b fun ty b' => Unplanned b' ∧ ty.Bounded := by
    unfold paramType
    split
    · next hint _ => exact (consults_type Unplanned hint).mono And.left fun _ _ h => h
    · exact consults_pure fun hb => ⟨hb.1, hb.2 _ rfl⟩
    · exact consults_fail [] nofun
  refine htype.step fun ty b₁ => ?_
  refine Consults.step (Q := fun arg b' => (Unplanned b₁ ∧ ty.Bounded) ∧
    arg = (b₁.graph.addOfType param.id ty).1 ∧
    b' = { b₁ with graph := (b₁.graph.addOfType param.id ty).2 })
    (consults_of_ok (fun _ _ => rfl) fun hb => ⟨hb, rfl, rfl⟩) fun arg b₂ => ?_
  refine Consults.step (Q := fun _ b' => Unplanned b') (consults_of_ok (fun _ _ => rfl)
    fun ⟨⟨hb, hty⟩, harg, hsame⟩ => ?_) fun _ _ =>
    consults_addSymbols ctx.options.indexSize arg ty.shape 0
  subst harg hsame
  have hnode := hb.awaits.addOfType param.id hty
  exact hb.give hnode.graph hnode.bounded rfl rfl fun id =>
    FunctionBuilder.given_append_input.trans (or_congr_right (iff_of_eq (false_or _)).symm)

theorem consults_addParams (function : String) (params : List Param) :
    ∀ {b : FunctionBuilder} (types : List KernelType),
      Consults [] (Unplanned b ∧ ∀ ty ∈ types, ty.Bounded)
        (fun call => addParams (ctx.calling call) function params types) b
        fun _ b' => Unplanned b' := by
  induction params with
  | nil => exact fun _ => consults_pure And.left
  | cons param params ih =>
    refine fun types => (((consults_addParam function param types.head?).carry
      (∀ ty ∈ types, ty.Bounded)).mono (fun ⟨hb, htypes⟩ => ⟨⟨hb, fun ty hty =>
        htypes ty (List.mem_of_mem_head? hty)⟩, htypes⟩) fun _ _ h => h).step fun _ _ => ?_
    exact (ih types.tail).mono (fun ⟨hb, htypes⟩ => ⟨hb, fun ty hty =>
      htypes ty (List.mem_of_mem_tail hty)⟩) fun _ _ h => h

theorem consults_checkParamNames (params : List Param) :
    Consults [] (Unplanned b) (fun _ => checkParamNames params) b fun _ b' => Unplanned b' := by
  refine consults_get_bind ?_
  split
  · exact consults_fail [] nofun
  · exact consults_pure id

theorem consults_planReturn (result : ReturnHint) :
    Consults [] (Unplanned b) (fun _ => planReturn result) b
      fun _ b' => b'.Awaits fun _ => False := by
  cases result with
  | void => exact consults_of_ok (fun _ _ => rfl) fun hb => hb.open rfl rfl rfl nofun
  | missing => exact consults_of_ok (fun _ _ => rfl) fun hb => hb.open rfl rfl rfl nofun
  | type hint =>
    refine (consults_type Unplanned hint).step fun ty b₁ => consults_get_bind ?_
    refine consults_ite
      (fun _ => consults_of_ok (fun _ _ => rfl) fun hb => hb.1.open rfl rfl rfl nofun) fun _ => ?_
    refine Consults.step (Q := fun node b' => (Unplanned b₁ ∧ ty.Bounded) ∧
      node = (b₁.graph.addOfType none ty).1 ∧
      b' = { b₁ with graph := (b₁.graph.addOfType none ty).2 })
      (consults_of_ok (fun _ _ => rfl) fun hb => ⟨hb, rfl, rfl⟩) fun node b₂ => ?_
    refine consults_of_ok (fun _ _ => rfl) fun ⟨⟨hb, hty⟩, hnode, hsame⟩ => ?_
    subst hsame hnode
    exact hb.declare hty

/-- In a finished graph nothing waits. -/
theorem consults_finish (f : FunctionDef) :
    Consults [] (b.Awaits fun _ => False) (fun _ => finish f) b fun g _ => g.Settled := by
  refine consults_get_bind (consults_ite (fun _ => consults_fail [] nofun) fun hreturned =>
    consults_pure fun hb => ?_)
  have hgiven : ∀ id, b.entry.node id ∨ False → (b.entry.awaiting fun _ => False).node id ∨
      (b.entry.awaiting fun _ => False).result id :=
    fun id hid => Or.inl hid
  refine ⟨⟨fun hid => hb.graph.known (hgiven _ hid), hb.graph.computed,
    fun {id} hlt hid => (hb.graph.idle hlt hid).imp_right fun hknown => ?_, hb.graph.produced,
    fun hproducer hkind => ?_⟩, hb.bounded⟩
  · rcases hknown with (hid' | hwaits) | ⟨ty, hplan⟩
    · exact Or.inl hid'
    · exact hwaits.elim
    · -- The node of a declared result is computed, because something was returned.
      refine absurd hid (hb.returned hplan fun hout => hreturned ⟨Or.inl ?_, by rw [hout]; rfl⟩)
      rw [hplan]
      rfl
  · obtain ⟨op, arg, inner, p, hreduces, hinner⟩ := hb.graph.reductions hproducer hkind
    exact ⟨op, arg, inner, p, hreduces, fun hid => hinner (hgiven inner hid)⟩

/-- A function asks for what its body calls. -/
theorem consults_function (f : FunctionDef) (types : List KernelType) :
    Consults f.calls (∀ ty ∈ types, ty.Bounded) (fun call => function (ctx.calling call) f types)
      (.start f.id) fun g _ => g.Settled :=
  Consults.step ((consults_addParams f.id f.params types).mono
    (fun htypes => ⟨unplanned_start f.id, htypes⟩) fun _ _ => id) fun _ _ =>
    (consults_checkParamNames f.params).step fun _ _ =>
    (consults_planReturn f.result).step fun _ b₃ => (asks_body f.body b₃).last fun _ _ =>
      consults_finish f

end BuildM

end TensorKernel
