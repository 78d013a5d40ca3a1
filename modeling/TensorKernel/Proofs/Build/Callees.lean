import TensorKernel.Proofs.Build.Consultation
import TensorKernel.Proofs.Build.Expression

/-!
# What expressions ask for

An expression asks for the functions that are called in it.  A call asks for its arguments first and
then for the callee, whose graph it takes in: the nodes that the callee was given wait until they
are computed by copies.
-/

namespace TensorKernel

/-- What a step may refer to, when somebody else provides the graphs. -/
def BuildContext.calling (ctx : BuildContext) (call : Provider) : BuildContext :=
  { ctx with call }

/-! ## Builders in which nodes wait -/

namespace FunctionBuilder

variable {b : FunctionBuilder} {W W' : NodeId → Prop}

/-- Computing a node that waits, unless it is by a reduction. -/
theorem Awaits.compute (h : b.Awaits W) {dst : NodeId} (hdst : W dst) (kind : OpKind)
    (hkind : ∀ axes body init, kind ≠ .reduction axes body init)
    (inputs : List NodeId) (hsub : ∀ id, W' id → W id) (hrest : ∀ id, W id → W' id ∨ id = dst) :
    ({ b with graph := (b.graph.addOp kind inputs [dst]).2 } : FunctionBuilder).Awaits W' := by
  refine ⟨h.graph.addOp (Or.inl (Or.inr hdst)) (fun hop => absurd hop (hkind _ _ _))
    (fun id hid => hid.imp_left (Or.imp_right (hsub id))) ?_, fun hplan hout =>
    Graph.addOp_kept _ _ _ (h.returned hplan hout), h.bounded.addOp kind inputs [dst]⟩
  rintro id ((hid | hid) | hid)
  · exact Or.inl (Or.inl hid)
  · exact (hrest id hid).imp Or.inr Or.inr
  · exact Or.inr (Or.inl hid)

/-- A new node of a type waits. -/
theorem Awaits.addOfType (h : b.Awaits W) (name : Option String) {ty : KernelType}
    (hty : ty.Bounded) :
    ({ b with graph := (b.graph.addOfType name ty).2 } : FunctionBuilder).Awaits
      fun id => W id ∨ id = (b.graph.addOfType name ty).1 := by
  have hbounded := h.bounded.addOfType name hty
  obtain ⟨kind, hadd, -, hkind⟩ := b.graph.addOfType_eq_addNode name ty
  rw [hadd] at hbounded ⊢
  refine ⟨h.graph.addNode _ name kind ?_ ?_ (Or.inr (Or.inl (Or.inr (Or.inr rfl)))),
    fun hplan hout => Graph.addNode_kept _ _ (h.returned hplan hout), hbounded⟩
  · rintro id ((hid | hid | rfl) | hid)
    · exact Or.inl (Or.inl hid)
    · exact Or.inl (Or.inr hid)
    · exact Or.inr (Or.inr ⟨rfl, hkind⟩)
    · exact Or.inr (Or.inl hid)
  · exact fun id hid => hid.imp_left (Or.imp_right Or.inl)

/-- What a callee was given waits. -/
theorem Awaits.splice (h : b.Awaits W) {callee : FunctionGraph} (hcallee : callee.Settled)
    {symbol : String → Dim} (hsymbol : ∀ name, (symbol name).Bounded) :
    ({ b with graph := (b.graph.splice callee.graph symbol).2 } : FunctionBuilder).Awaits fun id =>
      (W id ∨ ∃ p ∈ callee.symbols.entries, id = (b.graph.relocation symbol).node p.2.node) ∨
        ∃ p ∈ callee.inputs, id = (b.graph.relocation symbol).node p.2 := by
  have hspliced := Graph.Settled.splice h.graph hcallee.graph symbol
  refine ⟨hspliced.retarget ?_ ?_, fun hplan hout => ?_,
    h.bounded.splice hcallee.bounded hsymbol⟩
  · rintro id ((hid | (hid | ⟨p, hp, rfl⟩) | ⟨p, hp, rfl⟩) | hid)
    · exact Or.inl (Or.inl (Or.inl hid))
    · exact Or.inl (Or.inl (Or.inr hid))
    · exact Or.inl (Or.inr ⟨_, Or.inl (Or.inr ⟨p, hp, rfl⟩), rfl⟩)
    · exact Or.inl (Or.inr ⟨_, Or.inl (Or.inl (List.mem_map_of_mem hp)), rfl⟩)
    · exact Or.inr hid
  · rintro id (((hid | hid) | ⟨inner, (hinner | ⟨p, hp, rfl⟩) | hinner, rfl⟩) | hid)
    · exact Or.inl (Or.inl hid)
    · exact Or.inl (Or.inr (Or.inl (Or.inl hid)))
    · obtain ⟨p, hp, rfl⟩ := List.mem_map.mp hinner
      exact Or.inl (Or.inr (Or.inr ⟨p, hp, rfl⟩))
    · exact Or.inl (Or.inr (Or.inl (Or.inr ⟨p, hp, rfl⟩)))
    · exact hinner.elim
    · exact Or.inr hid
  · obtain ⟨o, ho⟩ := Option.ne_none_iff_exists'.mp (h.returned hplan hout)
    rw [Graph.splice_node_of_lt _ _ _ (Graph.lt_of_producer ho)]
    exact h.returned hplan hout

end FunctionBuilder

namespace BuildM

variable {W : NodeId → Prop} {ctx : BuildContext} {b : FunctionBuilder}

/-! ## Inlined calls -/

/-- What waits with the rest of a list, or as the first of it. -/
theorem or_exists_mem_cons {α β : Type} {W : Prop} {f : α → β} {x : α} {xs : List α} {y : β}
    (h : W ∨ ∃ p ∈ x :: xs, y = f p) : (W ∨ ∃ p ∈ xs, y = f p) ∨ y = f x := by
  rcases h with h | ⟨p, hp, hy⟩
  · exact Or.inl (Or.inl h)
  · rcases List.mem_cons.mp hp with rfl | hp
    · exact Or.inr hy
    · exact Or.inl (Or.inr ⟨p, hp, hy⟩)

/-- Every parameter that waits is computed, if there are as many arguments. -/
theorem consults_copyArguments (r : Relocation) (params : List (String × NodeId)) :
    ∀ {b : FunctionBuilder} {args : List NodeId}, Consults []
      (params.length = args.length ∧ b.Awaits fun id => W id ∨ ∃ p ∈ params, id = r.node p.2)
      (fun _ => copyArguments r params args) b fun _ b' => b'.Awaits W := by
  induction params with
  | nil =>
    intro b args
    refine consults_pure fun ⟨_, hb⟩ => ?_
    simpa using hb
  | cons param params ih =>
    intro b args
    cases args with
    | nil => exact consults_pure fun ⟨hlength, _⟩ => nomatch hlength
    | cons arg args =>
      refine Consults.step (consults_of_ok (fun _ _ => rfl) fun ⟨hlength, hb⟩ =>
        ⟨Nat.succ.inj hlength, hb.compute (Or.inr ⟨param, List.mem_cons_self .., rfl⟩) .copy
            (Graph.copies_ne_reduction (Or.inl rfl)) [arg]
          (fun id hid => hid.imp_right fun ⟨p, hp, heq⟩ => ⟨p, List.mem_cons_of_mem _ hp, heq⟩)
          ?_⟩) fun _ _ => ih
      exact fun id => or_exists_mem_cons

/-- Every shape symbol that waits is computed. -/
theorem consults_copySymbols (function : String) (r : Relocation) (bound : SymbolBinding)
    (span : Span) (entries : List (String × ShapeSymbol)) :
    ∀ {b : FunctionBuilder},
      Consults [] (b.Awaits fun id => W id ∨ ∃ p ∈ entries, id = r.node p.2.node)
        (fun _ => copySymbols function r bound span entries) b fun _ b' => b'.Awaits W := by
  induction entries with
  | nil =>
    intro b
    refine consults_pure fun hb => ?_
    simpa using hb
  | cons entry entries ih =>
    intro b
    obtain ⟨name, symbol⟩ := entry
    unfold copySymbols
    cases bound.get? name with
    | none => exact consults_failInternal [] fun _ h => by cases h
    | some dim =>
      refine Consults.step (asks_dimNode dim span) fun src b₁ =>
        Consults.step (consults_of_ok (fun _ _ => rfl) fun hb =>
          hb.compute (Or.inr ⟨(name, symbol), List.mem_cons_self .., rfl⟩) .copy
            (Graph.copies_ne_reduction (Or.inl rfl)) [src]
          (fun id hid => hid.imp_right fun hentry =>
            hentry.imp fun _ hp => ⟨List.mem_cons_of_mem _ hp.1, hp.2⟩)
          ?_) fun _ _ => ih
      exact fun id => or_exists_mem_cons

theorem consults_spliceCall (callee : FunctionGraph) (function : String) (args : List NodeId)
    (bound : SymbolBinding) (span : Span) :
    Consults [] (callee.Settled ∧ callee.inputs.length = args.length ∧ b.Awaits W ∧
      ∀ name, (bound.substitute name).Bounded)
      (fun _ => spliceCall callee function args bound span) b fun _ b' => b'.Awaits W := by
  refine consults_get_bind ?_
  refine Consults.step (Q := fun _ b' => callee.inputs.length = args.length ∧ b'.Awaits fun id =>
    (W id ∨ ∃ p ∈ callee.symbols.entries, id = (b.graph.relocation bound.substitute).node p.2.node) ∨
      ∃ p ∈ callee.inputs, id = (b.graph.relocation bound.substitute).node p.2)
    (consults_of_ok (fun _ _ => rfl) fun ⟨hcallee, hlength, hb, hsymbol⟩ =>
      ⟨hlength, hb.splice hcallee hsymbol⟩) fun _ b₁ => ?_
  refine Consults.step (consults_copyArguments _ callee.inputs) fun _ b₂ => ?_
  refine Consults.step (consults_copySymbols function _ bound span _) fun _ b₃ => ?_
  cases callee.outputs with
  | nil => exact consults_failInternal [] nofun
  | cons out _ => exact asks_pure _

/-- A call asks for the callee. -/
theorem consults_call (id : String) {types : List KernelType} (span : Span) {pre : Prop}
    (htypes : pre → ∀ ty ∈ types, ty.Bounded) :
    Consults [id] pre (fun call => (monadLift ((ctx.calling call).call id types span) : BuildM _)) b
      fun callee b' => b' = b ∧ pre ∧ callee.Settled := by
  refine ⟨.ask id types span fun g => .done (.ok (g, b)), fun call cache => ?_,
    ⟨⟨List.mem_singleton_self id, fun _ => trivial⟩, fun other hother => ?_, fun _ => trivial⟩,
    fun hpre => ⟨htypes hpre, fun g hg => ⟨rfl, hpre, hg⟩⟩⟩
  · rw [run_lift]
    cases hr : (runCall (call id types span) cache).1 with
    | error err =>
      rw [Dialogue.run_ask_of_error hr]
      exact Prod.ext (congrArg (Except.map _) hr) rfl
    | ok g =>
      rw [Dialogue.run_ask_of_ok hr]
      exact Prod.ext (congrArg (Except.map _) hr) rfl
  · exact Or.inl (List.mem_singleton.mp hother).symm

/-- Bound symbols stand for dimensions of arguments. -/
theorem bounded_substitute {function : String} {params : List ((String × KernelType) × KernelType)}
    {bound : SymbolBinding} (h : SymbolBinding.bindParams function .empty params = .ok bound)
    (hparams : ∀ p ∈ params, p.2.Bounded) (name : String) : (bound.substitute name).Bounded := by
  unfold SymbolBinding.substitute
  cases hdim : bound.get? name with
  | none => trivial
  | some d =>
    rcases (SymbolBinding.bindParams_ok h).2.2 name d hdim with hempty | ⟨p, hp, hd⟩
    · cases hempty
    · exact hparams p hp d hd

theorem asks_inlineCall (function : String) (args : List NodeId) (span : Span) :
    Asks W [function] (fun call => inlineCall (ctx.calling call) function args span) b := by
  have htypes (hb : b.Awaits W) : ∀ ty ∈ args.map b.graph.type, ty.Bounded := by
    intro ty hty
    obtain ⟨arg, -, rfl⟩ := List.mem_map.mp hty
    exact hb.bounded arg
  refine consults_get_bind ((consults_call function span htypes).last fun callee b₁ => ?_)
  refine consults_ite (fun _ => consults_fail [] nofun) fun _ => ?_
  refine consults_ite (fun _ => consults_fail [] nofun) fun hlength => ?_
  refine Consults.step (Q := fun bound b' => callee.Settled ∧
    callee.inputs.length = args.length ∧ b'.Awaits W ∧ ∀ name, (bound.substitute name).Bounded)
    (consults_ofExcept (fun bound hbound ⟨hsame, hb, hcallee⟩ => ⟨hcallee, not_not.mp hlength,
      hsame ▸ hb, bounded_substitute hbound fun p hp => htypes hb _ (List.of_mem_zip hp).2⟩)
      fun fault h => ?_) fun bound b₂ => consults_spliceCall callee function args bound span
  have hkind : BuildError.kind ⟨fault, span⟩ ≠ .notImplemented := by
    rw [BuildError.kind, SymbolBinding.bindParams_error h]
    decide
  exact notRecursive_of_kind hkind

/-! ## Calls -/

theorem asks_booleanChain (op : BinOp) (span : Span) (ids : List NodeId) :
    Asks W [] (fun _ => booleanChain op span ids) b := by
  cases ids with
  | nil => exact consults_failInternal [] nofun
  | cons first rest => exact asks_applyChain span _ first

/-- Named arguments are integers, or they are refused. -/
theorem asks_keywordValues (keywords : List Keyword) :
    ∀ values : Table String Int64,
      Asks W (Expr.callsOfKeywords keywords) (fun _ => keywordValues keywords values) b := by
  induction keywords with
  | nil => exact fun values => asks_pure values
  | cons keyword rest ih =>
    intro values
    obtain ⟨id, value, span⟩ := keyword
    unfold keywordValues
    dsimp only [Keyword.value, Keyword.span, Keyword.id]
    cases hvalue : value.integerLiteral? with
    | none => exact consults_fail _ fun _ h => by cases h
    | some v =>
      rw [Expr.callsOfKeywords, Expr.calls_of_integerLiteral? hvalue]
      exact consults_ite (fun _ => ih _) fun _ => consults_fail _ fun _ h => by cases h

/-- A reduction that is applied to a tensor settles, and it complains about its arguments only. -/
theorem settles_apply (f : Reduction) (g : Graph) (args : List NodeId)
    (keywords : Table String Int64) :
    (∀ result, f.apply g args keywords = .ok result → g.Bounded → g.Settles result.2) ∧
      ∀ fault, f.apply g args keywords = .error fault → ∀ id, fault ≠ .recursiveCall id := by
  unfold Reduction.apply
  split
  · next arg =>
    split
    · exact ⟨nofun, fun fault h => Except.error.inj h ▸ nofun⟩
    · next htensor =>
      have harg := Graph.lt_of_not_isScalar (Bool.eq_false_iff.mpr htensor)
      cases haxes : f.axes (g.shape arg).length keywords with
      | error fault =>
        refine ⟨nofun, fun fault' h => Except.error.inj h ▸ ?_⟩
        obtain ⟨keyword, rfl⟩ | ⟨axis, rfl⟩ := Reduction.axes_error_cases haxes <;> nofun
      | ok axes =>
        dsimp only [bind, Except.bind]
        split
        · next hneutral =>
          exact ⟨fun result h hg => Except.ok.inj h ▸ Graph.settles_reduction hg harg axes hneutral,
            nofun⟩
        · exact ⟨nofun, fun fault h => Except.error.inj h ▸ nofun⟩
  · exact ⟨nofun, fun fault h => Except.error.inj h ▸ nofun⟩

theorem asks_numericCall (package name : String) {names : List String}
    {args : Provider → BuildM (List NodeId)} (hargs : ∀ b, Asks W names args b)
    (keywords : List Keyword) (span : Span) :
    Asks W (names ++ Expr.callsOfKeywords keywords)
      (fun call => numericCall (ctx.calling call) package name (args call) keywords span) b := by
  refine Consults.step (Q := fun _ b' => b'.Awaits W)
    (consults_ofExcept (fun _ _ => id) fun _ h => by
      obtain rfl | rfl := NumericLibrary.find_error_cases h <;> nofun) fun f b₁ => ?_
  refine Consults.congr ?_ fun id => List.mem_append.trans (or_comm.trans List.mem_append.symm)
  refine (asks_keywordValues keywords .empty).bind fun values b₂ => (hargs b₂).last fun ids b₃ => ?_
  obtain ⟨hsettles, hfault⟩ := settles_apply f b₃.graph ids values
  refine consults_get_bind (Consults.step (Q := fun result b' => b' = b₃ ∧
    b₃.graph.Settles result.2 ∧ b₃.Awaits W) (consults_ofExcept
      (fun result h hb => ⟨rfl, hsettles result h hb.bounded, hb⟩) hfault) fun result b₄ => ?_)
  exact consults_of_ok (fun _ _ => rfl) fun ⟨hsame, hgrow, hb⟩ => hsame ▸ hb.grow hgrow

theorem asks_call (func : Expr) {names : List String} {args : Provider → BuildM (List NodeId)}
    (hargs : ∀ b, Asks W names args b) (keywords : List Keyword) (span : Span) :
    Asks W (func.bareName ++ (func.calls ++ (names ++ Expr.callsOfKeywords keywords)))
      (fun call => BuildM.call (ctx.calling call) func (args call) keywords span) b := by
  unfold BuildM.call
  split
  · exact (asks_numericCall _ _ hargs keywords span).congr fun id => by
      simp [Expr.bareName, Expr.calls]
  · exact consults_fail _ fun _ h => by cases h
  · next id _ =>
    refine consults_ite (fun hkeywords => ?_) fun _ => consults_fail _ fun _ h => by cases h
    obtain rfl := List.isEmpty_iff.mp hkeywords
    refine ((hargs b).bind fun ids b₁ => asks_inlineCall id ids span).congr fun other => ?_
    simp [Expr.bareName, Expr.calls, Expr.callsOfKeywords, or_comm]
  · exact consults_fail _ fun _ h => by cases h

/-! ## Expressions -/

/-- What building an expression asks for: as a value, and where it stands as an index. -/
structure Voiced (W : NodeId → Prop) (ctx : BuildContext) (e : Expr) : Prop where
  value : ∀ b, Asks W e.calls (fun call => expr (ctx.calling call) e) b
  tuple : ∀ elems span, e = .tuple elems span → ∀ axes : Shape, elems.length ≤ axes.length → ∀ range b,
    Asks W (Expr.callsOfList elems) (fun call => axisIndices (ctx.calling call) elems axes range) b
  range : ∀ lower upper step span, e = .slice lower upper step span → ∀ axis range b,
    Asks W e.calls (fun call => rangeIndex (optional (ctx.calling call) lower)
      (optional (ctx.calling call) upper) (optional (ctx.calling call) step) axis range) b

/-- An expression that is neither a tuple nor a range. -/
theorem Voiced.of_value {e : Expr}
    (value : ∀ b, Asks W e.calls (fun call => expr (ctx.calling call) e) b)
    (htuple : ∀ elems span, e ≠ .tuple elems span)
    (hrange : ∀ lower upper step span, e ≠ .slice lower upper step span) : Voiced W ctx e :=
  ⟨value, fun elems span h => absurd h (htuple elems span),
    fun lower upper step span h => absurd h (hrange lower upper step span)⟩

/-- An expression that may be missing, as what is built with a provider. -/
def voice (ctx : BuildContext) (e : Option Expr) : Option (Provider → BuildM NodeId) :=
  e.map fun e call => expr (ctx.calling call) e

theorem optional_calling (call : Provider) (e : Option Expr) :
    optional (ctx.calling call) e = (voice ctx e).map (· call) := by
  cases e <;> rfl

theorem asksIf_voice {e : Option Expr} (h : ∀ e', e = some e' → Voiced W ctx e') :
    AsksIf W (Expr.callsOfOption e) (voice ctx e) := by
  cases e with
  | none => rfl
  | some e => exact (h e rfl).value

theorem asks_axisIndices {es : List Expr} (h : ∀ e ∈ es, Voiced W ctx e) :
    ∀ axes : Shape, es.length ≤ axes.length → ∀ span b, Asks W (Expr.callsOfList es)
      (fun call => axisIndices (ctx.calling call) es axes span) b := by
  induction es with
  | nil => exact fun _ _ _ _ => asks_pure _
  | cons e es ih =>
    intro axes hlength span b
    cases axes with
    | nil => cases hlength
    | cons axis axes =>
      have he := h e (List.mem_cons_self ..)
      have hrest (choice : AxisIndex) (b : FunctionBuilder) : Asks W (Expr.callsOfList es)
          (fun call => do
            let choices ← axisIndices (ctx.calling call) es axes span
            pure (choice :: choices)) b :=
        (ih (fun e he => h e (List.mem_cons_of_mem _ he)) axes (Nat.le_of_succ_le_succ hlength) span
          b).last fun _ _ => asks_pure _
      simp only [axisIndices_cons]
      split
      · exact (he.range _ _ _ _ rfl axis _ b).bind fun choice b₁ => hrest choice b₁
      · exact (asks_elementIndex (he.value b) span).bind fun choice b₁ => hrest choice b₁

theorem asks_exprs {es : List Expr} (h : ∀ e ∈ es, Voiced W ctx e) :
    ∀ b, Asks W (Expr.callsOfList es) (fun call => exprs (ctx.calling call) es) b := by
  induction es with
  | nil => exact fun _ => asks_pure _
  | cons e es ih =>
    exact fun b => ((h e (List.mem_cons_self ..)).value b).bind fun id b₁ =>
      (ih (fun e he => h e (List.mem_cons_of_mem _ he)) b₁).last fun ids _ => asks_pure _

mutual

/-- An expression asks for the functions that are called in it. -/
theorem voiced (W : NodeId → Prop) (ctx : BuildContext) : (e : Expr) → Voiced W ctx e
  | .name id span => by
    refine .of_value (fun b => consults_get_bind ?_) nofun nofun
    cases b.resolve? id with
    | some node => exact asks_pure node
    | none => exact consults_fail _ nofun
  | .int v span => .of_value (fun _ => asks_intConstant v span) nofun nofun
  | .float v span => .of_value (fun _ => asks_floatConstant v span) nofun nofun
  | .bool v _ =>
    .of_value (fun _ => asks_onGraph (Graph.settles_addConstant _ _ _)) nofun nofun
  | .string _ _ => .of_value (fun _ => consults_fail _ nofun) nofun nofun
  | .nothing _ => .of_value (fun _ => consults_fail _ nofun) nofun nofun
  | .unary op arg span => by
    have harg := (voiced W ctx arg).value
    refine .of_value (fun b => ?_) nofun nofun
    simp only [expr_unary, Expr.calls]
    split
    · exact asks_intConstant _ span
    · exact asks_floatConstant _ span
    · exact (harg b).last fun id _ => asks_applyUnary op id span
  | .binary lhs op rhs span => by
    have hlhs := (voiced W ctx lhs).value
    have hrhs := (voiced W ctx rhs).value
    refine .of_value (fun b => ?_) nofun nofun
    exact (hlhs b).bind fun l b₁ => (hrhs b₁).last fun r _ => asks_applyBinary op l r span
  | .boolean op operands span => by
    have hall := voicedAll W ctx operands
    refine .of_value (fun b => ?_) nofun nofun
    exact (asks_exprs hall b).last fun ids _ => asks_booleanChain op span ids
  | .compare lhs ops comparators span => by
    have hlhs := (voiced W ctx lhs).value
    have hall := voicedAll W ctx comparators
    refine .of_value (fun b => ?_) nofun nofun
    exact (hlhs b).bind fun l b₁ => (asks_exprs hall b₁).last fun ids _ => asks_applyChain span _ l
  -- Slices and tuples build as indices only: all but the first part is empty for other expressions.
  | .subscript target index span => by
    have htarget := (voiced W ctx target).value
    have hindex := voiced W ctx index
    refine .of_value (fun b => ?_) nofun nofun
    simp only [expr_subscript]
    split
    · exact (htarget b).bind fun id b₁ => asks_indexedAxes_bind id _ span fun axes hlength =>
        (hindex.tuple _ _ rfl axes hlength span b₁).last fun choices _ =>
          asks_readTensor id choices span
    · exact (htarget b).bind fun id b₁ => asks_indexedAxes_bind id 1 span fun axes _ =>
        (hindex.range _ _ _ _ rfl _ _ b₁).last fun choice _ => asks_readTensor id [choice] span
    · exact (htarget b).bind fun id b₁ => asks_indexedAxes_bind id 1 span fun axes _ =>
        (asks_elementIndex (hindex.value b₁) span).last fun choice _ =>
          asks_readTensor id [choice] span
  | .slice lower upper step span => by
    have hlower := voicedOption W ctx lower
    have hupper := voicedOption W ctx upper
    have hstep := voicedOption W ctx step
    refine ⟨fun b => consults_fail _ nofun, nofun, fun _ _ _ _ heq axis range b => ?_⟩
    obtain ⟨rfl, rfl, rfl, rfl⟩ := Expr.slice.inj heq
    simp only [optional_calling]
    exact asks_rangeIndex (asksIf_voice hlower) (asksIf_voice hupper) (asksIf_voice hstep) axis range
  | .tuple elems span => by
    have hall := voicedAll W ctx elems
    refine ⟨fun b => consults_fail _ nofun, fun _ _ heq => ?_, nofun⟩
    obtain ⟨rfl, rfl⟩ := Expr.tuple.inj heq
    exact asks_axisIndices hall
  | .member _ _ _ => .of_value (fun _ => consults_fail _ nofun) nofun nofun
  | .call func args keywords span => by
    have hall := voicedAll W ctx args
    exact .of_value (fun b => asks_call func (asks_exprs hall) keywords span) nofun nofun
  | .unsupported _ _ => .of_value (fun _ => consults_fail _ nofun) nofun nofun
termination_by structural e => e

theorem voicedAll (W : NodeId → Prop) (ctx : BuildContext) : (es : List Expr) →
    ∀ e ∈ es, Voiced W ctx e
  | [] => nofun
  | e :: es => by
    have hhead := voiced W ctx e
    have htail := voicedAll W ctx es
    exact List.forall_mem_cons.mpr ⟨hhead, htail⟩
termination_by structural es => es

theorem voicedOption (W : NodeId → Prop) (ctx : BuildContext) : (e : Option Expr) →
    ∀ e', e = some e' → Voiced W ctx e'
  | none => nofun
  | some e => by
    have he := voiced W ctx e
    intro e' heq
    rw [← Option.some.inj heq]
    exact he
termination_by structural e => e

end

theorem asks_expr (e : Expr) : Asks W e.calls (fun call => expr (ctx.calling call) e) b :=
  (voiced W ctx e).value b

end BuildM

end TensorKernel
