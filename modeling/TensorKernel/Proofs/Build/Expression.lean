import TensorKernel.Build.Expression
import TensorKernel.Proofs.Build.Inline
import TensorKernel.Proofs.Except

/-!
# Built expressions

Building an expression lets the graph of a well-formed builder grow and gives a node that has a
value.  The only internal error on the way is that of a boolean operation without operands.
-/

namespace TensorKernel

/-! ## Boolean operations -/

namespace Expr

mutual

/--
Every boolean operation that is built has an operand.  What is called and the arguments that are
passed by name are not built.
-/
def BooleansNonempty : Expr → Prop
  | .unary _ arg _ => arg.BooleansNonempty
  | .binary lhs _ rhs _ => lhs.BooleansNonempty ∧ rhs.BooleansNonempty
  | .boolean _ operands _ => operands ≠ [] ∧ AllBooleansNonempty operands
  | .compare lhs _ comparators _ => lhs.BooleansNonempty ∧ AllBooleansNonempty comparators
  | .subscript target index _ => target.BooleansNonempty ∧ index.BooleansNonempty
  | .slice lower upper step _ =>
    OptionBooleansNonempty lower ∧ OptionBooleansNonempty upper ∧ OptionBooleansNonempty step
  | .tuple elems _ => AllBooleansNonempty elems
  | .call _ args _ _ => AllBooleansNonempty args
  | _ => True
termination_by structural e => e

/-- Every boolean operation of a list of expressions has an operand. -/
def AllBooleansNonempty : List Expr → Prop
  | [] => True
  | e :: es => e.BooleansNonempty ∧ AllBooleansNonempty es
termination_by structural es => es

/-- Every boolean operation of an expression that may be missing has an operand. -/
def OptionBooleansNonempty : Option Expr → Prop
  | none => True
  | some e => e.BooleansNonempty
termination_by structural e => e

end

end Expr

namespace BuildM

variable {sz : ElemSize} {strict closed : Prop} {ctx : BuildContext}

/-! ## Calls of numeric functions -/

theorem builds_keywordValues (keywords : List Keyword) :
    ∀ {b : FunctionBuilder} (values : Table String Int64),
      Builds sz strict closed (keywordValues keywords values) b fun _ b' => b' = b := by
  induction keywords with
  | nil => exact fun _ => builds_pure rfl
  | cons keyword rest ih =>
    intro b values
    unfold keywordValues
    split
    · exact builds_ite (fun _ => ih _) fun _ => builds_fail (by rintro ⟨⟩)
    · exact builds_fail (by rintro ⟨⟩)

theorem find_sound (hctx : ctx.Sound sz strict closed) {package name : String} {f : Reduction}
    (h : ctx.library.find package name = .ok f) : f.Sound := by
  unfold NumericLibrary.find at h
  split at h
  · split at h
    · next hget =>
      obtain rfl := Except.ok.inj h
      exact hctx.library hget
    · cases h
  · cases h

end BuildM

/-- A function that is not found is in a package that is not known, or it is not known itself. -/
theorem NumericLibrary.find_error_cases {library : NumericLibrary} {package name : String}
    {fault : BuildFault} (h : library.find package name = .error fault) :
    fault = .unsupportedFunction package name ∨ fault = .unsupportedPackage package := by
  unfold find at h
  split at h
  · split at h
    · cases h
    · exact Or.inl (Except.error.inj h).symm
  · exact Or.inr (Except.error.inj h).symm

namespace Reduction

/-- The axes of a call are refused for a keyword that is not known, or for an axis out of range. -/
theorem axes_error_cases {f : Reduction} {rank : Nat} {keywords : Table String Int64}
    {fault : BuildFault} (h : f.axes rank keywords = .error fault) :
    (∃ keyword, fault = .reductionKeyword f.name keyword) ∨
      ∃ axis, fault = .reductionAxis axis rank := by
  unfold axes at h
  split at h
  · exact Or.inl ⟨_, (Except.error.inj h).symm⟩
  · split at h
    · cases h
    · next axis _ =>
      by_cases hbounds : (if axis < 0 then axis.toInt + rank else axis.toInt) < 0 ∨
          rank ≤ (if axis < 0 then axis.toInt + rank else axis.toInt)
      · rw [if_pos hbounds] at h
        exact Or.inr ⟨axis, (Except.error.inj h).symm⟩
      · rw [if_neg hbounds] at h
        cases h

/-- An operator with a neutral element combines elements with an accumulator. -/
theorem Sound.typed {f : Reduction} (hf : f.Sound) (sz : ElemSize) :
    f.op.Typed sz (f.op.accumulatorSize sz) (f.op.accumulatorSize sz) := by
  rcases hf with h | h | h | h <;> rw [h] <;> cases sz <;>
    exact ⟨by decide, by simp [BinOp.isBitwise]⟩

theorem Sound.neutral {f : Reduction} (hf : f.Sound) (sz : ElemSize) :
    ∃ v, f.op.neutralElement? sz = some v := by
  rcases hf with h | h | h | h <;> rw [h] <;> exact ⟨_, rfl⟩

/-- What a call that succeeds adds to a graph. -/
theorem of_apply {f : Reduction} {g : Graph} {arg : NodeId} {keywords : Table String Int64}
    {result : NodeId × Graph} (h : f.apply g [arg] keywords = .ok result) :
    g.isScalar arg = false ∧ ∃ axes first, f.axes (g.shape arg).length keywords = .ok axes ∧
      f.op.neutralElement? (f.op.accumulatorSize (g.elemSize arg)) = some first ∧
      g.applyReduction f.op arg axes (f.op.accumulatorSize (g.elemSize arg)) first = result := by
  unfold apply at h
  dsimp only at h
  split at h
  · cases h
  · next hscalar =>
    obtain ⟨axes, haxes, h⟩ := exists_of_bind_ok h
    refine ⟨by simpa using hscalar, axes, ?_⟩
    split at h
    · next first hfirst => exact ⟨first, haxes, hfirst, Except.ok.inj h⟩
    · cases h

/-- A call that succeeds adds a reduction to the graph, and keeps it orderly. -/
theorem Sound.produces {f : Reduction} (hf : f.Sound) {g : Graph} {e : Entry} {sz : ElemSize}
    {symbols : Table String ShapeSymbol} (hv : g.Valid e) {args : List NodeId}
    (hargs : ∀ a ∈ args, g.Available e a) {keywords : Table String Int64}
    {result : NodeId × Graph} (h : f.apply g args keywords = .ok result) :
    (∃ ty, g.Produces e result ty) ∧
      (g.Orderly e sz symbols → result.2.Orderly e sz symbols) := by
  obtain ⟨arg, rfl⟩ : ∃ arg, args = [arg] := by
    unfold apply at h
    split at h
    · exact ⟨_, rfl⟩
    · cases h
  obtain ⟨hscalar, axes, first, -, hfirst, rfl⟩ := of_apply h
  have harg := hargs arg (List.mem_singleton_self arg)
  exact ⟨⟨_, Graph.produces_reduction hv harg hscalar (hf.typed _)⟩,
    fun he => he.applyReduction hv f.op harg _ _ fun _ hi => hi ▸ BinOp.holds_neutralElement hfirst⟩

theorem Sound.apply_error {f : Reduction} (hf : f.Sound) {g : Graph} {args : List NodeId}
    {keywords : Table String Int64} {fault : BuildFault}
    (h : f.apply g args keywords = .error fault) : fault.kind ≠ .internalError := by
  unfold apply at h
  split at h
  · next arg =>
    split at h
    · obtain rfl := Except.error.inj h
      rintro ⟨⟩
    · cases haxes : f.axes (g.shape arg).length keywords with
      | error fault' =>
        rw [haxes] at h
        obtain rfl := Except.error.inj h
        obtain ⟨keyword, rfl⟩ | ⟨axis, rfl⟩ := axes_error_cases haxes <;> rintro ⟨⟩
      | ok axes =>
        obtain ⟨v, hv'⟩ := hf.neutral (f.op.accumulatorSize (g.elemSize arg))
        rw [haxes] at h
        simp only [bind, Except.bind, hv'] at h
        cases h
  · obtain rfl := Except.error.inj h
    rintro ⟨⟩

end Reduction

namespace BuildM

variable {sz : ElemSize} {strict closed : Prop} {ctx : BuildContext}

/-- A step that gives nodes with values, whatever was built before. -/
def GivesValues (sz : ElemSize) (strict closed : Prop) (m : BuildM (List NodeId)) : Prop :=
  ∀ b, Builds sz strict closed m b fun ids b' => ∀ id ∈ ids, b'.Has id

theorem builds_numericCall (hctx : ctx.Sound sz strict closed) (package name : String)
    {args : BuildM (List NodeId)} (hargs : GivesValues sz strict closed args) (keywords : List Keyword)
    (span : Span) : GivesValue sz strict closed (numericCall ctx package name args keywords span) := by
  intro b
  refine Builds.bind (P := fun f b' => b' = b ∧ f.Sound)
    (builds_ofExcept (fun f h => ⟨rfl, find_sound hctx h⟩) fun _ h => by
      obtain rfl | rfl := NumericLibrary.find_error_cases h <;> rintro ⟨⟩)
    fun f b₁ _ ⟨hsame, hf⟩ => ?_
  subst hsame
  refine (builds_keywordValues keywords .empty).bind fun values b₂ _ hsame => ?_
  subst hsame
  refine (hargs b₂).bind fun ids b₃ _ hids => builds_get_bind ?_
  intro hb
  refine Meets.bind (Q := fun result b' => b' = b₃ ∧
    (∃ ty, b₃.graph.Produces b₃.entry result ty) ∧
      (b₃.graph.Orderly b₃.entry sz b₃.symbols → result.2.Orderly b₃.entry sz b₃.symbols))
    (meets_ofExcept (fun result h => ⟨rfl, hf.produces hb.valid hids h⟩)
      fun _ h => hf.apply_error h) fun result b₄ ⟨hsame, ⟨ty, hproduces⟩, horderly⟩ => ?_
  subst hsame
  refine Meets.bind (Q := fun _ b' => b' = { b₄ with graph := result.2 })
    (meets_modify rfl) fun _ b₅ hsame => meets_pure ?_
  subst hsame
  exact ⟨.of_produces hb.valid hproduces, fun _ => horderly, hproduces.available⟩

theorem builds_call (hctx : ctx.Sound sz strict closed) (func : Expr) {args : BuildM (List NodeId)}
    (hargs : GivesValues sz strict closed args) (keywords : List Keyword) (span : Span) :
    GivesValue sz strict closed (call ctx func args keywords span) := by
  intro b
  unfold call
  split
  · exact builds_numericCall hctx _ _ hargs keywords span b
  · exact builds_fail (by rintro ⟨⟩)
  · refine builds_ite (fun _ => ?_) fun _ => builds_fail (by rintro ⟨⟩)
    exact (hargs b).bind fun ids b₁ _ hids => builds_inlineCall hctx _ hids span
  · exact builds_fail (by rintro ⟨⟩)

theorem builds_booleanChain (op : BinOp) (span : Span) {b : FunctionBuilder} {ids : List NodeId}
    (hne : strict → ids ≠ []) (hids : ∀ id ∈ ids, b.Has id) :
    Builds sz strict closed (booleanChain op span ids) b fun id b' => b'.Has id := by
  cases ids with
  | nil => exact fun _ => meets_throw fun hstrict => absurd rfl (hne hstrict)
  | cons first rest =>
    refine builds_applyChain _ (hids first (List.mem_cons_self ..)) fun p hp => ?_
    obtain ⟨id, hid, rfl⟩ := List.mem_map.mp hp
    exact hids id (List.mem_cons_of_mem _ hid)

/-! ## Expressions -/

theorem expr_unary (op : UnOp) (arg : Expr) (span : Span) :
    expr ctx (.unary op arg span) =
      match op, arg with
      | .neg, .int v _ => intConstant (Expr.negateInt v) span
      | .neg, .float v _ => floatConstant (-v) span
      | op, arg => (do
        let arg ← expr ctx arg
        applyUnary op arg span) := by
  cases op <;> cases arg <;> rfl

theorem expr_subscript (target index : Expr) (span : Span) :
    expr ctx (.subscript target index span) =
      match index with
      | .tuple elems _ => do
        let target ← expr ctx target
        let axes ← indexedAxes target elems.length span
        let choices ← axisIndices ctx elems axes span
        readTensor target choices span
      | .slice lower upper step range => do
        let target ← expr ctx target
        let axes ← indexedAxes target 1 span
        let choice ← rangeIndex (optional ctx lower) (optional ctx upper) (optional ctx step)
          (axes.headD (.const 0)) range
        readTensor target [choice] span
      | index => (do
        let target ← expr ctx target
        let _ ← indexedAxes target 1 span
        let choice ← elementIndex (expr ctx index) span
        readTensor target [choice] span) := by
  cases index <;> rfl

theorem axisIndices_cons (e : Expr) (es : List Expr) (axis : Dim) (axes : Shape) (span : Span) :
    axisIndices ctx (e :: es) (axis :: axes) span =
      match e with
      | .slice lower upper step range => do
        let choice ← rangeIndex (optional ctx lower) (optional ctx upper) (optional ctx step) axis
          range
        let choices ← axisIndices ctx es axes span
        pure (choice :: choices)
      | e => (do
        let choice ← elementIndex (expr ctx e) span
        let choices ← axisIndices ctx es axes span
        pure (choice :: choices)) := by
  cases e <;> rfl

/-- A subscript first builds what is indexed, which must have enough axes. -/
theorem builds_subscript {target : BuildM NodeId} {rest : NodeId → Shape → BuildM NodeId}
    {count : Nat} {span : Span} (htarget : GivesValue sz strict closed target)
    (hrest : ∀ {b : FunctionBuilder} {id : NodeId}, b.Has id → b.graph.shape id ≠ [] →
      count ≤ (b.graph.shape id).length → (∀ d ∈ b.graph.shape id, b.HasDim d) →
      Builds sz strict closed (rest id (b.graph.shape id)) b fun id b' => b'.Has id) :
    GivesValue sz strict closed (do
      let id ← target
      let axes ← indexedAxes id count span
      rest id axes) := by
  intro b
  refine (htarget b).bind fun id b₁ _ hid => builds_of_wellFormed fun hb => ?_
  refine (builds_indexedAxes id count span).bind fun axes b₂ _ ⟨hsame, haxes, hne, hcount⟩ => ?_
  subst hsame
  subst haxes
  exact hrest hid hne hcount (hb.hasDim hid)

/-- Indices that were built for the axes of a tensor select from it. -/
theorem builds_select {target : NodeId} {b b' : FunctionBuilder} (h : b.Grown b')
    (htarget : b.Has target) (hshape : b.graph.shape target ≠ []) (choices : List AxisIndex)
    (hlength : choices.length ≤ (b.graph.shape target).length)
    (hchoices : ∀ c ∈ choices, HasIndices b' c.index)
    (hends : ∀ p ∈ (b.graph.shape target).zip choices, EndsAt sz b' p.1 p.2) (span : Span) :
    Builds sz strict closed (readTensor target choices span) b' fun id b' => b'.Has id := by
  have hsame := h.shape_eq htarget
  refine builds_readTensor (h.has htarget) ?_ hchoices ?_ ?_ span
  · rwa [hsame]
  · rwa [hsame]
  · rwa [hsame]

/-- The indices of a subscript select from the axes that they are built for. -/
def SelectsAxes (sz : ElemSize) (strict closed : Prop) (ctx : BuildContext) (es : List Expr) : Prop :=
  ∀ {b : FunctionBuilder} {axes : Shape}, (∀ d ∈ axes, b.HasDim d) → ∀ span,
    Builds sz strict closed (axisIndices ctx es axes span) b fun choices b' =>
      choices.length ≤ axes.length ∧ (∀ c ∈ choices, HasIndices b' c.index) ∧
        ∀ p ∈ axes.zip choices, EndsAt sz b' p.1 p.2

/-- An index that is a range selects from the axis that it is built for. -/
def SelectsRange (sz : ElemSize) (strict closed : Prop) (ctx : BuildContext)
    (lower upper step : Option Expr) : Prop :=
  ∀ {b : FunctionBuilder} {axis : Dim}, b.HasDim axis → ∀ span,
    Builds sz strict closed
      (rangeIndex (optional ctx lower) (optional ctx upper) (optional ctx step) axis span) b
      fun choice b' => HasIndices b' choice.index ∧ EndsAt sz b' axis choice

/-- What building an expression achieves: as a value, and where it stands as an index. -/
structure Built (sz : ElemSize) (strict closed : Prop) (ctx : BuildContext) (e : Expr) : Prop where
  value : GivesValue sz strict closed (expr ctx e)
  tuple : ∀ elems span, e = .tuple elems span → SelectsAxes sz strict closed ctx elems
  range : ∀ lower upper step span, e = .slice lower upper step span →
    SelectsRange sz strict closed ctx lower upper step

/-- An expression that is neither a tuple nor a range. -/
theorem Built.of_value {e : Expr} (value : GivesValue sz strict closed (expr ctx e))
    (htuple : ∀ elems span, e ≠ .tuple elems span)
    (hrange : ∀ lower upper step span, e ≠ .slice lower upper step span) :
    Built sz strict closed ctx e :=
  ⟨value, fun elems span h => absurd h (htuple elems span),
    fun lower upper step span h => absurd h (hrange lower upper step span)⟩

theorem selectsRange {lower upper step : Option Expr}
    (hlower : ∀ e, lower = some e → Built sz strict closed ctx e)
    (hupper : ∀ e, upper = some e → Built sz strict closed ctx e)
    (hstep : ∀ e, step = some e → Built sz strict closed ctx e) :
    SelectsRange sz strict closed ctx lower upper step := by
  have hoptional : ∀ {e : Option Expr}, (∀ e', e = some e' → Built sz strict closed ctx e') →
      ∀ m, optional ctx e = some m → GivesValue sz strict closed m := by
    intro e he m hm
    cases e with
    | none => cases hm
    | some e =>
      obtain rfl := Option.some.inj hm
      exact (he e rfl).value
  intro b axis haxis span
  exact builds_rangeIndex (hoptional hlower) (hoptional hupper) (hoptional hstep) haxis span

theorem selectsAxes {es : List Expr} (h : ∀ e ∈ es, Built sz strict closed ctx e) :
    SelectsAxes sz strict closed ctx es := by
  induction es with
  | nil => exact fun _ _ => builds_pure (by simp)
  | cons e es ih =>
    intro b axes haxes span
    cases axes with
    | nil => cases e <;> exact builds_pure (by simp)
    | cons axis axes =>
      have he := h e (List.mem_cons_self ..)
      -- What the remaining indices do is the same after a range and after an element.
      have hrest : ∀ {b' : FunctionBuilder} {choice : AxisIndex}, b.Grown b' →
          HasIndices b' choice.index → EndsAt sz b' axis choice → Builds sz strict closed (do
            let choices ← axisIndices ctx es axes span
            pure (choice :: choices)) b' fun choices b' =>
              choices.length ≤ (axis :: axes).length ∧ (∀ c ∈ choices, HasIndices b' c.index) ∧
                ∀ p ∈ (axis :: axes).zip choices, EndsAt sz b' p.1 p.2 := by
        intro b' choice hgrown hchoice hend
        refine (ih (fun e he => h e (List.mem_cons_of_mem _ he)) (fun d hd =>
          hgrown.hasDim (haxes d (List.mem_cons_of_mem _ hd))) span).bind
          fun choices b₂ h₂ ⟨hlength, hchoices, hends⟩ =>
            builds_pure ⟨Nat.succ_le_succ hlength, fun c hc => ?_, fun p hp => ?_⟩
        · rcases List.mem_cons.mp hc with rfl | hc
          · exact hchoice.grow h₂
          · exact hchoices c hc
        · rcases List.mem_cons.mp hp with rfl | hp
          · exact hend.grow h₂
          · exact hends p hp
      rw [axisIndices_cons]
      split
      · exact (he.range _ _ _ _ rfl (haxes _ (List.mem_cons_self ..)) _).bind
          fun choice b₁ h₁ hchoice => hrest h₁ hchoice.1 hchoice.2
      · exact (builds_elementIndex he.value span).bind
          fun choice b₁ h₁ hchoice => hrest h₁ hchoice.1 hchoice.2

theorem builds_exprs {es : List Expr} (h : ∀ e ∈ es, Built sz strict closed ctx e) :
    ∀ b, Builds sz strict closed (exprs ctx es) b fun ids b' =>
      ids.length = es.length ∧ ∀ id ∈ ids, b'.Has id := by
  induction es with
  | nil => exact fun b => builds_pure (by simp)
  | cons e es ih =>
    intro b
    refine ((h e (List.mem_cons_self ..)).value b).bind fun id b₁ h₁ hid => ?_
    refine (ih (fun e he => h e (List.mem_cons_of_mem _ he)) b₁).bind fun ids b₂ h₂ hids => ?_
    refine builds_pure ⟨by simp [hids.1], fun id' hid' => ?_⟩
    rcases List.mem_cons.mp hid' with rfl | hid'
    · exact h₂.has hid
    · exact hids.2 id' hid'

mutual

/-- Building an expression gives a value, and fails with no internal error if none is permitted. -/
theorem built (hctx : ctx.Sound sz strict closed) : (e : Expr) → (strict → e.BooleansNonempty) →
    Built sz strict closed ctx e
  | .name id span, _ => by
    refine .of_value (fun b => ?_) nofun nofun
    refine builds_get_bind (builds_of_wellFormed fun hb => ?_)
    split
    · next node hnode => exact builds_pure (hb.has_resolve hnode)
    · exact builds_fail (by rintro ⟨⟩)
  | .int v span, _ =>
    .of_value (fun b => (builds_intConstant v span).mono fun _ _ _ h => h.1.avail) nofun nofun
  | .float v span, _ => .of_value (fun b => builds_floatConstant v span) nofun nofun
  | .bool v _, _ => .of_value (fun b => (builds_addConstant (by nofun)).mono fun _ _ _ h => h.1) nofun nofun
  | .string _ _, _ => .of_value (fun b => builds_fail (by rintro ⟨⟩)) nofun nofun
  | .nothing _, _ => .of_value (fun b => builds_fail (by rintro ⟨⟩)) nofun nofun
  | .unary op arg span, h => by
    have harg := (built hctx arg h).value
    refine .of_value (fun b => ?_) nofun nofun
    rw [expr_unary]
    split
    · exact (builds_intConstant _ _).mono fun _ _ _ h => h.1.avail
    · exact builds_floatConstant _ _
    · exact (harg b).bind fun id b₁ _ hid => builds_applyUnary op hid span
  | .binary lhs op rhs span, h => by
    have hlhs := (built hctx lhs fun hs => (h hs).1).value
    have hrhs := (built hctx rhs fun hs => (h hs).2).value
    refine .of_value (fun b => ?_) nofun nofun
    refine (hlhs b).bind fun l b₁ h₁ hl => (hrhs b₁).bind fun r b₂ h₂ hr => ?_
    exact (builds_applyBinary op (h₂.has hl) hr span).mono fun _ _ _ h => h.1
  | .boolean op operands span, h => by
    have hall := builts hctx operands fun hs => (h hs).2
    refine .of_value (fun b => (builds_exprs hall b).bind fun ids b₁ _ hids => ?_) nofun nofun
    refine builds_booleanChain op span (fun hs hnil => (h hs).1 ?_) hids.2
    rw [← List.length_eq_zero_iff, ← hids.1, hnil]
    rfl
  | .compare lhs ops comparators span, h => by
    have hlhs := (built hctx lhs fun hs => (h hs).1).value
    have hall := builts hctx comparators fun hs => (h hs).2
    refine .of_value (fun b => ?_) nofun nofun
    refine (hlhs b).bind fun l b₁ h₁ hl => (builds_exprs hall b₁).bind fun ids b₂ h₂ hids => ?_
    exact builds_applyChain _ (h₂.has hl) fun p hp => hids.2 p.2 (List.of_mem_zip hp).2
  -- The target is a tensor with axes to choose from; each form of index then selects some of them.
  | .subscript target index span, h => by
    have htarget := (built hctx target fun hs => (h hs).1).value
    have hindex := built hctx index fun hs => (h hs).2
    refine .of_value ?_ nofun nofun
    rw [expr_subscript]
    split
    · exact builds_subscript htarget fun hid hne hcount haxes =>
        (hindex.tuple _ _ rfl haxes span).bind fun choices b₁ h₁ ⟨hlength, hchoices, hends⟩ =>
          builds_select h₁ hid hne choices hlength hchoices hends span
    · refine builds_subscript htarget fun {b id} hid hne hcount haxes => ?_
      cases hshape : b.graph.shape id with
      | nil => exact absurd hshape hne
      | cons d ds =>
        have hd : b.HasDim d := haxes d (by rw [hshape]; exact List.mem_cons_self ..)
        refine (hindex.range _ _ _ _ rfl hd _).bind fun choice b₁ h₁ ⟨hchoice, hend⟩ =>
          builds_select h₁ hid hne [choice] hcount (by simpa using hchoice) ?_ span
        rw [hshape]
        simpa using hend
    · refine builds_subscript htarget fun {b id} hid hne hcount haxes =>
        (builds_elementIndex hindex.value span).bind fun choice b₁ h₁ ⟨hchoice, hend⟩ =>
          builds_select h₁ hid hne [choice] hcount (by simpa using hchoice) (fun p hp => ?_) span
      rw [List.mem_singleton.mp (List.of_mem_zip hp).2]
      exact hend
  | .slice lower upper step span, h => by
    have hlower := builtOption hctx lower fun hs => (h hs).1
    have hupper := builtOption hctx upper fun hs => (h hs).2.1
    have hstep := builtOption hctx step fun hs => (h hs).2.2
    refine ⟨fun b => builds_fail (by rintro ⟨⟩), nofun, fun _ _ _ _ heq => ?_⟩
    obtain ⟨rfl, rfl, rfl, rfl⟩ := Expr.slice.inj heq
    exact selectsRange hlower hupper hstep
  | .tuple elems span, h => by
    have hall := builts hctx elems h
    refine ⟨fun b => builds_fail (by rintro ⟨⟩), fun _ _ heq => ?_, nofun⟩
    obtain ⟨rfl, rfl⟩ := Expr.tuple.inj heq
    exact selectsAxes hall
  | .member _ _ _, _ => .of_value (fun b => builds_fail (by rintro ⟨⟩)) nofun nofun
  | .call func args keywords span, h => by
    have hall := builts hctx args h
    refine .of_value (builds_call hctx func (fun b => ?_) keywords span) nofun nofun
    exact (builds_exprs hall b).mono fun _ _ _ hids => hids.2
  | .unsupported _ _, _ => .of_value (fun b => builds_fail (by rintro ⟨⟩)) nofun nofun
termination_by structural e => e

theorem builts (hctx : ctx.Sound sz strict closed) : (es : List Expr) →
    (strict → Expr.AllBooleansNonempty es) → ∀ e ∈ es, Built sz strict closed ctx e
  | [], _ => by simp
  | e :: es, h => by
    have hhead := built hctx e fun hs => (h hs).1
    have htail := builts hctx es fun hs => (h hs).2
    exact List.forall_mem_cons.mpr ⟨hhead, htail⟩
termination_by structural es => es

theorem builtOption (hctx : ctx.Sound sz strict closed) : (e : Option Expr) →
    (strict → Expr.OptionBooleansNonempty e) → ∀ e', e = some e' → Built sz strict closed ctx e'
  | none, _ => by simp
  | some e, h => by
    have he := built hctx e h
    intro e' heq
    rw [← Option.some.inj heq]
    exact he
termination_by structural e => e

end

end BuildM

end TensorKernel
