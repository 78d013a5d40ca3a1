import TensorKernel.Proofs.Build.Matching
import TensorKernel.Proofs.Build.Registry
import TensorKernel.Proofs.Source.Renaming

/-!
# Building with renamed variables

Where the new names of variables are different again, and where no parameter and no shape symbol gets
another name, building an expression, a statement or a function matches building it with its variables
renamed.  The names of variables are looked up and bound, and they are shown in errors and in the names
of nodes; nothing else depends on them.
-/

namespace TensorKernel

namespace FunctionGraph.Alike

variable {g g' : FunctionGraph}

theorem inputs_eq (h : g.Alike g') : g'.inputs = g.inputs :=
  (congrArg FunctionGraph.inputs h).symm

theorem outputs_eq (h : g.Alike g') : g'.outputs = g.outputs :=
  (congrArg FunctionGraph.outputs h).symm

theorem symbols_eq (h : g.Alike g') : g'.symbols = g.symbols :=
  (congrArg FunctionGraph.symbols h).symm

theorem canInline_eq (h : g.Alike g') : g'.canInline = g.canInline :=
  (congrArg FunctionGraph.canInline h).symm

theorem graph (h : g.Alike g') : g.graph.Alike g'.graph :=
  congrArg FunctionGraph.graph h

end FunctionGraph.Alike

/-- Calls that are answered alike from caches that are alike. -/
def AnswersAlike (m m' : CacheM FunctionGraph) : Prop :=
  ∀ cache cache' : GraphCache, cache.Alike cache' →
    (BuildM.runCall m cache).2.Alike (BuildM.runCall m' cache').2 ∧
      Coincide FunctionGraph.Alike (BuildM.runCall m cache).1 (BuildM.runCall m' cache').1

/-- Contexts in which all calls are answered alike. -/
structure BuildContext.Alike (ctx ctx' : BuildContext) : Prop where
  options : ctx'.options = ctx.options
  library : ctx'.library = ctx.library
  call : ∀ id types span, AnswersAlike (ctx.call id types span) (ctx'.call id types span)

namespace BuildM

variable {α : Type} {ρ : String → String} {ctx ctx' : BuildContext}

/-! ## Calls -/

theorem same_keywordValues (keywords : List Keyword) :
    ∀ values, Same ρ (keywordValues keywords values)
      (keywordValues (Expr.renameKeywords ρ keywords) values) := by
  induction keywords with
  | nil => exact same_pure
  | cons keyword rest ih =>
    obtain ⟨id, value, span⟩ := keyword
    intro values
    simp only [keywordValues, Expr.renameKeywords, Keyword.value, Expr.integerLiteral?_rename]
    split
    · exact matches_ite Iff.rfl (ih _) (matches_fail _ _ _ _)
    · exact matches_fail _ _ _ _

/-- A function of a package extends graphs that are alike alike. -/
theorem coincide_apply (f : Reduction) {g g' : Graph} (h : g.Alike g') (args : List NodeId)
    (keywords : Table String Int64) :
    Coincide (fun p p' => p.1 = p'.1 ∧ p.2.Alike p'.2) (f.apply g args keywords)
      (f.apply g' args keywords) := by
  unfold Reduction.apply
  split
  · next arg =>
    simp only [h.isScalar, h.shape, h.elemSize]
    split
    · trivial
    · cases f.axes (g.shape arg).length keywords with
      | error fault => trivial
      | ok dims =>
        cases hneutral : f.op.neutralElement? (f.op.accumulatorSize (g.elemSize _)) with
        | none => trivial
        | some init =>
          have hblind := Graph.blind_applyReduction f.op arg dims
            (f.op.accumulatorSize (g.elemSize arg)) init
          exact h.blind hblind
  · trivial

theorem same_numericCall (hctx : ctx.Alike ctx') {args args' : BuildM (List NodeId)}
    (h : Same ρ args args') (package name : String) (keywords : List Keyword) (span : Span) :
    Same ρ (numericCall ctx package name args keywords span)
      (numericCall ctx' package name args' (Expr.renameKeywords ρ keywords) span) := by
  unfold numericCall
  rw [hctx.library]
  refine (same_ofExcept _ _).bind fun f => (same_keywordValues _ _).bind fun values =>
    h.bind fun ids => matches_get_bind fun b b' halike => ?_
  refine (matches_ofExcept (coincide_apply f halike.graph ids values)).bind fun p p' ⟨hid, hgraph⟩ => ?_
  refine (same_modify fun c c' hc => hc.withGraph hgraph).bind fun _ => ?_
  exact matches_pure hid

theorem same_copyArguments (r : Relocation) (params : List (String × NodeId)) :
    ∀ args, Same ρ (copyArguments r params args) (copyArguments r params args) := by
  induction params with
  | nil => exact fun _ => same_pure _
  | cons param params ih =>
    intro args
    cases args with
    | nil => exact same_pure _
    | cons arg args => exact (same_addOp _ _ _).bind fun _ => ih args

theorem same_copySymbols (function : String) (r : Relocation) (bound : SymbolBinding) (span : Span)
    (entries : List (String × ShapeSymbol)) :
    Same ρ (copySymbols function r bound span entries) (copySymbols function r bound span entries) := by
  induction entries with
  | nil => exact same_pure _
  | cons entry rest ih =>
    unfold copySymbols
    split
    · exact (same_dimNode _ _).bind fun _ => (same_addOp _ _ _).bind fun _ => ih
    · exact matches_throw _ _

theorem same_spliceCall {callee callee' : FunctionGraph} (h : callee.Alike callee')
    (function : String) (args : List NodeId) (bound : SymbolBinding) (span : Span) :
    Same ρ (spliceCall callee function args bound span)
      (spliceCall callee' function args bound span) := by
  refine matches_get_bind fun b b' halike => ?_
  simp only [halike.graph.relocation, h.inputs_eq, h.symbols_eq, h.outputs_eq]
  refine (same_onGraph fun _ _ hg => hg.splice h.graph _).bind fun _ => ?_
  refine (same_copyArguments _ _ _).bind fun _ => (same_copySymbols _ _ _ _ _).bind fun _ => ?_
  split
  · exact same_pure _
  · exact matches_throw _ _

theorem same_inlineCall (hctx : ctx.Alike ctx') (function : String) (args : List NodeId) (span : Span) :
    Same ρ (inlineCall ctx function args span) (inlineCall ctx' function args span) := by
  refine matches_get_bind fun b b' halike => ?_
  have htypes : args.map b'.graph.type = args.map b.graph.type :=
    List.map_congr_left fun id _ => halike.type id
  simp only [htypes]
  refine (matches_lift (hctx.call function _ span)).bind fun callee callee' hcallee => ?_
  simp only [hcallee.canInline_eq, hcallee.inputs_eq, hcallee.graph.type]
  exact matches_ite Iff.rfl (matches_fail _ _ _ _) <| matches_ite Iff.rfl (matches_fail _ _ _ _) <|
    (same_ofExcept _ _).bind fun bound => same_spliceCall hcallee _ _ _ _

theorem same_kernelCall (hctx : ctx.Alike ctx') {args args' : BuildM (List NodeId)}
    (h : Same ρ args args') (id : String) (keywords : List Keyword) (span : Span) :
    Same ρ (kernelCall ctx id args keywords span)
      (kernelCall ctx' id args' (Expr.renameKeywords ρ keywords) span) := by
  refine matches_ite ?_ (h.bind fun _ => same_inlineCall hctx _ _ _) (matches_fail _ _ _ _)
  cases keywords with
  | nil => rfl
  | cons keyword rest =>
    obtain ⟨id, value, span⟩ := keyword
    simp [Expr.renameKeywords]

/-- What names no function and no member of a package cannot be called. -/
theorem exists_call_eq_fail (ctx : BuildContext) {func : Expr} (h : func.isReference = false)
    (args : BuildM (List NodeId)) (keywords : List Keyword) (span : Span) :
    ∃ fault, call ctx func args keywords span = fail span fault := by
  unfold call
  split
  · cases h
  · exact ⟨_, rfl⟩
  · cases h
  · exact ⟨_, rfl⟩

theorem same_call (hctx : ctx.Alike ctx') (func : Expr) {args args' : BuildM (List NodeId)}
    (h : Same ρ args args') (keywords : List Keyword) (span : Span) :
    Same ρ (call ctx func args keywords span)
      (call ctx' (if func.isReference then func else func.rename ρ) args'
        (Expr.renameKeywords ρ keywords) span) := by
  cases hreference : func.isReference with
  | true =>
    rw [if_pos rfl]
    unfold call
    split
    · exact same_numericCall hctx h _ _ _ _
    · exact matches_fail _ _ _ _
    · exact same_kernelCall hctx h _ _ _
    · exact matches_fail _ _ _ _
  | false =>
    rw [if_neg Bool.false_ne_true]
    obtain ⟨fault, hfail⟩ := exists_call_eq_fail ctx hreference args keywords span
    obtain ⟨fault', hfail'⟩ := exists_call_eq_fail ctx' ((func.isReference_rename ρ).trans hreference)
      args' (Expr.renameKeywords ρ keywords) span
    rw [hfail, hfail']
    exact matches_fail _ _ _ _

/-! ## Expressions -/

/-- An expression that matches itself with its variables renamed: as a value, and as an index. -/
structure Renames (ρ : String → String) (ctx ctx' : BuildContext) (e : Expr) : Prop where
  value : Same ρ (expr ctx e) (expr ctx' (e.rename ρ))
  tuple : ∀ elems span, e = .tuple elems span → ∀ axes span,
    Same ρ (axisIndices ctx elems axes span) (axisIndices ctx' (Expr.renames ρ elems) axes span)
  range : ∀ lower upper step span, e = .slice lower upper step span → ∀ axis span,
    Same ρ (rangeIndex (optional ctx lower) (optional ctx upper) (optional ctx step) axis span)
      (rangeIndex (optional ctx' (Expr.renameOption ρ lower)) (optional ctx' (Expr.renameOption ρ upper))
        (optional ctx' (Expr.renameOption ρ step)) axis span)

theorem Renames.of_value {e : Expr} (value : Same ρ (expr ctx e) (expr ctx' (e.rename ρ)))
    (htuple : ∀ elems span, e ≠ .tuple elems span)
    (hrange : ∀ lower upper step span, e ≠ .slice lower upper step span) : Renames ρ ctx ctx' e :=
  ⟨value, fun elems span h => absurd h (htuple elems span),
    fun lower upper step span h => absurd h (hrange lower upper step span)⟩

theorem sameOption_optional {e : Option Expr} (h : ∀ e', e = some e' → Renames ρ ctx ctx' e') :
    SameOption ρ (optional ctx e) (optional ctx' (Expr.renameOption ρ e)) := by
  cases e with
  | none => exact .none
  | some e => exact .some (h e rfl).value

theorem same_axisIndices {es : List Expr} (h : ∀ e ∈ es, Renames ρ ctx ctx' e) :
    ∀ axes span, Same ρ (axisIndices ctx es axes span)
      (axisIndices ctx' (Expr.renames ρ es) axes span) := by
  induction es with
  | nil => exact fun _ _ => same_pure _
  | cons e es ih =>
    intro axes span
    obtain ⟨he, hes⟩ := List.forall_mem_cons.mp h
    cases axes with
    | nil => cases e <;> exact same_pure _
    | cons axis axes =>
      have hrest (choice : AxisIndex) :
          Same ρ (do
            let choices ← axisIndices ctx es axes span
            pure (choice :: choices)) (do
            let choices ← axisIndices ctx' (Expr.renames ρ es) axes span
            pure (choice :: choices)) :=
        (ih hes axes span).bind fun _ => same_pure _
      rw [Expr.renames, axisIndices_cons, axisIndices_cons]
      cases e with
      | slice => exact (he.range _ _ _ _ rfl _ _).bind hrest
      | _ => exact (same_elementIndex he.value _).bind hrest

theorem same_exprs {es : List Expr} (h : ∀ e ∈ es, Renames ρ ctx ctx' e) :
    Same ρ (exprs ctx es) (exprs ctx' (Expr.renames ρ es)) := by
  induction es with
  | nil => exact same_pure _
  | cons e es ih =>
    obtain ⟨he, hes⟩ := List.forall_mem_cons.mp h
    exact he.value.bind fun _ => (ih hes).bind fun _ => same_pure _

mutual

/-- Building an expression matches building it with its variables renamed. -/
theorem renames (hctx : ctx.Alike ctx') : ∀ e : Expr, Renames ρ ctx ctx' e
  | .name id span => by
    refine .of_value (matches_get_bind fun b b' h => ?_) nofun nofun
    rw [h.resolve?]
    split
    · exact same_pure _
    · exact matches_fail _ _ _ _
  | .int v span => .of_value (same_intConstant v span) nofun nofun
  | .float v span => .of_value (same_floatConstant v span) nofun nofun
  | .bool v _ => .of_value (same_addConstant _ _) nofun nofun
  | .string _ _ => .of_value (matches_fail _ _ _ _) nofun nofun
  | .nothing _ => .of_value (matches_fail _ _ _ _) nofun nofun
  | .unary op arg span => by
    have harg : Same ρ (expr ctx arg >>= fun id => applyUnary op id span)
        (expr ctx' (arg.rename ρ) >>= fun id => applyUnary op id span) :=
      (renames hctx arg).value.bind fun _ => same_applyUnary _ _ _
    refine .of_value ?_ nofun nofun
    rw [Expr.rename, expr_unary, expr_unary]
    -- A negated literal is one constant; renaming does not change whether the operand is one.
    cases op with
    | neg =>
      cases arg with
      | int v => exact same_intConstant _ _
      | float v => exact same_floatConstant _ _
      | _ => exact harg
    | _ => exact harg
  | .binary lhs op rhs span =>
    .of_value ((renames hctx lhs).value.bind fun _ => (renames hctx rhs).value.bind fun _ =>
      same_applyBinary _ _ _ _) nofun nofun
  | .boolean op operands span =>
    .of_value ((same_exprs (renamesAll hctx operands)).bind fun _ => same_booleanChain _ _ _) nofun nofun
  | .compare lhs ops comparators span =>
    .of_value ((renames hctx lhs).value.bind fun _ =>
      (same_exprs (renamesAll hctx comparators)).bind fun _ => same_applyChain _ _ _) nofun nofun
  | .subscript target index span => by
    have htarget := (renames hctx target).value
    have hindex := renames hctx index
    refine .of_value ?_ nofun nofun
    rw [Expr.rename, expr_subscript, expr_subscript]
    cases index with
    | tuple elems =>
      have hlength : (Expr.renames ρ elems).length = elems.length := by
        rw [Expr.renames_eq_map, List.length_map]
      simp only [Expr.rename, hlength]
      exact htarget.bind fun _ => (same_indexedAxes _ _ _).bind fun axes =>
        (hindex.tuple _ _ rfl axes span).bind fun _ => same_readTensor _ _ _
    | slice =>
      exact htarget.bind fun _ => (same_indexedAxes _ _ _).bind fun axes =>
        (hindex.range _ _ _ _ rfl _ _).bind fun _ => same_readTensor _ _ _
    | _ =>
      exact htarget.bind fun _ => (same_indexedAxes _ _ _).bind fun _ =>
        (same_elementIndex hindex.value _).bind fun _ => same_readTensor _ _ _
  | .slice lower upper step span => by
    have hlower := sameOption_optional (renamesOption hctx lower)
    have hupper := sameOption_optional (renamesOption hctx upper)
    have hstep := sameOption_optional (renamesOption hctx step)
    refine ⟨matches_fail _ _ _ _, nofun, ?_⟩
    rintro _ _ _ _ ⟨⟩
    exact same_rangeIndex hlower hupper hstep
  | .tuple elems span => by
    have helems := renamesAll hctx elems
    refine ⟨matches_fail _ _ _ _, ?_, nofun⟩
    rintro _ _ ⟨⟩
    exact same_axisIndices helems
  | .member _ _ _ => .of_value (matches_fail _ _ _ _) nofun nofun
  | .call func args keywords span =>
    .of_value (same_call hctx func (same_exprs (renamesAll hctx args)) keywords span) nofun nofun
  | .unsupported _ _ => .of_value (matches_fail _ _ _ _) nofun nofun
termination_by structural e => e

theorem renamesAll (hctx : ctx.Alike ctx') : ∀ es : List Expr, ∀ e ∈ es, Renames ρ ctx ctx' e
  | [] => nofun
  | e :: es => List.forall_mem_cons.mpr ⟨renames hctx e, renamesAll hctx es⟩
termination_by structural es => es

theorem renamesOption (hctx : ctx.Alike ctx') :
    ∀ e : Option Expr, ∀ e', e = some e' → Renames ρ ctx ctx' e'
  | none => nofun
  | some e => fun _ h => Option.some.inj h ▸ renames hctx e
termination_by structural e => e

end

theorem same_expr (hctx : ctx.Alike ctx') (e : Expr) : Same ρ (expr ctx e) (expr ctx' (e.rename ρ)) :=
  (renames hctx e).value

end BuildM

end TensorKernel
