import TensorKernel.Proofs.Graph.Appending
import TensorKernel.Proofs.Source.Denotation

/-!
# Steps that append

Whatever the builder holds, a step that builds an expression leaves all of it as it is, except that
it appends to the graph.  A call puts the graph of the callee behind, and lets copies compute the
callee's parameters and symbols; these are nodes of the copy, so nothing before it is touched.

Nothing is asked of the builder, of the context, or of the graphs that calls are given.
-/

namespace TensorKernel

/-- The second builder is the first one with more of a graph. -/
structure FunctionBuilder.Appends (b b' : FunctionBuilder) : Prop where
  eq : b' = { b with graph := b'.graph }
  graph : b.graph.Appends b'.graph

namespace FunctionBuilder.Appends

variable {b b' b'' : FunctionBuilder}

theorem refl (b : FunctionBuilder) : b.Appends b := ⟨rfl, .refl _⟩

theorem trans (h : b.Appends b') (h' : b'.Appends b'') : b.Appends b'' where
  eq := by rw [h'.eq, h.eq]
  graph := h.graph.trans h'.graph

theorem withGraph (h : b.Appends b') {g : Graph} (hg : b.graph.Appends g) :
    b.Appends { b' with graph := g } where
  eq := congrArg (fun b : FunctionBuilder => { b with graph := g }) h.eq
  graph := hg

end FunctionBuilder.Appends

namespace BuildM

variable {α β : Type} {ctx : BuildContext}

theorem Yields.of_run {m : BuildM α} {b b' : FunctionBuilder} {a : α} {cache after : GraphCache}
    {Q : α → FunctionBuilder → Prop} (h : Yields m b Q)
    (hrun : run m b cache = (.ok (a, b'), after)) : Q a b' := by
  have hresult := (h cache trivial).2
  rwa [hrun] at hresult

/-- A composed step succeeds if both of its parts do. -/
theorem exists_of_run_bind {m : BuildM α} {f : α → BuildM β} {b b'' : FunctionBuilder} {x : β}
    {cache after : GraphCache} (h : run (m >>= f) b cache = (.ok (x, b''), after)) :
    ∃ a b' between, run m b cache = (.ok (a, b'), between) ∧
      run (f a) b' between = (.ok (x, b''), after) := by
  rw [run_bind] at h
  cases hm : run m b cache with
  | mk result between =>
    rw [hm] at h
    cases result with
    | ok p => exact ⟨p.1, p.2, between, rfl, h⟩
    | error err => cases h

theorem yields_throw {b : FunctionBuilder} {err : BuildError} {Q : α → FunctionBuilder → Prop} :
    Yields (throw err : BuildM α) b Q :=
  meets_throw False.elim

theorem yields_ofExcept {b : FunctionBuilder} {span : Span} {r : Except BuildFault α}
    {Q : α → FunctionBuilder → Prop} (h : ∀ a, r = .ok a → Q a b) :
    Yields (ofExcept span r) b Q := by
  cases r with
  | ok a => exact meets_pure (h a rfl)
  | error fault => exact yields_throw

/-- What is provided for a call changes nothing of the builder. -/
theorem yields_lift {b : FunctionBuilder} {m : CacheM α} {Q : α → FunctionBuilder → Prop}
    (h : ∀ a, Q a b) : Yields (monadLift m : BuildM α) b Q :=
  meets_lift (P := fun _ => True) (fun _ _ => ⟨trivial, fun _ _ => trivial⟩) (fun _ _ _ _ => False.elim)
    fun a _ => h a

/-- A step that leaves every builder as it is, but for what it appends to the graph. -/
def Appends (m : BuildM α) : Prop :=
  ∀ b, Yields m b fun _ b' => b.Appends b'

/-! ## Rules -/

theorem Appends.bind {m : BuildM α} {f : α → BuildM β} (hm : Appends m) (hf : ∀ a, Appends (f a)) :
    Appends (m >>= f) :=
  fun b => (hm b).bind fun a b' h => (hf a b').mono fun _ _ h' => h.trans h'

theorem Appends.yields {m : BuildM α} {f : α → BuildM β} {b : FunctionBuilder}
    {Q : β → FunctionBuilder → Prop} (hm : Appends m)
    (hf : ∀ a b', b.Appends b' → Yields (f a) b' Q) : Yields (m >>= f) b Q :=
  (hm b).bind hf

theorem Appends.of_run {m : BuildM α} (h : Appends m) {b b' : FunctionBuilder} {a : α}
    {cache after : GraphCache} (hrun : run m b cache = (.ok (a, b'), after)) : b.Appends b' :=
  (h b : Yields m b fun _ b' => b.Appends b').of_run hrun

theorem appends_pure (a : α) : Appends (pure a : BuildM α) :=
  fun b => meets_pure (.refl b)

theorem appends_get_bind {f : FunctionBuilder → BuildM α} (h : ∀ b, Appends (f b)) :
    Appends (get >>= f) :=
  fun b => meets_get_bind (h b b)

theorem appends_throw (err : BuildError) : Appends (throw err : BuildM α) :=
  fun _ => yields_throw

theorem appends_fail (span : Span) (fault : BuildFault) : Appends (fail span fault : BuildM α) :=
  appends_throw _

theorem appends_failInternal (fault : BuildFault) : Appends (failInternal fault : BuildM α) :=
  appends_throw _

theorem appends_ofExcept (span : Span) (r : Except BuildFault α) : Appends (ofExcept span r) :=
  fun b => yields_ofExcept fun _ _ => .refl b

theorem appends_ite {c : Prop} [Decidable c] {m m' : BuildM α} (hthen : Appends m)
    (helse : Appends m') : Appends (if c then m else m') := by
  split
  · exact hthen
  · exact helse

theorem appends_lift (m : CacheM α) : Appends (monadLift m : BuildM α) :=
  fun b => yields_lift fun _ => .refl b

theorem appends_onGraph {f : Graph → α × Graph} (h : ∀ g : Graph, g.Appends (f g).2) :
    Appends (onGraph f) :=
  fun b => meets_onGraph ⟨rfl, h b.graph⟩

/-! ## Operands -/

theorem appends_addConstant (v : Literal) (sz : ElemSize) :
    Appends (onGraph fun g => g.addConstant v sz) :=
  appends_onGraph fun g => (Graph.Appends.refl g).addNode _ _

theorem appends_intConstant (v : Int) (span : Span) : Appends (intConstant v span) := by
  unfold intConstant
  split
  · exact appends_addConstant _ _
  · exact appends_fail _ _

theorem appends_floatConstant (v : Float) (span : Span) : Appends (floatConstant v span) := by
  unfold floatConstant
  split
  · exact appends_addConstant _ _
  · exact appends_fail _ _

theorem appends_applyUnary (op : UnOp) (arg : NodeId) (span : Span) :
    Appends (applyUnary op arg span) :=
  appends_get_bind fun _ => appends_ite (appends_fail _ _) <| appends_ite (appends_fail _ _) <|
    appends_onGraph fun g => g.appends_applyUnary _ _ _

theorem appends_resultShape (op : BinOp) (l r : KernelType) (span : Span) :
    Appends (resultShape op l r span) := by
  refine appends_ite (appends_pure _) ?_
  split
  · exact appends_pure _
  · exact appends_fail _ _

theorem appends_applyBinary (op : BinOp) (lhs rhs : NodeId) (span : Span) :
    Appends (applyBinary op lhs rhs span) :=
  appends_get_bind fun _ => appends_ite (appends_fail _ _) <|
    (appends_resultShape _ _ _ _).bind fun _ => appends_onGraph fun g => g.appends_applyBinary _ _ _ _ _

theorem appends_applyChain (span : Span) (rest : List (BinOp × NodeId)) :
    ∀ lhs, Appends (applyChain lhs span rest) := by
  induction rest with
  | nil => exact appends_pure
  | cons entry rest ih =>
    exact fun lhs => appends_get_bind fun _ => appends_ite
      ((appends_applyBinary _ _ _ _).bind fun result => ih result) (appends_fail _ _)

theorem appends_dimNode (d : Dim) (span : Span) : Appends (dimNode d span) := by
  cases d with
  | const n => exact appends_intConstant n span
  | sym name =>
    refine appends_get_bind fun b => ?_
    cases b.symbols.get? name with
    | some symbol => exact appends_pure _
    | none => exact appends_failInternal _
  | node id => exact appends_pure id

theorem appends_requireIndex (id : NodeId) (span : Span) : Appends (requireIndex id span) :=
  appends_get_bind fun _ => appends_ite (appends_pure _) (appends_fail _ _)

theorem appends_elementIndex {value : BuildM NodeId} (h : Appends value) (span : Span) :
    Appends (elementIndex value span) :=
  h.bind fun _ => (appends_requireIndex _ _).bind fun _ => appends_pure _

/-- A bound of a range that is built, or left out. -/
def AppendsAll (m : Option (BuildM NodeId)) : Prop :=
  ∀ value ∈ m, Appends value

theorem AppendsAll.getD {m : Option (BuildM NodeId)} (h : AppendsAll m) {value : BuildM NodeId}
    (hvalue : Appends value) : Appends (m.getD value) := by
  cases m with
  | none => exact hvalue
  | some m => exact h m rfl

theorem appends_rangeIndex {lower upper step : Option (BuildM NodeId)} (hlower : AppendsAll lower)
    (hupper : AppendsAll upper) (hstep : AppendsAll step) (axis : Dim) (span : Span) :
    Appends (rangeIndex lower upper step axis span) :=
  (hlower.getD (appends_addConstant _ _)).bind fun _ =>
    (hupper.getD (appends_dimNode _ _)).bind fun _ =>
      (hstep.getD (appends_addConstant _ _)).bind fun _ =>
        (appends_requireIndex _ _).bind fun _ => (appends_requireIndex _ _).bind fun _ =>
          (appends_requireIndex _ _).bind fun _ => appends_get_bind fun _ =>
            appends_ite (appends_fail _ _) (appends_pure _)

theorem appends_sliceSize (choice : AxisIndex) (axis : Dim) (span : Span) :
    Appends (sliceSize choice axis span) := by
  obtain ⟨index, toEnd⟩ := choice
  cases index with
  | element id => exact appends_pure _
  | range lower upper step =>
    refine appends_get_bind fun b => ?_
    dsimp only
    split
    · exact appends_ite (appends_pure _) (appends_fail _ _)
    · exact appends_ite (appends_pure _) <| (appends_intConstant _ _).bind fun _ =>
        (appends_applyBinary _ _ _ _).bind fun _ => (appends_applyBinary _ _ _ _).bind fun _ =>
          (appends_applyBinary _ _ _ _).bind fun _ => (appends_applyBinary _ _ _ _).bind fun _ =>
            appends_pure _

theorem appends_sliceSizes (span : Span) (choices : List AxisIndex) :
    ∀ axes, Appends (sliceSizes span choices axes) := by
  induction choices with
  | nil => exact fun _ => appends_pure _
  | cons choice choices ih =>
    intro axes
    cases axes with
    | nil => exact appends_pure _
    | cons axis axes =>
      exact (appends_sliceSize _ _ _).bind fun _ => (ih axes).bind fun _ => appends_pure _

theorem appends_indexedAxes (target : NodeId) (count : Nat) (span : Span) :
    Appends (indexedAxes target count span) :=
  appends_get_bind fun _ => appends_ite (appends_fail _ _) <| appends_ite (appends_fail _ _) <|
    appends_pure _

theorem appends_readTensor (target : NodeId) (choices : List AxisIndex) (span : Span) :
    Appends (readTensor target choices span) :=
  appends_get_bind fun _ => appends_ite
    (appends_onGraph fun g => (Graph.Appends.refl g).compute _ _ _ _)
    ((appends_sliceSizes _ _ _).bind fun _ =>
      appends_onGraph fun g => (Graph.Appends.refl g).compute _ _ _ _)

/-! ## Calls -/

theorem appends_keywordValues (keywords : List Keyword) :
    ∀ values, Appends (keywordValues keywords values) := by
  induction keywords with
  | nil => exact appends_pure
  | cons keyword rest ih =>
    intro values
    unfold keywordValues
    split
    · exact appends_ite (ih _) (appends_fail _ _)
    · exact appends_fail _ _

theorem appends_numericCall {args : BuildM (List NodeId)} (h : Appends args) (package name : String)
    (keywords : List Keyword) (span : Span) :
    Appends (numericCall ctx package name args keywords span) := by
  refine (appends_ofExcept _ _).bind fun f => (appends_keywordValues _ _).bind fun values =>
    h.bind fun ids => fun b => meets_get_bind ?_
  refine (yields_ofExcept (Q := fun result b' => b' = b ∧ b.graph.Appends result.2) fun result hok =>
    ⟨rfl, Reduction.appends_apply hok⟩).bind fun result b' ⟨hsame, hgraph⟩ => ?_
  subst hsame
  exact (meets_modify (Q := fun _ b'' => b'.Appends b'') ⟨rfl, hgraph⟩).bind fun _ b'' h =>
    meets_pure h

section Inline

variable {r : Relocation} {b₀ : FunctionBuilder} (hr : b₀.graph.nodes.size ≤ r.nodes)
include hr

/-- An operator that computes a node of the copy. -/
theorem yields_addCopy {f : OpId → BuildM α} {Q : α → FunctionBuilder → Prop} {b : FunctionBuilder}
    (h : b₀.Appends b) (src dst : NodeId) (hf : ∀ o b', b₀.Appends b' → Yields (f o) b' Q) :
    Yields ((onGraph fun g => g.addOp .copy [src] [r.node dst]) >>= f) b Q := by
  refine (meets_onGraph (Q := fun _ b' => b₀.Appends b') (h.withGraph ?_)).bind hf
  refine h.graph.addOp _ _ fun id hid => ?_
  rw [List.mem_singleton.mp hid]
  exact Nat.le_trans hr (Nat.le_add_left _ _)

theorem yields_copyArguments (params : List (String × NodeId)) :
    ∀ {args : List NodeId} {b : FunctionBuilder}, b₀.Appends b →
      Yields (copyArguments r params args) b fun _ b' => b₀.Appends b' := by
  induction params with
  | nil => exact fun h => meets_pure h
  | cons param params ih =>
    intro args b h
    cases args with
    | nil => exact meets_pure h
    | cons arg args => exact yields_addCopy hr h arg param.2 fun _ _ => ih

theorem yields_copySymbols (function : String) (bound : SymbolBinding) (span : Span)
    (entries : List (String × ShapeSymbol)) :
    ∀ {b : FunctionBuilder}, b₀.Appends b →
      Yields (copySymbols function r bound span entries) b fun _ b' => b₀.Appends b' := by
  induction entries with
  | nil => exact fun h => meets_pure h
  | cons entry rest ih =>
    intro b h
    unfold copySymbols
    split
    · exact (appends_dimNode _ _).yields fun src b₁ h₁ =>
        yields_addCopy hr (h.trans h₁) src entry.2.node fun _ _ => ih
    · exact yields_throw

end Inline

theorem appends_spliceCall (callee : FunctionGraph) (function : String) (args : List NodeId)
    (bound : SymbolBinding) (span : Span) : Appends (spliceCall callee function args bound span) := by
  intro b
  refine meets_get_bind ?_
  refine (appends_onGraph fun g => g.appends_splice _ _).yields fun _ b₁ h₁ => ?_
  have hr : b.graph.nodes.size ≤ (b.graph.relocation bound.substitute).nodes := Nat.le_refl _
  refine (yields_copyArguments hr callee.inputs h₁).bind fun _ b₂ h₂ =>
    (yields_copySymbols hr function bound span callee.symbols.entries h₂).bind fun _ b₃ h₃ => ?_
  split
  · exact meets_pure h₃
  · exact yields_throw

theorem appends_inlineCall (function : String) (args : List NodeId) (span : Span) :
    Appends (inlineCall ctx function args span) :=
  appends_get_bind fun _ => (appends_lift _).bind fun _ => appends_ite (appends_fail _ _) <|
    appends_ite (appends_fail _ _) <| (appends_ofExcept _ _).bind fun _ => appends_spliceCall _ _ _ _ _

theorem appends_kernelCall {args : BuildM (List NodeId)} (h : Appends args) (id : String)
    (keywords : List Keyword) (span : Span) : Appends (kernelCall ctx id args keywords span) :=
  appends_ite (h.bind fun _ => appends_inlineCall _ _ _) (appends_fail _ _)

theorem appends_call (func : Expr) {args : BuildM (List NodeId)} (h : Appends args)
    (keywords : List Keyword) (span : Span) : Appends (call ctx func args keywords span) := by
  unfold call
  split
  · exact appends_numericCall h _ _ _ _
  · exact appends_fail _ _
  · exact appends_kernelCall h _ _ _
  · exact appends_fail _ _

/-! ## Expressions -/

theorem appends_booleanChain (op : BinOp) (span : Span) (ids : List NodeId) :
    Appends (booleanChain op span ids) := by
  cases ids with
  | nil => exact appends_failInternal _
  | cons first rest => exact appends_applyChain _ _ _

/-- An expression that only appends: as a value, and where it stands as an index. -/
structure ExprAppends (ctx : BuildContext) (e : Expr) : Prop where
  value : Appends (expr ctx e)
  tuple : ∀ elems span, e = .tuple elems span → ∀ axes span, Appends (axisIndices ctx elems axes span)
  range : ∀ lower upper step span, e = .slice lower upper step span → ∀ axis span,
    Appends (rangeIndex (optional ctx lower) (optional ctx upper) (optional ctx step) axis span)

/-- An expression that is neither a tuple nor a range. -/
theorem ExprAppends.of_value {e : Expr} (value : Appends (expr ctx e))
    (htuple : ∀ elems span, e ≠ .tuple elems span)
    (hrange : ∀ lower upper step span, e ≠ .slice lower upper step span) : ExprAppends ctx e :=
  ⟨value, fun elems span h => absurd h (htuple elems span),
    fun lower upper step span h => absurd h (hrange lower upper step span)⟩

theorem appendsAll_optional {e : Option Expr} (h : ∀ e', e = some e' → ExprAppends ctx e') :
    AppendsAll (optional ctx e) := by
  intro value hvalue
  cases e with
  | none => cases hvalue
  | some e =>
    obtain rfl := Option.some.inj hvalue
    exact (h e rfl).value

theorem appends_axisIndices {es : List Expr} (h : ∀ e ∈ es, ExprAppends ctx e) :
    ∀ axes span, Appends (axisIndices ctx es axes span) := by
  induction es with
  | nil => exact fun _ _ => appends_pure _
  | cons e es ih =>
    intro axes span
    obtain ⟨he, hes⟩ := List.forall_mem_cons.mp h
    cases axes with
    | nil => cases e <;> exact appends_pure _
    | cons axis axes =>
      rw [axisIndices_cons]
      split
      · exact (he.range _ _ _ _ rfl _ _).bind fun _ => (ih hes axes span).bind fun _ => appends_pure _
      · exact (appends_elementIndex he.value _).bind fun _ => (ih hes axes span).bind fun _ =>
          appends_pure _

theorem appends_exprs {es : List Expr} (h : ∀ e ∈ es, ExprAppends ctx e) : Appends (exprs ctx es) := by
  induction es with
  | nil => exact appends_pure _
  | cons e es ih =>
    obtain ⟨he, hes⟩ := List.forall_mem_cons.mp h
    exact he.value.bind fun _ => (ih hes).bind fun _ => appends_pure _

mutual

/-- Whatever an expression is, building it only appends. -/
theorem exprAppends (ctx : BuildContext) : ∀ e : Expr, ExprAppends ctx e
  | .name id span => by
    refine .of_value (appends_get_bind fun b => ?_) nofun nofun
    split
    · exact appends_pure _
    · exact appends_fail _ _
  | .int v span => .of_value (appends_intConstant v span) nofun nofun
  | .float v span => .of_value (appends_floatConstant v span) nofun nofun
  | .bool v _ => .of_value (appends_addConstant _ _) nofun nofun
  | .string _ _ => .of_value (appends_fail _ _) nofun nofun
  | .nothing _ => .of_value (appends_fail _ _) nofun nofun
  | .unary op arg span => by
    have harg := exprAppends ctx arg
    refine .of_value ?_ nofun nofun
    rw [expr_unary]
    split
    · exact appends_intConstant _ _
    · exact appends_floatConstant _ _
    · exact harg.value.bind fun _ => appends_applyUnary _ _ _
  | .binary lhs op rhs span =>
    .of_value ((exprAppends ctx lhs).value.bind fun _ => (exprAppends ctx rhs).value.bind fun _ =>
      appends_applyBinary _ _ _ _) nofun nofun
  | .boolean op operands span =>
    .of_value ((appends_exprs (allAppend ctx operands)).bind fun _ => appends_booleanChain _ _ _)
      nofun nofun
  | .compare lhs ops comparators span =>
    .of_value ((exprAppends ctx lhs).value.bind fun _ =>
      (appends_exprs (allAppend ctx comparators)).bind fun _ => appends_applyChain _ _ _) nofun nofun
  -- The three ways to index: a tuple of choices, one range, one element.
  | .subscript target index span => by
    have htarget := (exprAppends ctx target).value
    have hindex := exprAppends ctx index
    refine .of_value ?_ nofun nofun
    rw [expr_subscript]
    split
    · exact htarget.bind fun _ => (appends_indexedAxes _ _ _).bind fun axes =>
        (hindex.tuple _ _ rfl axes span).bind fun _ => appends_readTensor _ _ _
    · exact htarget.bind fun _ => (appends_indexedAxes _ _ _).bind fun axes =>
        (hindex.range _ _ _ _ rfl _ _).bind fun _ => appends_readTensor _ _ _
    · exact htarget.bind fun _ => (appends_indexedAxes _ _ _).bind fun _ =>
        (appends_elementIndex hindex.value _).bind fun _ => appends_readTensor _ _ _
  | .slice lower upper step span => by
    have hlower := optionAppends ctx lower
    have hupper := optionAppends ctx upper
    have hstep := optionAppends ctx step
    refine ⟨appends_fail _ _, nofun, ?_⟩
    rintro _ _ _ _ ⟨⟩
    exact appends_rangeIndex (appendsAll_optional hlower) (appendsAll_optional hupper)
      (appendsAll_optional hstep)
  | .tuple elems span => by
    have helems := allAppend ctx elems
    refine ⟨appends_fail _ _, ?_, nofun⟩
    rintro _ _ ⟨⟩
    exact appends_axisIndices helems
  | .member _ _ _ => .of_value (appends_fail _ _) nofun nofun
  | .call func args keywords span =>
    .of_value (appends_call func (appends_exprs (allAppend ctx args)) keywords span) nofun nofun
  | .unsupported _ _ => .of_value (appends_fail _ _) nofun nofun
termination_by structural e => e

theorem allAppend (ctx : BuildContext) : ∀ es : List Expr, ∀ e ∈ es, ExprAppends ctx e
  | [] => nofun
  | e :: es => List.forall_mem_cons.mpr ⟨exprAppends ctx e, allAppend ctx es⟩
termination_by structural es => es

theorem optionAppends (ctx : BuildContext) : ∀ e : Option Expr, ∀ e', e = some e' → ExprAppends ctx e'
  | none => nofun
  | some e => fun _ h => Option.some.inj h ▸ exprAppends ctx e
termination_by structural e => e

end

/-- Building an expression leaves the builder as it is, but for what it appends to the graph. -/
theorem appends_expr (ctx : BuildContext) (e : Expr) : Appends (expr ctx e) :=
  (exprAppends ctx e).value

end BuildM

end TensorKernel
