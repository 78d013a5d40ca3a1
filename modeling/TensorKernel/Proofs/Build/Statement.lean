import TensorKernel.Build.Statement
import TensorKernel.Proofs.Build.Expression
import TensorKernel.Proofs.Except
import TensorKernel.Proofs.Graph.Bounded

/-!
# Built statements

A statement keeps the builder well-formed.  Assignments bind names to new nodes, which have values
of the right kind, and a return takes a node that has a value as the result.
-/

namespace TensorKernel

/-! ## Annotations -/

/-- A type whose dimensions are constants and symbols. -/
def KernelType.Closed (ty : KernelType) : Prop :=
  ∀ d ∈ ty.shape, ∀ id, d ≠ .node id

namespace TypeHint

/-- A dimension of an annotation is a symbol or a positive constant. -/
theorem dimension_ok {e : Expr} {d : Dim} (h : dimension e = .ok d) :
    (∃ name, d = .sym name) ∨ ∃ n, d = .const n ∧ 0 < n ∧ n ≤ Dim.maxConst := by
  unfold dimension at h
  split at h
  · obtain rfl := Except.ok.inj h
    exact Or.inl ⟨_, rfl⟩
  · split at h
    · next hv =>
      obtain rfl := Except.ok.inj h
      exact Or.inr ⟨_, rfl, hv⟩
    · cases h
  · cases h

theorem dimension_error {e : Expr} {err : BuildError} (h : dimension e = .error err) :
    err.kind = .syntaxError := by
  unfold dimension at h
  split at h
  · cases h
  · split at h
    · cases h
    · obtain rfl := Except.error.inj h
      rfl
  · obtain rfl := Except.error.inj h
    rfl

theorem elemSize_error {hint e : Expr} {err : BuildError} (h : elemSize hint e = .error err) :
    err.kind = .syntaxError := by
  unfold elemSize at h
  split at h
  · split at h
    · cases h
    · obtain rfl := Except.error.inj h
      rfl
  · obtain rfl := Except.error.inj h
    rfl

/-- The dimensions of a type are those of its annotation. -/
theorem exists_dimension {hint : Expr} {ty : KernelType} (h : type hint = .ok ty) :
    ∀ d ∈ ty.shape, ∃ e, dimension e = .ok d := by
  unfold type at h
  split at h
  · obtain ⟨sz, -, h⟩ := exists_of_bind_ok h
    obtain rfl := Except.ok.inj h
    intro d hd
    cases hd
  · obtain ⟨sz, -, h⟩ := exists_of_bind_ok h
    obtain ⟨shape, hshape, h⟩ := exists_of_bind_ok h
    obtain rfl := Except.ok.inj h
    exact fun d hd => (exists_of_mem_mapM hshape d hd).imp fun e he => he.2
  · cases h

/-- An annotation stands for a type without computed dimensions. -/
theorem type_ok {hint : Expr} {ty : KernelType} (h : type hint = .ok ty) : ty.Closed := by
  rintro d hd id rfl
  obtain ⟨e, he⟩ := exists_dimension h _ hd
  rcases dimension_ok he with ⟨name, hname⟩ | ⟨n, hn, -⟩
  · cases hname
  · cases hn

/-- The constants of an annotation are sizes. -/
theorem type_bounded {hint : Expr} {ty : KernelType} (h : type hint = .ok ty) : ty.Bounded := by
  intro d hd
  obtain ⟨e, he⟩ := exists_dimension h d hd
  rcases dimension_ok he with ⟨name, rfl⟩ | ⟨n, rfl, hpos, hmax⟩
  · trivial
  · exact ⟨hpos.le, hmax⟩

theorem type_error {hint : Expr} {err : BuildError} (h : type hint = .error err) :
    err.kind = .syntaxError := by
  unfold type at h
  split at h
  · cases hsz : elemSize _ _ with
    | error err' =>
      rw [hsz] at h
      obtain rfl := Except.error.inj h
      exact elemSize_error hsz
    | ok sz => rw [hsz] at h; cases h
  · next target index _ =>
    cases hsz : elemSize (.subscript target index _) target with
    | error err' =>
      rw [hsz] at h
      obtain rfl := Except.error.inj h
      exact elemSize_error hsz
    | ok sz =>
      cases hds : (elements index).mapM dimension with
      | error err' =>
        rw [hsz, hds] at h
        obtain rfl := Except.error.inj h
        obtain ⟨e, -, he⟩ := exists_of_mapM_error hds
        exact dimension_error he
      | ok ds => rw [hsz, hds] at h; cases h
  · obtain rfl := Except.error.inj h
    rfl

end TypeHint

/-! ## Boolean operations -/

/-- Every boolean operation of a statement has an operand. -/
def Stmt.BooleansNonempty : Stmt → Prop
  | .assign target value _ => target.BooleansNonempty ∧ value.BooleansNonempty
  | .annotated _ _ value _ => Expr.OptionBooleansNonempty value
  | .augmented target _ value _ => target.BooleansNonempty ∧ value.BooleansNonempty
  | .returns value _ => Expr.OptionBooleansNonempty value
  | .expr value _ => value.BooleansNonempty
  | _ => True

/-! ## What is declared -/

/--
The second builder is the first one after some statements: what the function declares is as it was,
and nothing but the node of a declared result may have been returned for it.  The graph stays orderly
where that is asked for.
-/
structure FunctionBuilder.Continues (sz : ElemSize) (closed : Prop) (b b' : FunctionBuilder) :
    Prop where
  inputs : b'.inputs = b.inputs
  symbols : b'.symbols = b.symbols
  plan : b'.returnPlan = b.returnPlan
  result : ∀ ty dst, b.returnPlan = .static ty dst →
    b'.returnType = b.returnType ∧ ∀ id ∈ b'.outputs, id ∈ b.outputs ∨ id = dst
  encloses : closed → b.Encloses sz b'

namespace FunctionBuilder.Continues

variable {sz : ElemSize} {closed : Prop} {b b' b'' : FunctionBuilder}

/-- Steps that bind names and compute nodes. -/
theorem of_eq (hinputs : b'.inputs = b.inputs) (hsymbols : b'.symbols = b.symbols)
    (hplan : b'.returnPlan = b.returnPlan) (htype : b'.returnType = b.returnType)
    (houtputs : b'.outputs = b.outputs) (hencloses : closed → b.Encloses sz b') :
    b.Continues sz closed b' :=
  ⟨hinputs, hsymbols, hplan, fun _ _ _ => ⟨htype, fun id hid => Or.inl (by rwa [← houtputs])⟩,
    hencloses⟩

theorem refl (b : FunctionBuilder) : b.Continues sz closed b :=
  of_eq rfl rfl rfl rfl rfl fun _ h => h

theorem trans (h : b.Continues sz closed b') (h' : b'.Continues sz closed b'') :
    b.Continues sz closed b'' where
  inputs := h'.inputs.trans h.inputs
  symbols := h'.symbols.trans h.symbols
  plan := h'.plan.trans h.plan
  result ty dst hplan := by
    obtain ⟨htype, houtputs⟩ := h.result ty dst hplan
    obtain ⟨htype', houtputs'⟩ := h'.result ty dst (h.plan.trans hplan)
    exact ⟨htype'.trans htype, fun id hid => (houtputs' id hid).elim (houtputs id) Or.inr⟩
  encloses hclosed := (h.encloses hclosed).trans (h'.encloses hclosed)

end FunctionBuilder.Continues

theorem FunctionBuilder.Grown.continues {sz : ElemSize} {closed : Prop} {b b' : FunctionBuilder}
    (h : b.Grown b') (hencloses : closed → b.Encloses sz b') : b.Continues sz closed b' := by
  obtain ⟨graph, rfl⟩ : ∃ graph, b' = { b with graph } := ⟨_, h.eq⟩
  exact .of_eq rfl rfl rfl rfl rfl hencloses

namespace BuildM

open FunctionBuilder (Continues Grown)

variable {sz : ElemSize} {caches : GraphCache → Prop} {strict closed : Prop} {ctx : BuildContext}
  {b : FunctionBuilder}

/-- A step that keeps a builder well-formed and what its function declares. -/
def Keeps (sz : ElemSize) (strict closed : Prop) (m : BuildM Unit) (b : FunctionBuilder) : Prop :=
  Meets (GraphCache.Formed sz closed) strict m b fun _ b' =>
    b'.WellFormed sz ∧ b.Continues sz closed b'

theorem Keeps.after {m : BuildM Unit} {b' : FunctionBuilder} (hm : Keeps sz strict closed m b')
    (h : b.Continues sz closed b') :
    Meets (GraphCache.Formed sz closed) strict m b' fun _ b'' =>
      b''.WellFormed sz ∧ b.Continues sz closed b'' :=
  hm.mono fun _ _ h' => ⟨h'.1, h.trans h'.2⟩

theorem keeps_pure (hb : b.WellFormed sz) : Keeps sz strict closed (pure ()) b :=
  meets_pure ⟨hb, .refl b⟩

theorem meets_ofLocated {α : Type} {r : Except BuildError α} {Q : α → FunctionBuilder → Prop}
    (hok : ∀ a, r = .ok a → Q a b) (herror : ∀ err, r = .error err → err.kind = .syntaxError) :
    Meets caches strict (ofLocated r) b Q := by
  cases r with
  | ok a => exact meets_pure (hok a rfl)
  | error err =>
    refine meets_throw fun _ => ?_
    rw [herror err rfl]
    decide

/-- A step that builds an expression, followed by one that needs a well-formed builder. -/
theorem keeps_of_builds {α : Type} {m : BuildM α} {f : α → BuildM Unit}
    {P : α → FunctionBuilder → Prop} (hm : Builds sz strict closed m b P) (hb : b.WellFormed sz)
    (hf : ∀ a b', b.Grown b' → b'.WellFormed sz → P a b' → Keeps sz strict closed (f a) b') :
    Keeps sz strict closed (m >>= f) b :=
  (hm hb).bind fun a b' h =>
    (hf a b' h.1 (h.1.wellFormed hb) h.2.2).after (h.1.continues h.2.1)

/-! ## Assignments -/

theorem meets_freshName (id : String) (hb : b.WellFormed sz) :
    Meets caches strict (freshName id) b fun _ b' =>
      b' = { b with rebindings := b.rebindings + 1 } ∧ b'.WellFormed sz :=
  meets_get_bind ((meets_set (Q := fun _ b' => b' = { b with rebindings := b.rebindings + 1 })
    rfl).bind fun _ b' h => by
      subst h
      exact meets_pure ⟨rfl, hb.rebind _⟩)

/-- A step that adds a node of a type with the operator that computes it. -/
theorem meets_computeOfType {α : Type} {name : Option String} {op : OpKind} {inputs : List NodeId}
    {ty : KernelType} {f : NodeId → BuildM α} {Q : α → FunctionBuilder → Prop}
    (hf : ∀ kind : NodeKind, (∀ producer consumers, Node.type ⟨name, kind, producer, consumers⟩ = ty) →
      (∀ v size, kind ≠ .constant v size) → Meets caches strict (f ⟨b.graph.nodes.size⟩)
        { b with graph := (b.graph.compute name kind op inputs).2 } Q) :
    Meets caches strict (do
      let dst ← onGraph fun g => g.addOfType name ty
      let _ ← onGraph fun g => g.addOp op inputs [dst]
      f dst) b Q := by
  obtain ⟨kind, hadd, htype, hconstant⟩ := b.graph.addOfType_eq_addNode name ty
  refine (meets_onGraph (Q := fun dst b' => dst = ⟨b.graph.nodes.size⟩ ∧
    b' = { b with graph := (b.graph.addNode name kind).2 }) ?_).bind fun dst b₁ ⟨hdst, h₁⟩ => ?_
  · rw [hadd]
    exact ⟨rfl, rfl⟩
  · subst hdst
    subst h₁
    refine (meets_onGraph (Q := fun _ b' =>
      b' = { b with graph := (b.graph.compute name kind op inputs).2 }) rfl).bind fun _ b₂ h₂ => ?_
    subst h₂
    exact hf kind htype hconstant

theorem keeps_bindLocal {id : String} {ty : KernelType} {node : NodeId} (hb : b.WellFormed sz)
    (hnode : b.Has node) (htype : b.graph.type node = ty) :
    Keeps sz strict closed (bindLocal id ty node) b := by
  refine meets_modify ?_
  split
  · next hscalar =>
    exact ⟨hb.bindScalar hnode ((Graph.isScalar_of_type htype).trans hscalar),
      .of_eq rfl rfl rfl rfl rfl fun _ h => h⟩
  · next hscalar =>
    exact ⟨hb.bindTensor hnode ((Graph.isScalar_of_type htype).trans (by simpa using hscalar)),
      .of_eq rfl rfl rfl rfl rfl fun _ h => h⟩

theorem meets_variableType (id : String) (hint previous : Option KernelType) (value : KernelType)
    (span : Span) :
    Meets caches strict (variableType id hint previous value span) b fun ty b' => b' = b ∧
      ty = hint.getD (previous.getD value) ∧ ∀ p, previous = some p → ty = p := by
  unfold variableType
  split
  · refine meets_ite (fun hsame => meets_pure ⟨rfl, rfl, fun p hp => ?_⟩)
      fun _ => meets_fail (by rintro ⟨⟩)
    rw [hsame, Option.some.inj hp]
  · exact meets_pure ⟨rfl, rfl, fun _ hp => by cases hp⟩
  · exact meets_pure ⟨rfl, rfl, fun _ hp => Option.some.inj hp⟩
  · exact meets_pure ⟨rfl, rfl, fun _ hp => by cases hp⟩

theorem keeps_assignName (id : String) {value : NodeId} (hint : Option KernelType) (span : Span)
    (hb : b.WellFormed sz) (hvalue : b.Has value) :
    Keeps sz strict closed (assignName id value hint span) b := by
  refine meets_get_bind (meets_ite (fun _ => meets_fail (by rintro ⟨⟩)) fun _ =>
    meets_ite (fun _ => meets_fail (by rintro ⟨⟩)) fun _ => ?_)
  refine (meets_variableType id hint _ _ span).bind fun ty b₁ ⟨h₁, _, _⟩ => ?_
  subst h₁
  refine meets_ite (fun _ => meets_fail (by rintro ⟨⟩)) fun hsame => ?_
  -- The copy is the same for a first binding and for a new version; they differ in the node's name.
  have hrest : ∀ (name : String) (count : Nat),
      Keeps sz strict closed (do
        let dst ← onGraph fun g => g.addOfType (some name) ty
        let _ ← onGraph fun g => g.addOp
          (if ((b₁.local? id).map b₁.graph.type).isSome && !ty.isScalar then OpKind.deepCopy
            else .copy) [value] [dst]
        bindLocal id ty dst) { b₁ with rebindings := count } := by
    intro name count
    refine meets_computeOfType fun kind hkind hconstant => ?_
    have hproduces := Graph.produces_copy hb.valid (hkind none [])
      (Graph.copyKind_cases (((b₁.local? id).map b₁.graph.type).isSome && !ty.isScalar))
      hvalue (by simpa using hsame)
    have hb₂ := hb.rebind count
    refine (keeps_bindLocal ((Grown.of_produces hb₂.valid hproduces).wellFormed hb₂)
      hproduces.available hproduces.type).after (.of_eq rfl rfl rfl rfl rfl fun _ he => ?_)
    exact he.compute hb.valid (some name) hconstant (by split <;> rfl) (by split <;> nofun)
      (by split <;> nofun) fun id hid => List.mem_singleton.mp hid ▸ hvalue
  refine meets_ite (fun _ => ?_) fun _ => ?_
  · refine (meets_freshName id hb).bind fun name b₂ ⟨h₂, _⟩ => ?_
    subst h₂
    exact (hrest name _).after (.of_eq rfl rfl rfl rfl rfl fun _ h => h)
  · refine (meets_pure (Q := fun name b' => b' = b₁) rfl).bind fun name b₂ h₂ => ?_
    subst h₂
    exact hrest name _

/-! ## Assignments to elements -/

theorem builds_elementTarget (id : String) (span : Span) :
    Builds sz strict closed (elementTarget id span) b fun node b' => b' = b ∧ b.Has node ∧
      b.tensors.get? id = some node := by
  refine builds_get_bind (builds_ite (fun _ => builds_fail (by rintro ⟨⟩)) fun _ => ?_)
  split
  · next node hnode =>
    exact builds_of_wellFormed fun hb => builds_pure ⟨rfl, (hb.tensors hnode).1, hnode⟩
  · exact builds_ite (fun _ => builds_fail (by rintro ⟨⟩))
      fun _ => builds_fail (by rintro ⟨⟩)

theorem built_elements (hctx : ctx.Sound sz strict closed) {index : Expr}
    (h : strict → index.BooleansNonempty) :
    ∀ e ∈ TypeHint.elements index, Built sz strict closed ctx e := by
  cases index with
  | tuple elems span => exact builts hctx elems h
  | _ =>
    intro e he
    rw [List.mem_singleton.mp he]
    exact built hctx _ h

theorem builds_targetIndices (hctx : ctx.Sound sz strict closed) {index : Expr}
    (h : strict → index.BooleansNonempty) {target : NodeId} (htarget : b.Has target)
    (span : Span) :
    Builds sz strict closed (targetIndices ctx index target span) b fun choices b' =>
      ∀ c ∈ choices, HasIndices b' c.index := by
  refine (builds_indexedAxes target _ span).bind fun axes b₁ _ ⟨hsame, haxes, _, _⟩ => ?_
  subst hsame
  refine builds_of_wellFormed fun hb => ?_
  have hdims : ∀ d ∈ axes, b₁.HasDim d := by
    rw [haxes]
    exact hb.hasDim htarget
  exact (selectsAxes (built_elements hctx h) hdims span).mono fun _ _ _ h => h.2.1

theorem mem_elementNodes? {choices : List AxisIndex} {nodes : List NodeId}
    (h : elementNodes? choices = some nodes) (hchoices : ∀ c ∈ choices, HasIndices b c.index) :
    ∀ id ∈ nodes, b.HasIndex id := by
  induction choices generalizing nodes with
  | nil =>
    obtain rfl := Option.some.inj h
    simp
  | cons choice rest ih =>
    obtain ⟨index, toEnd⟩ := choice
    cases index with
    | element node =>
      obtain ⟨others, hothers, rfl⟩ := Option.map_eq_some_iff.mp h
      intro id hid
      rcases List.mem_cons.mp hid with rfl | hid
      · exact hchoices _ (List.mem_cons_self ..) _ (List.mem_singleton_self _)
      · exact ih hothers (fun c hc => hchoices c (List.mem_cons_of_mem _ hc)) id hid
    | range lower upper step => cases h

theorem keeps_assignElement (hctx : ctx.Sound sz strict closed) (target : Expr) {index : Expr}
    (h : strict → index.BooleansNonempty) {value : NodeId} (span : Span) (hb : b.WellFormed sz)
    (hvalue : b.Has value) : Keeps sz strict closed (assignElement ctx target index value span) b := by
  unfold assignElement
  split
  · next id _ =>
    refine keeps_of_builds (builds_elementTarget id span) hb
      fun tensor b₁ _ hb₁ ⟨hsame, htensor, hget⟩ => ?_
    subst hsame
    refine meets_get_bind ?_
    refine keeps_of_builds (builds_targetIndices hctx h htensor span) hb₁
      fun choices b₂ h₂ hb₂ hchoices => ?_
    split
    · next nodes hnodes =>
      refine meets_ite (fun _ => meets_fail (by rintro ⟨⟩)) fun hrank =>
        meets_get_bind (meets_ite (fun _ => meets_fail (by rintro ⟨⟩)) fun hscalar => ?_)
      refine (meets_freshName id hb₂).bind fun name b₃ ⟨h₃, hb₃⟩ => ?_
      subst h₃
      have hsame := h₂.type_eq htensor
      have hnonscalar : b₁.graph.isScalar tensor = false := (hb₁.tensors hget).2
      refine meets_computeOfType fun kind hkind hconstant => meets_modify ?_
      -- The indices are built after the look-up, so what is known of the tensor is carried over.
      have hproduces := Graph.produces_setItem hb₂.valid ((hkind none []).trans hsame.symm)
        (h₂.has htensor) (by rw [h₂.isScalar_eq htensor, hnonscalar]) (h₂.has hvalue)
        (by simpa using hscalar) (mem_elementNodes? hnodes hchoices)
        ((Decidable.not_not.mp hrank).trans (congrArg List.length (h₂.shape_eq htensor).symm))
      refine ⟨((Grown.of_produces hb₃.valid hproduces).wellFormed hb₃).bindTensor
        hproduces.available ?_, .of_eq rfl rfl rfl rfl rfl fun _ he => ?_⟩
      · exact (Graph.isScalar_of_type hproduces.type).trans ((Graph.isScalar_of_type hsame).trans
          hnonscalar)
      · refine he.compute hb₂.valid (some name) hconstant rfl (by nofun) (by nofun) fun id hid => ?_
        rcases List.mem_cons.mp hid with rfl | hid
        · exact h₂.has htensor
        · rcases List.mem_cons.mp hid with rfl | hid
          · exact h₂.has hvalue
          · exact (mem_elementNodes? hnodes hchoices id hid).avail
    · exact meets_fail (by rintro ⟨⟩)
  · exact meets_fail (by rintro ⟨⟩)

theorem keeps_assign (hctx : ctx.Sound sz strict closed) (target value : Expr)
    (htarget : strict → target.BooleansNonempty) (hvalue : strict → value.BooleansNonempty)
    (span : Span) (hb : b.WellFormed sz) : Keeps sz strict closed (assign ctx target value span) b := by
  have hbuilt := (built hctx value hvalue).value
  unfold assign
  split
  · exact keeps_of_builds (hbuilt b) hb fun node b₁ _ hb₁ hnode =>
      keeps_assignName _ none span hb₁ hnode
  · exact keeps_of_builds (hbuilt b) hb fun node b₁ _ hb₁ hnode =>
      keeps_assignElement hctx _ (fun hs => (htarget hs).2) span hb₁ hnode
  · exact meets_fail (by rintro ⟨⟩)

theorem keeps_assignHinted (hctx : ctx.Sound sz strict closed) (target hint : Expr) (value : Option Expr)
    (hvalue : strict → Expr.OptionBooleansNonempty value) (span : Span) (hb : b.WellFormed sz) :
    Keeps sz strict closed (assignHinted ctx target hint value span) b := by
  unfold assignHinted
  split
  · next id _ value =>
    refine Meets.bind (Q := fun _ b' => b' = b)
      (meets_ofLocated (fun _ _ => rfl) fun _ h => TypeHint.type_error h) fun ty b₁ hsame => ?_
    subst hsame
    refine meets_get_bind ?_
    split
    · exact meets_fail (by rintro ⟨⟩)
    · exact keeps_of_builds ((built hctx value hvalue).value b₁) hb fun node b₂ _ hb₂ hnode =>
        keeps_assignName _ (some ty) span hb₂ hnode
  · exact meets_fail (by rintro ⟨⟩)
  · exact meets_fail (by rintro ⟨⟩)
  · exact meets_fail (by rintro ⟨⟩)

/-! ## Returns -/

theorem keeps_returnNode {node : NodeId} (span : Span) (hb : b.WellFormed sz) (hnode : b.Has node)
    (houtputs : b.outputs = []) (hreturned : b.returned = true) :
    Keeps sz strict closed (returnNode node span) b := by
  refine meets_get_bind ?_
  split
  · next declared dst hplan =>
    refine meets_ite (fun _ => meets_fail (by rintro ⟨⟩)) fun hsame => ?_
    have hsame' : declared.sameShape (b.graph.type node) = true := by simpa using hsame
    refine (meets_onGraph (Q := fun _ b' => b' = { b with
      graph := (b.graph.addOp (if (b.graph.type node).isScalar then .copy else .deepCopy)
        [node] [dst]).2 }) rfl).bind fun _ b₁ h₁ => meets_modify ?_
    subst h₁
    refine ⟨hb.returnDeclared hplan houtputs (by split <;> simp) hnode hsame' hreturned,
      rfl, rfl, rfl, fun ty other hother => ⟨rfl, fun id hid => ?_⟩, fun _ he => ?_⟩
    · rw [hplan] at hother
      cases hother
      simpa using hid
    · exact he.computeResult hb.valid ⟨declared, hplan⟩ ((hb.result hplan).pending houtputs)
        (by split <;> rfl) (by split <;> nofun) (by split <;> nofun) hnode
  · next hplan =>
    exact meets_set ⟨hb.returnValue hnode _ (fun ty dst h => hplan ty dst h) houtputs hreturned,
      rfl, rfl, rfl, fun ty dst h => absurd h (hplan ty dst), fun _ h => h⟩

theorem keeps_returns (hctx : ctx.Sound sz strict closed) (value : Option Expr)
    (hvalue : strict → Expr.OptionBooleansNonempty value) (span : Span) (hb : b.WellFormed sz)
    (hopen : b.returned = false) : Keeps sz strict closed (returns ctx value span) b := by
  refine (meets_modify (Q := fun _ b' => b' = { b with returned := true }) rfl).bind
    fun _ b₁ h₁ => meets_get_bind ?_
  have hb₁ : b₁.WellFormed sz := h₁ ▸ hb.markReturned
  have hcontinues : b.Continues sz closed b₁ := h₁ ▸ .of_eq rfl rfl rfl rfl rfl fun _ h => h
  split
  · exact meets_pure ⟨hb₁, hcontinues⟩
  · exact meets_fail (by rintro ⟨⟩)
  · exact meets_fail (by rintro ⟨⟩)
  · next e _ =>
    refine Keeps.after ?_ hcontinues
    refine keeps_of_builds ((built hctx e hvalue).value b₁) hb₁ fun node b₂ h₂ hb₂ hnode => ?_
    have houtputs : b₂.outputs = [] := by
      rw [h₂.eq, h₁]
      exact hb.unreturned hopen
    exact keeps_returnNode span hb₂ hnode houtputs (by rw [h₂.eq, h₁])

/-! ## Statements -/

theorem keeps_stmt (hctx : ctx.Sound sz strict closed) (s : Stmt) (h : strict → s.BooleansNonempty)
    (hb : b.WellFormed sz) (hopen : b.returned = false) : Keeps sz strict closed (stmt ctx s) b := by
  cases s with
  | assign target value span =>
    exact keeps_assign hctx target value (fun hs => (h hs).1) (fun hs => (h hs).2) span hb
  | annotated target hint value span => exact keeps_assignHinted hctx target hint value h span hb
  | augmented target op value span =>
    exact keeps_assign hctx target (.binary target op value span) (fun hs => (h hs).1) h span hb
  | returns value span => exact keeps_returns hctx value h span hb hopen
  | expr value span =>
    cases value with
    | call func args keywords callSpan =>
      exact keeps_of_builds ((built hctx (.call func args keywords callSpan) h).value b) hb
        fun _ _ _ hb₁ _ => keeps_pure hb₁
    | string _ _ => exact keeps_pure hb
    | _ => exact meets_fail (by rintro ⟨⟩)
  | pass span => exact keeps_pure hb
  | delete span => exact meets_fail (by rintro ⟨⟩)
  | conditional span => exact meets_fail (by rintro ⟨⟩)
  | loop span => exact meets_fail (by rintro ⟨⟩)
  | unsupported kind span => exact meets_fail (by rintro ⟨⟩)

/-- The statements of a function keep its builder well-formed. -/
theorem keeps_body (hctx : ctx.Sound sz strict closed) (stmts : List Stmt) :
    ∀ {b : FunctionBuilder}, (strict → ∀ s ∈ stmts, s.BooleansNonempty) → b.WellFormed sz →
      Keeps sz strict closed (body ctx stmts) b := by
  induction stmts with
  | nil => exact fun _ hb => keeps_pure hb
  | cons s rest ih =>
    intro b h hb
    refine meets_get_bind (meets_ite (fun _ => meets_fail (by rintro ⟨⟩)) fun hopen => ?_)
    refine (keeps_stmt hctx s (fun hs => h hs s (List.mem_cons_self ..)) hb
      (by simpa using hopen)).bind fun _ b₁ ⟨hb₁, hcontinues⟩ => ?_
    exact (ih (fun hs s hmem => h hs s (List.mem_cons_of_mem _ hmem)) hb₁).after hcontinues

end BuildM

end TensorKernel
