import TensorKernel.Build.Operand
import TensorKernel.Proofs.Build.Logic
import TensorKernel.Proofs.Literal

/-!
# Built operators

Each way of applying an operator gives a node that has a value, and each index and dimension that is
built on the way is known.
-/

namespace TensorKernel

namespace ElemSize

theorem lub_isSignedInteger_of {l r : ElemSize} (hl : l.isSignedInteger = true)
    (hr : r.isSignedInteger = true) : (l.lub r).isSignedInteger = true := by
  cases l <;> cases r <;> simp_all [isSignedInteger, lub, isFloatingPoint, bits]

end ElemSize

namespace BuildM

variable {sz : ElemSize} {strict closed : Prop} {b : FunctionBuilder}

/-- A step that gives a node with a value, whatever was built before. -/
def GivesValue (sz : ElemSize) (strict closed : Prop) (m : BuildM NodeId) : Prop :=
  ∀ b, Builds sz strict closed m b fun id b' => b'.Has id

/-! ## Constants -/

theorem builds_addConstant {v : Literal} {ty : ElemSize} (hfits : ∀ i, v = .int i → ty.Holds (.int i)) :
    Builds sz strict closed (onGraph fun g => g.addConstant v ty) b fun id b' =>
      b'.Has id ∧ b'.graph.type id = .scalar ty :=
  builds_onGraph _ (fun hv => Graph.produces_constant hv v ty)
    (fun hv he => he.addConstant hv hfits) fun _ _ _ hid htype => ⟨hid, htype⟩

/-- An integer that is written for an index left out. -/
theorem builds_addInt {v : Int64} {ty : ElemSize} (hfits : ty.Holds (.int v)) :
    Builds sz strict closed (onGraph fun g => g.addConstant (.int v) ty) b fun id b' => b'.Has id :=
  (builds_addConstant fun _ h => Literal.int.inj h ▸ hfits).mono fun _ _ _ h => h.1

theorem builds_intConstant (v : Int) (span : Span) :
    Builds sz strict closed (intConstant v span) b fun id b' => b'.HasIndex id ∧
      ∃ i : Int64, i.toInt = v ∧ b'.graph.IsInt id i := by
  unfold intConstant
  split
  · next size hsize =>
    have hholds := ElemSize.holds_of_ofInt? hsize
    refine builds_onGraph_of (.scalar size) (fun hv => Graph.produces_constant hv _ size)
      (fun hv he => he.addConstant hv fun i h => Literal.int.inj h ▸ hholds)
      fun _ hid htype => ⟨⟨hid, Graph.isScalar_of_type htype, ?_⟩, Int64.ofInt v,
        ElemSize.toInt_of_ofInt? hsize, Graph.isInt_addConstant ..⟩
    rw [Graph.elemSize_of_type htype]
    exact ElemSize.isSignedInteger_of_ofInt? hsize
  · exact builds_fail (by rintro ⟨⟩)

theorem builds_floatConstant (v : Float) (span : Span) :
    Builds sz strict closed (floatConstant v span) b fun id b' => b'.Has id := by
  unfold floatConstant
  split
  · exact (builds_addConstant (by nofun)).mono fun _ _ _ h => h.1
  · exact builds_fail (by rintro ⟨⟩)

/-! ## Operators -/

theorem builds_applyUnary (op : UnOp) {arg : NodeId} (harg : b.Has arg) (span : Span) :
    Builds sz strict closed (applyUnary op arg span) b fun id b' => b'.Has id := by
  refine builds_get_bind (builds_ite (fun _ => builds_fail (by rintro ⟨⟩))
    fun hneg => builds_ite (fun _ => builds_fail (by rintro ⟨⟩)) fun hnot => ?_)
  refine builds_onGraph _ (fun hv => Graph.produces_unary hv harg ⟨rfl, fun h => ?_, fun h => ?_⟩)
    (fun hv he => he.applyUnary hv op harg _) fun _ _ _ hid _ => hid
  · simpa [h] using hneg
  · simpa [h] using hnot

theorem meets_resultShape {caches : GraphCache → Prop} (op : BinOp) (l r : KernelType) (span : Span) :
    Meets caches strict (resultShape op l r span) b fun shape b' => b' = b ∧
      (shape = none → l.isScalar = true ∧ r.isScalar = true) ∧
      ∀ s, shape = some s → (l.isScalar = false ∨ r.isScalar = false) ∧
        Shape.broadcast? l.shape r.shape = some s := by
  refine meets_ite (fun hscalars => ?_) fun htensor => ?_
  · refine meets_pure ⟨rfl, fun _ => by simpa using hscalars, ?_⟩
    intro s h
    cases h
  · split
    · next shape hshape =>
      refine meets_pure ⟨rfl, ?_, fun s h => ⟨?_, by rw [hshape, h]⟩⟩
      · intro h
        cases h
      · cases hl : l.isScalar <;> simp_all
    · exact meets_fail (by rintro ⟨⟩)

theorem builds_resultShape (op : BinOp) (l r : KernelType) (span : Span) :
    Builds sz strict closed (resultShape op l r span) b fun shape b' => b' = b ∧
      (shape = none → l.isScalar = true ∧ r.isScalar = true) ∧
      ∀ s, shape = some s → (l.isScalar = false ∨ r.isScalar = false) ∧
        Shape.broadcast? l.shape r.shape = some s :=
  fun hb => (meets_resultShape op l r span).mono fun _ b' h => by
    obtain ⟨rfl, hshape⟩ := h
    exact ⟨.refl hb.valid, fun _ => id, rfl, hshape⟩

theorem builds_applyBinary (op : BinOp) {lhs rhs : NodeId} (hlhs : b.Has lhs) (hrhs : b.Has rhs)
    (span : Span) :
    Builds sz strict closed (applyBinary op lhs rhs span) b fun id b' => b'.Has id ∧
      b'.graph.elemSize id = op.resultSize (b.graph.elemSize lhs) (b.graph.elemSize rhs) ∧
      b'.graph.isScalar id = (b.graph.isScalar lhs && b.graph.isScalar rhs) ∧
      (b.graph.isScalar lhs = true → b.graph.isScalar rhs = true →
        b'.graph.Applies op lhs rhs id) := by
  refine builds_get_bind (builds_ite (fun _ => builds_fail (by rintro ⟨⟩))
    fun hbits => (builds_resultShape op _ _ span).bind fun shape b' _ h => ?_)
  obtain ⟨rfl, hscalars, htensors⟩ := h
  refine builds_onGraph_of _ (fun hv => Graph.produces_binary hv hlhs hrhs (.of_accepted hbits)
    hscalars htensors)
    (fun hv he => he.applyBinary hv op hlhs hrhs _ fun s hs => (htensors s hs).2)
    fun _ hid htype => ⟨hid, ?_, ?_, fun hl hr => ?_⟩
  · rw [Graph.elemSize_of_type htype]
    cases shape <;> rfl
  · rw [Graph.isScalar_of_type htype]
    cases shape with
    | none =>
      obtain ⟨hl, hr⟩ := hscalars rfl
      have h : (b'.graph.isScalar lhs && b'.graph.isScalar rhs) = true :=
        Bool.and_eq_true_iff.mpr ⟨hl, hr⟩
      exact h.symm
    | some s =>
      have h : (b'.graph.isScalar lhs && b'.graph.isScalar rhs) = false :=
        Bool.and_eq_false_iff.mpr (htensors s rfl).1
      exact h.symm
  · cases shape with
    | none => exact Graph.applies_applyBinary ..
    | some s =>
      -- A result with a shape has a tensor among its operands.
      rcases (htensors s rfl).1 with h | h
      · exact absurd (hl.symm.trans h) (by decide)
      · exact absurd (hr.symm.trans h) (by decide)

theorem builds_applyChain {span : Span} (pairs : List (BinOp × NodeId)) :
    ∀ {b : FunctionBuilder} {lhs : NodeId}, b.Has lhs → (∀ p ∈ pairs, b.Has p.2) →
      Builds sz strict closed (applyChain lhs span pairs) b fun id b' => b'.Has id := by
  induction pairs with
  | nil => exact fun hlhs _ => builds_pure hlhs
  | cons pair rest ih =>
    intro b lhs hlhs hpairs
    obtain ⟨op, rhs⟩ := pair
    refine builds_get_bind (builds_ite (fun _ => ?_)
      fun _ => builds_fail (by rintro ⟨⟩))
    refine (builds_applyBinary op hlhs (hpairs _ (List.mem_cons_self ..)) span).bind
      fun id b' hgrown hid => ih hid.1 fun p hp => ?_
    exact hgrown.has (hpairs p (List.mem_cons_of_mem _ hp))

/-! ## Indices -/

/-- The node of a dimension whose size is known. -/
theorem builds_dimNode {d : Dim} (hd : b.HasDim d) (span : Span) :
    Builds sz strict closed (dimNode d span) b fun id b' => b'.Has id ∧
      b'.graph.Spans sz b'.symbols d id := by
  cases d with
  | const n =>
    refine (builds_intConstant n span).mono fun id b' _ h => ⟨h.1.avail, ?_⟩
    obtain ⟨i, rfl, hint⟩ := h.2
    exact .const hint
  | sym name =>
    refine builds_get_bind ?_
    obtain ⟨symbol, hsymbol⟩ := Table.get?_eq_some_of_contains hd
    simp only [hsymbol]
    exact builds_pure ⟨FunctionBuilder.has_symbol hsymbol, .sym hsymbol⟩
  | node id => exact builds_pure ⟨hd.avail, .node id⟩

theorem builds_requireIndex {id : NodeId} (hid : b.Has id) (span : Span) :
    Builds sz strict closed (requireIndex id span) b fun _ b' => b' = b ∧ b.HasIndex id := by
  refine builds_get_bind (builds_ite (fun h => ?_)
    fun _ => builds_fail (by rintro ⟨⟩))
  rw [Bool.and_eq_true] at h
  exact builds_pure ⟨rfl, hid, h.1, h.2⟩

/-- Every node of an index is an index with a value. -/
def HasIndices (b : FunctionBuilder) (i : SliceIndex) : Prop :=
  ∀ id ∈ i.nodes, b.HasIndex id

theorem HasIndices.grow {b' : FunctionBuilder} (h : b.Grown b') {i : SliceIndex}
    (hi : HasIndices b i) : HasIndices b' i :=
  fun id hid => h.hasIndex (hi id hid)

/-- A range to the end of an axis ends at the scalar of the axis. -/
def EndsAt (sz : ElemSize) (b : FunctionBuilder) (axis : Dim) (choice : AxisIndex) : Prop :=
  choice.toEnd = true → ∀ {lower upper step}, choice.index = .range lower upper step →
    b.graph.Spans sz b.symbols axis upper

theorem EndsAt.grow {b' : FunctionBuilder} (h : b.Grown b') {axis : Dim} {choice : AxisIndex}
    (hends : EndsAt sz b axis choice) : EndsAt sz b' axis choice :=
  fun htoEnd _ _ _ hindex => h.spans (hends htoEnd hindex)

theorem builds_elementIndex {value : BuildM NodeId} (hvalue : GivesValue sz strict closed value)
    (span : Span) :
    Builds sz strict closed (elementIndex value span) b fun choice b' =>
      HasIndices b' choice.index ∧ ∀ {axis}, EndsAt sz b' axis choice := by
  refine (hvalue b).bind fun id b' _ hid => (builds_requireIndex hid span).bind
    fun _ b'' _ ⟨hsame, hindex⟩ => ?_
  subst hsame
  refine builds_pure ⟨fun id' hid' => ?_, nofun⟩
  rw [List.mem_singleton.mp hid']
  exact hindex

theorem builds_rangeIndex {lower upper step : Option (BuildM NodeId)}
    (hlower : ∀ m, lower = some m → GivesValue sz strict closed m)
    (hupper : ∀ m, upper = some m → GivesValue sz strict closed m)
    (hstep : ∀ m, step = some m → GivesValue sz strict closed m) {axis : Dim} (haxis : b.HasDim axis)
    (span : Span) :
    Builds sz strict closed (rangeIndex lower upper step axis span) b fun choice b' =>
      HasIndices b' choice.index ∧ EndsAt sz b' axis choice := by
  have getD : ∀ {m : Option (BuildM NodeId)} {v : Int64} {b : FunctionBuilder},
      (∀ n, m = some n → GivesValue sz strict closed n) → ElemSize.i8.Holds (.int v) →
      Builds sz strict closed (m.getD (onGraph fun g => g.addConstant (.int v) .i8)) b
        fun id b' => b'.Has id := by
    intro m v b hm hv
    cases m with
    | none => exact builds_addInt hv
    | some n => exact hm n rfl b
  refine (getD hlower ⟨rfl, by decide, by decide⟩).bind fun lower b₁ h₁ hlow => ?_
  -- A missing upper bound is the length of the axis, so the range goes to the end.
  have hdefault : Builds sz strict closed (upper.getD (dimNode axis span)) b₁ fun id b' =>
      b'.Has id ∧ (upper.isNone = true → b'.graph.Spans sz b'.symbols axis id) := by
    cases upper with
    | none => exact (builds_dimNode (h₁.hasDim haxis) span).mono fun _ _ _ h => ⟨h.1, fun _ => h.2⟩
    | some n => exact (hupper n rfl b₁).mono fun _ _ _ h => ⟨h, nofun⟩
  refine hdefault.bind fun upperId b₂ h₂ ⟨hup, hspans⟩ => ?_
  refine (getD hstep ⟨rfl, by decide, by decide⟩).bind fun step b₃ h₃ hst => ?_
  refine (builds_requireIndex (h₃.has (h₂.has hlow)) span).bind fun _ b₄ _ ⟨hsame, hlow⟩ => ?_
  subst hsame
  refine (builds_requireIndex (h₃.has hup) span).bind fun _ b₅ _ ⟨hsame, hup⟩ => ?_
  subst hsame
  refine (builds_requireIndex hst span).bind fun _ b₆ _ ⟨hsame, hst⟩ => ?_
  subst hsame
  refine builds_get_bind (builds_ite (fun _ => builds_fail (by rintro ⟨⟩))
    fun _ => builds_pure ⟨fun id hid => ?_, fun htoEnd _ _ _ hindex => ?_⟩)
  · simp only [SliceIndex.nodes, List.mem_cons, List.not_mem_nil, or_false] at hid
    rcases hid with rfl | rfl | rfl
    · exact hlow
    · exact hup
    · exact hst
  · obtain ⟨-, rfl, -⟩ := SliceIndex.range.inj hindex
    exact h₃.spans (hspans htoEnd)

/-! ## Sizes of slices -/

/-- Integer arithmetic on indices gives an index. -/
theorem builds_indexArithmetic (op : BinOp) {lhs rhs : NodeId} (hlhs : b.HasIndex lhs)
    (hrhs : b.HasIndex rhs) (hop : op.isComparison = false ∧ op.isBoolean = false ∧ op ≠ .div)
    (span : Span) :
    Builds sz strict closed (applyBinary op lhs rhs span) b fun id b' => b'.HasIndex id ∧
      b'.graph.Applies op lhs rhs id := by
  refine (builds_applyBinary op hlhs.avail hrhs.avail span).mono
    fun id b' _ ⟨hid, hsize, hscalar, happlies⟩ => ⟨⟨hid, ?_, ?_⟩, happlies hlhs.scalar hrhs.scalar⟩
  · rw [hscalar, hlhs.scalar, hrhs.scalar]
    rfl
  · rw [hsize]
    simpa [BinOp.resultSize, hop.1, hop.2.1, hop.2.2] using
      ElemSize.lub_isSignedInteger_of hlhs.size hrhs.size

theorem builds_sliceSize {choice : AxisIndex} (hchoice : HasIndices b choice.index) {axis : Dim}
    (haxis : b.HasDim axis) (hends : EndsAt sz b axis choice) (span : Span) :
    Builds sz strict closed (sliceSize choice axis span) b fun d b' => b'.HasDim d ∧
      b'.graph.Measures sz b'.symbols axis choice.index d := by
  unfold sliceSize
  split
  · next i hindex =>
    rw [hindex]
    exact builds_pure ⟨trivial, .element i⟩
  · next lower upper step hindex =>
    rw [hindex] at hchoice
    have hlower : b.HasIndex lower := hchoice lower (by simp [SliceIndex.nodes])
    have hupper : b.HasIndex upper := hchoice upper (by simp [SliceIndex.nodes])
    have hstep : b.HasIndex step := hchoice step (by simp [SliceIndex.nodes])
    have hlt : b.graph.Valid b.entry → ∀ {id : NodeId}, b.HasIndex id →
        id.index < b.graph.nodes.size := fun hv _ hid => hid.avail.lt hv.entry
    rw [hindex]
    refine builds_get_bind (builds_of_wellFormed fun hb => ?_)
    split
    · next l u s hl hu hs =>
      refine builds_ite (fun _ => builds_pure ⟨trivial, ?_⟩) fun _ => builds_fail (by rintro ⟨⟩)
      exact .constant (FunctionBuilder.constantInt?_eq_some.mp hl)
        (FunctionBuilder.constantInt?_eq_some.mp hu) (FunctionBuilder.constantInt?_eq_some.mp hs)
    · next hknown =>
      have hopen : b.graph.OpenRange lower upper step := by
        refine ⟨hlt hb.valid hlower, hlt hb.valid hupper, hlt hb.valid hstep, ?_⟩
        rintro ⟨l, u, s, hl, hu, hs⟩
        exact hknown l u s (FunctionBuilder.constantInt?_eq_some.mpr hl)
          (FunctionBuilder.constantInt?_eq_some.mpr hu) (FunctionBuilder.constantInt?_eq_some.mpr hs)
      refine builds_ite (fun hwhole => builds_pure ⟨haxis, ?_⟩) fun _ => ?_
      · obtain ⟨hl, hs, htoEnd⟩ := hwhole
        exact .whole hopen (FunctionBuilder.constantInt?_eq_some.mp hl)
          (FunctionBuilder.constantInt?_eq_some.mp hs) (hends htoEnd hindex)
      refine (builds_intConstant 1 span).bind fun one b₁ h₁ hconstant => ?_
      obtain ⟨hone, i, hi, hint⟩ := hconstant
      obtain rfl : i = 1 := Int64.toInt_inj.mp hi
      refine (builds_indexArithmetic .sub (h₁.hasIndex hupper) (h₁.hasIndex hlower)
        (by decide) span).bind fun extent b₂ h₂ hextent => ?_
      refine (builds_indexArithmetic .sub hextent.1 (h₂.hasIndex hone) (by decide) span).bind
        fun last b₃ h₃ hlast => ?_
      refine (builds_indexArithmetic .floorDiv hlast.1
        (h₃.hasIndex (h₂.hasIndex (h₁.hasIndex hstep))) (by decide) span).bind
        fun steps b₄ h₄ hsteps => ?_
      refine (builds_indexArithmetic .add hsteps.1
        (h₄.hasIndex (h₃.hasIndex (h₂.hasIndex hone))) (by decide) span).bind
        fun size b₅ h₅ hsize => builds_pure ⟨hsize.1, ?_⟩
      -- What was built on the way is still there at the end.
      have h₄₅ := h₅.carries
      have h₃₅ := (h₄.trans h₅).carries
      have h₂₅ := (h₃.trans (h₄.trans h₅)).carries
      have h₁₅ := (h₂.trans (h₃.trans (h₄.trans h₅))).carries
      exact .computed ((h₁.trans (h₂.trans (h₃.trans (h₄.trans h₅)))).carries.openRange hopen)
        (h₁₅.isInt hint) (h₂₅.applies hextent.2) (h₃₅.applies hlast.2) (h₄₅.applies hsteps.2)
        hsize.2

theorem builds_sliceSizes (span : Span) (choices : List AxisIndex) :
    ∀ {b : FunctionBuilder} {axes : Shape}, (∀ c ∈ choices, HasIndices b c.index) →
      (∀ p ∈ axes.zip choices, EndsAt sz b p.1 p.2) → (∀ d ∈ axes, b.HasDim d) →
      choices.length ≤ axes.length →
      Builds sz strict closed (sliceSizes span choices axes) b fun sizes b' =>
        sizes.length = choices.length ∧ (∀ d ∈ sizes, b'.HasDim d) ∧
          b'.graph.MeasuresAll sz b'.symbols axes (choices.map AxisIndex.index)
            (sizes ++ axes.drop choices.length) := by
  induction choices with
  | nil => exact fun _ _ _ _ => builds_pure ⟨rfl, by simp, .rest _⟩
  | cons choice choices ih =>
    intro b axes hchoices hends haxes hle
    cases axes with
    | nil => cases hle
    | cons axis axes =>
      refine (builds_sliceSize (hchoices _ (List.mem_cons_self ..))
        (haxes _ (List.mem_cons_self ..)) (hends _ (List.mem_cons_self ..)) span).bind
        fun size b₁ h₁ ⟨hsize, hmeasures⟩ => ?_
      refine (ih (fun c hc => (hchoices c (List.mem_cons_of_mem _ hc)).grow h₁)
        (fun p hp => (hends p (List.mem_cons_of_mem _ hp)).grow h₁)
        (fun d hd => h₁.hasDim (haxes d (List.mem_cons_of_mem _ hd)))
        (Nat.le_of_succ_le_succ hle)).bind fun sizes b₂ h₂ ⟨hlength, hsizes, hall⟩ => ?_
      refine builds_pure ⟨by simp [hlength], fun d hd => ?_, .cons (h₂.measures hmeasures) hall⟩
      rcases List.mem_cons.mp hd with rfl | hd
      · exact h₂.hasDim hsize
      · exact hsizes d hd

/-! ## Reading tensors -/

theorem builds_indexedAxes (target : NodeId) (count : Nat) (span : Span) :
    Builds sz strict closed (indexedAxes target count span) b fun axes b' => b' = b ∧
      axes = b.graph.shape target ∧ axes ≠ [] ∧ count ≤ axes.length := by
  refine builds_get_bind (builds_ite (fun _ => builds_fail (by rintro ⟨⟩))
    fun hne => builds_ite (fun _ => builds_fail (by rintro ⟨⟩)) fun hcount => ?_)
  exact builds_pure ⟨rfl, rfl, by simpa using hne, Nat.le_of_not_lt hcount⟩

theorem isScalar_eq_false_of_shape {g : Graph} {id : NodeId} (h : g.shape id ≠ []) :
    g.isScalar id = false := by
  cases hscalar : g.isScalar id with
  | false => rfl
  | true => exact absurd (Graph.shape_of_isScalar hscalar) h

theorem builds_readTensor {target : NodeId} (htarget : b.Has target)
    (hshape : b.graph.shape target ≠ []) {choices : List AxisIndex}
    (hchoices : ∀ c ∈ choices, HasIndices b c.index)
    (hends : ∀ p ∈ (b.graph.shape target).zip choices, EndsAt sz b p.1 p.2)
    (hle : choices.length ≤ (b.graph.shape target).length) (span : Span) :
    Builds sz strict closed (readTensor target choices span) b fun id b' => b'.Has id := by
  have hindices : ∀ {b' : FunctionBuilder}, b.Grown b' →
      ∀ i ∈ choices.map AxisIndex.index, ∀ id ∈ i.nodes, b'.HasIndex id := by
    intro b' hgrown i hi id hid
    obtain ⟨c, hc, rfl⟩ := List.mem_map.mp hi
    exact hgrown.hasIndex (hchoices c hc id hid)
  -- An operator that reads the target and the nodes of the indices reads nodes with a value.
  have hinputs : ∀ {b' : FunctionBuilder}, b.Grown b' → ∀ id ∈ target ::
      (choices.map AxisIndex.index).flatMap SliceIndex.nodes, b'.Has id := by
    intro b' hgrown id hid
    rcases List.mem_cons.mp hid with rfl | hid
    · exact hgrown.has htarget
    · obtain ⟨i, hi, hid⟩ := List.mem_flatMap.mp hid
      exact (hindices hgrown i hi id hid).avail
  refine builds_get_bind (builds_of_wellFormed fun hb => builds_ite (fun hall => ?_) fun _ => ?_)
  · obtain ⟨hlength, helements⟩ := hall
    -- Every index is an element, so there is one node for each axis.
    have hnodes : ((choices.map AxisIndex.index).flatMap SliceIndex.nodes).length =
        (choices.map AxisIndex.index).length := by
      rw [List.length_flatMap]
      have hone : ∀ i ∈ choices.map AxisIndex.index, i.nodes.length = 1 := by
        intro i hi
        cases i with
        | element id => rfl
        | range lower upper step =>
          simp only [Bool.not_eq_true', List.any_eq_false] at helements
          exact absurd rfl (helements _ hi)
      rw [List.map_congr_left hone, List.map_const', List.sum_replicate_nat]
      simp
    refine builds_onGraph _ (fun hv => Graph.produces_getItem hv htarget
      (isScalar_eq_false_of_shape hshape) (fun id hid => ?_) ?_)
      (fun hv he => he.compute hv none (by nofun) rfl (by nofun) (by nofun) (hinputs (.refl hv)))
      fun _ _ _ hid _ => hid
    · obtain ⟨i, hi, hid⟩ := List.mem_flatMap.mp hid
      exact hindices (.refl hv) i hi id hid
    · rw [hnodes, hlength]
  · refine (builds_sliceSizes span choices hchoices hends (hb.hasDim htarget) hle).bind
      fun picked b₁ h₁ ⟨hlength, hpicked, hmeasures⟩ => ?_
    have hsame : b₁.graph.shape target = b.graph.shape target := h₁.shape_eq htarget
    refine builds_onGraph (.tensor (b.graph.elemSize target)
      (trimmedShape (picked ++ (b.graph.shape target).drop choices.length)))
      (fun hv => ?_) (fun hv he => he.slice hv none _ _ (hinputs h₁) (by rwa [hsame]))
      fun _ _ _ hid _ => hid
    have hsize : b.graph.elemSize target = b₁.graph.elemSize target := (h₁.elemSize_eq htarget).symm
    simp only [hsize]
    refine Graph.produces_slice hv (h₁.has htarget) ?_ (hindices h₁) ?_ ?_ ?_ ?_
    · rw [h₁.isScalar_eq htarget]
      exact isScalar_eq_false_of_shape hshape
    · rw [hsame, List.length_map]
      exact hle
    · rw [hsame, List.length_append, List.length_drop, hlength]
      omega
    · rwa [hsame]
    · intro d hd
      rcases List.mem_append.mp hd with hd | hd
      · exact hpicked d hd
      · exact h₁.hasDim (hb.hasDim htarget d (List.mem_of_mem_drop hd))

end BuildM

end TensorKernel
