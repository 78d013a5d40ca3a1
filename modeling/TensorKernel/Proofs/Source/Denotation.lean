import TensorKernel.Proofs.Build.Expression
import TensorKernel.Proofs.Build.View
import TensorKernel.Proofs.Source.Execution

/-!
# Nodes that stand for values

`Denotes` says that a node of a builder has the value that executing a kernel function computes.  A
node denotes the same in a larger graph, and every operator that is added to a graph gives a node
which denotes what execution computes from the operands.
-/

namespace TensorKernel

/-- Whether a value is a scalar. -/
def Value.isScalar : Value → Bool
  | .scalar _ => true
  | .tensor _ _ => false

theorem Value.isScalar_convert (v : Value) (sz : ElemSize) :
    (v.convert sz).isScalar = v.isScalar := by
  cases v <;> rfl

/-- A node that has a value of its type. -/
structure Denotes (given : GivenValues) (sizes : Table String Nat) (b : FunctionBuilder) (id : NodeId)
    (t : TypedValue) : Prop where
  has : b.Has id
  size : b.graph.elemSize id = t.size
  scalar : b.graph.isScalar id = t.value.isScalar
  rank : (b.graph.shape id).length = t.value.shape.length
  value : meaning ⟨b.graph, sizes⟩ given id = .ok t.value

/-- A value with a literal is a scalar. -/
theorem TypedValue.value_of_literal? {t : TypedValue} {v : Literal} (h : t.literal? = some v) :
    t.value = .scalar v := by
  unfold TypedValue.literal? at h
  split at h
  · next w hw => rw [hw, Option.some.inj h]
  · cases h

namespace Denotes

variable {given : GivenValues} {sizes : Table String Nat} {b : FunctionBuilder} {id : NodeId}
  {t : TypedValue} (h : Denotes given sizes b id t)
include h

theorem isScalar_of_literal? {v : Literal} (hv : t.literal? = some v) :
    b.graph.isScalar id = true := by
  rw [h.scalar, TypedValue.value_of_literal? hv]
  rfl

/-- The literal that is read from a node. -/
theorem read {v : Literal} (hv : t.literal? = some v) :
    Meaning.scalar (meaning ⟨b.graph, sizes⟩ given) id = .ok v := by
  rw [Meaning.scalar, h.value, TypedValue.value_of_literal? hv]
  rfl

/-- A node that denotes a tensor is one, with as many axes. -/
theorem isScalar_of_tensor {shape : List Nat} {data : Array Literal}
    (hvalue : t.value = .tensor shape data) :
    b.graph.isScalar id = false ∧ (b.graph.shape id).length = shape.length := by
  constructor
  · rw [h.scalar, hvalue]
    rfl
  · rw [h.rank, hvalue]
    rfl

end Denotes

section Denotes

variable {sz : ElemSize} {given : GivenValues} {sizes : Table String Nat} {b b' : FunctionBuilder}
  (hb : b.WellFormed sz) (hgiven : b.entry.GivenBy given)
include hb hgiven

/-- A node denotes the same in a larger graph. -/
theorem Denotes.grow (h : b.Grown b') {id : NodeId} {t : TypedValue}
    (hid : Denotes given sizes b id t) : Denotes given sizes b' id t where
  has := h.has hid.has
  size := (h.elemSize_eq hid.has).trans hid.size
  scalar := (h.isScalar_eq hid.has).trans hid.scalar
  rank := by rw [h.shape_eq hid.has, hid.rank]
  value := (hb.meaning_grown h hgiven sizes hid.has).trans hid.value

/-- A new node denotes the value of the operator that computes it. -/
theorem denotes_compute {name : Option String} {kind : NodeKind} {op : OpKind}
    {inputs : List NodeId} {ty : KernelType}
    (hkind : ∀ v size, kind ≠ .constant v size)
    (h : b.graph.Produces b.entry (b.graph.compute name kind op inputs) ty) {v : Value}
    (hscalar : ty.isScalar = v.isScalar) (hrank : ty.shape.length = v.shape.length)
    (hvalue : Meaning.operator ⟨(b.graph.compute name kind op inputs).2, sizes⟩
      (meaning ⟨(b.graph.compute name kind op inputs).2, sizes⟩ given)
      ⟨op, inputs, [⟨b.graph.nodes.size⟩]⟩ ⟨b.graph.nodes.size⟩ = .ok v) :
    Denotes given sizes { b with graph := (b.graph.compute name kind op inputs).2 }
      ⟨b.graph.nodes.size⟩ ⟨ty.elemSize, v⟩ := by
  have hnot := (hb.valid.entry.not_given (Nat.le_refl b.graph.nodes.size)).1
  have hconstant : ((b.graph.compute name kind op inputs).2.node
      ⟨b.graph.nodes.size⟩).constant? = none := by
    rw [Node.constant?, Graph.compute_kind]
    cases kind with
    | constant v size => exact absurd rfl (hkind v size)
    | scalar size => rfl
    | tensor size shape => rfl
  have hmeaning := @meaning_of_producer ⟨(b.graph.compute name kind op inputs).2, sizes⟩ b.entry given
    h.valid.coherent h.valid.entry hgiven _ h.available _ (hgiven.get?_eq_none hnot) hconstant
    (Graph.compute_producer ..)
  refine ⟨h.available, ?_, ?_, ?_, ?_⟩
  · exact Graph.elemSize_of_type h.type
  · exact (Graph.isScalar_of_type h.type).trans hscalar
  · exact (congrArg List.length (Graph.shape_of_type h.type)).trans hrank
  · refine hmeaning.trans ?_
    show Meaning.operator _ _ ((b.graph.compute name kind op inputs).2.op ⟨b.graph.ops.size⟩) _ = _
    rw [Graph.compute_op]
    exact hvalue

end Denotes

/-! ## Steps of expressions -/

namespace BuildM

open FunctionBuilder (Grown)

/-- What holds after a step if it succeeds, whatever has been built before. -/
abbrev Yields {α : Type} (m : BuildM α) (b : FunctionBuilder) (Q : α → FunctionBuilder → Prop) :
    Prop :=
  Meets (fun _ => True) False m b Q

theorem yields_fail {α : Type} {b : FunctionBuilder} {Q : α → FunctionBuilder → Prop} {span : Span}
    {fault : BuildFault} : Yields (fail span fault) b Q :=
  meets_throw False.elim

/-- A step that lets the graph grow, and gives a node with a value. -/
abbrev Evaluates (given : GivenValues) (sizes : Table String Nat) (m : BuildM NodeId)
    (b : FunctionBuilder) (t : TypedValue) : Prop :=
  Yields m b fun id b' => b.Grown b' ∧ Denotes given sizes b' id t

variable {sz : ElemSize} {given : GivenValues} {sizes : Table String Nat} {b : FunctionBuilder}
  (hb : b.WellFormed sz) (hgiven : b.entry.GivenBy given)
include hb hgiven

/-! ### Constants -/

theorem evaluates_addConstant (v : Literal) (size : ElemSize) :
    Evaluates given sizes (onGraph fun g => g.addConstant v size) b
      ⟨size, .scalar (v.convert size)⟩ := by
  have hproduces := Graph.produces_constant hb.valid v size
  have hgrown := Grown.of_produces hb.valid hproduces
  have hconstant : ((b.graph.addConstant v size).2.node (b.graph.addConstant v size).1).constant? =
      some v := by
    simp [Graph.addConstant, Node.constant?]
  have hnot := (hb.valid.entry.not_given (Nat.le_refl b.graph.nodes.size)).1
  have hmeaning := @meaning_of_constant ⟨(b.graph.addConstant v size).2, sizes⟩ given _ _
    (hgiven.get?_eq_none hnot) hconstant
  refine meets_onGraph ⟨hgrown, hproduces.available, ?_, ?_, ?_, ?_⟩
  · exact Graph.elemSize_of_type hproduces.type
  · exact Graph.isScalar_of_type hproduces.type
  · exact congrArg List.length (Graph.shape_of_type hproduces.type)
  · exact hmeaning.trans (congrArg (fun size => Except.ok (Value.scalar (v.convert size)))
      (Graph.elemSize_of_type hproduces.type))

theorem evaluates_intConstant {v : Int} {t : TypedValue} (h : TypedValue.ofInt? v = some t)
    (span : Span) : Evaluates given sizes (intConstant v span) b t := by
  unfold TypedValue.ofInt? at h
  unfold intConstant
  obtain ⟨size, hsize, h⟩ := Option.bind_eq_some_iff.mp h
  obtain rfl := Option.some.inj h
  rw [hsize]
  exact evaluates_addConstant hb hgiven _ size

theorem evaluates_floatConstant {v : Float} {t : TypedValue} (h : TypedValue.ofFloat? v = some t)
    (span : Span) : Evaluates given sizes (floatConstant v span) b t := by
  unfold TypedValue.ofFloat? at h
  unfold floatConstant
  obtain ⟨size, hsize, h⟩ := Option.bind_eq_some_iff.mp h
  obtain rfl := Option.some.inj h
  rw [hsize]
  exact evaluates_addConstant hb hgiven _ size

/-! ### Operators -/

theorem evaluates_applyUnary {op : UnOp} {arg : NodeId} {t r : TypedValue}
    (harg : Denotes given sizes b arg t) (h : t.unary? op = some r) (span : Span) :
    Evaluates given sizes (applyUnary op arg span) b r := by
  obtain ⟨v, hv, h⟩ := Option.bind_eq_some_iff.mp h
  obtain ⟨w, hw, h⟩ := Option.bind_eq_some_iff.mp h
  obtain rfl := Option.some.inj h
  have hscalar := harg.isScalar_of_literal? hv
  refine meets_get_bind (meets_ite (fun _ => yields_fail) fun hneg =>
    meets_ite (fun _ => yields_fail) fun hnot => meets_onGraph ?_)
  rw [Graph.applyUnary, if_pos hscalar, ← harg.size] at *
  have htyped : op.Typed (b.graph.elemSize arg)
      (if op = .not then .bool else b.graph.elemSize arg) := by
    refine ⟨rfl, fun h => ?_, fun h => ?_⟩
    · simpa [h] using hneg
    · simpa [h] using hnot
  have hproduces := Graph.produces_scalarUnary hb.valid harg.has hscalar htyped
  have hgrown := Grown.of_produces hb.valid hproduces
  have hsize := Graph.elemSize_of_type hproduces.type
  refine ⟨hgrown, denotes_compute hb hgiven (fun _ _ h => by cases h) hproduces rfl rfl ?_⟩
  have hread := (harg.grow hb hgiven hgrown).read hv
  have hresult := (congrArg (fun size => Meaning.ofArithmetic (v.unary op size)) hsize).trans
    (congrArg Meaning.ofArithmetic (ok_of_toOption hw))
  exact bind_of_ok (bind_of_ok hread hresult) rfl

theorem evaluates_applyBinary {op : BinOp} {lhs rhs : NodeId} {l r t : TypedValue}
    (hlhs : Denotes given sizes b lhs l) (hrhs : Denotes given sizes b rhs r)
    (h : l.binary? op r = some t) (span : Span) :
    Evaluates given sizes (applyBinary op lhs rhs span) b t := by
  obtain ⟨v, hv, h⟩ := Option.bind_eq_some_iff.mp h
  obtain ⟨w, hw, h⟩ := Option.bind_eq_some_iff.mp h
  obtain ⟨u, hu, h⟩ := Option.bind_eq_some_iff.mp h
  obtain rfl := Option.some.inj h
  have hl := hlhs.isScalar_of_literal? hv
  have hr := hrhs.isScalar_of_literal? hw
  refine meets_get_bind (meets_ite (fun _ => yields_fail) fun hbits => ?_)
  have hshape : resultShape op (b.graph.type lhs) (b.graph.type rhs) span = pure none := by
    have hscalars : ((b.graph.type lhs).isScalar && (b.graph.type rhs).isScalar) = true :=
      Bool.and_eq_true_iff.mpr ⟨hl, hr⟩
    rw [resultShape, if_pos hscalars]
  rw [hshape]
  refine (meets_pure (Q := fun shape b' => shape = none ∧ b' = b) ⟨rfl, rfl⟩).bind
    fun shape b' ⟨hnone, hsame⟩ => meets_onGraph ?_
  subst hnone
  subst hsame
  have htyped : op.Typed (b'.graph.elemSize lhs) (b'.graph.elemSize rhs)
      (op.resultSize (b'.graph.elemSize lhs) (b'.graph.elemSize rhs)) := .of_accepted hbits
  have hproduces := Graph.produces_scalarBinary hb.valid hlhs.has hrhs.has hl hr htyped
  have hgrown := Grown.of_produces hb.valid hproduces
  have hsize := Graph.elemSize_of_type hproduces.type
  rw [← hlhs.size, ← hrhs.size] at *
  refine ⟨hgrown, denotes_compute hb hgiven (fun _ _ h => by cases h) hproduces rfl rfl ?_⟩
  have hreadl := (hlhs.grow hb hgiven hgrown).read hv
  have hreadr := (hrhs.grow hb hgiven hgrown).read hw
  have hresult := (congrArg (fun size => Meaning.ofArithmetic (v.binary op w size)) hsize).trans
    (congrArg Meaning.ofArithmetic (ok_of_toOption hu))
  exact bind_of_ok (bind_of_ok hreadl (bind_of_ok hreadr hresult)) rfl

omit hb hgiven in
theorem evaluates_applyChain {span : Span} {pairs : List (BinOp × NodeId)} :
    ∀ {b : FunctionBuilder} {lhs : NodeId} {l t : TypedValue} {rs : List (BinOp × TypedValue)},
      b.WellFormed sz → b.entry.GivenBy given → Denotes given sizes b lhs l →
      List.Forall₂ (fun p q => p.1 = q.1 ∧ Denotes given sizes b p.2 q.2) pairs rs →
      l.chain? rs = some t → Evaluates given sizes (applyChain lhs span pairs) b t := by
  induction pairs with
  | nil =>
    intro b lhs l t rs hb _ hlhs hpairs h
    cases hpairs
    obtain rfl := Option.some.inj h
    exact meets_pure ⟨.refl hb.valid, hlhs⟩
  | cons pair pairs ih =>
    intro b lhs l t rs hb hgiven hlhs hpairs h
    obtain ⟨op, rhs⟩ := pair
    cases hpairs with
    | @cons _ r _ rs hpair hpairs =>
      obtain ⟨hop, hrhs⟩ := hpair
      obtain ⟨m, hm, h⟩ := Option.bind_eq_some_iff.mp h
      rw [← hop] at hm
      refine meets_get_bind (meets_ite (fun _ => ?_) fun _ => yields_fail)
      refine (evaluates_applyBinary hb hgiven hlhs hrhs hm span).bind fun id b₁ ⟨h₁, hid⟩ => ?_
      have hgiven₁ : b₁.entry.GivenBy given := by
        rw [h₁.entry_eq]
        exact hgiven
      have hrest := hpairs.imp fun _ _ ⟨hop, hr⟩ => And.intro hop (hr.grow hb hgiven h₁)
      exact (ih (h₁.wellFormed hb) hgiven₁ hid hrest h).mono fun _ _ ⟨h₂, hid₂⟩ =>
        ⟨h₁.trans h₂, hid₂⟩

/-! ### Elements -/

omit hb hgiven in
/-- The indices that are read from nodes are those that execution reads. -/
theorem indices_of_indices? {ids : List NodeId} {is : List TypedValue}
    (his : List.Forall₂ (Denotes given sizes b) ids is) :
    ∀ {shape idx : List Nat}, TypedValue.indices? is shape = some idx →
      is.length = shape.length ∧
        Meaning.indices (meaning ⟨b.graph, sizes⟩ given) ids shape = .ok idx := by
  induction his with
  | nil =>
    intro shape idx h
    cases shape with
    | nil =>
      obtain rfl := Option.some.inj h
      exact ⟨rfl, rfl⟩
    | cons n shape => cases h
  | @cons id i ids is hid his ih =>
    intro shape idx h
    cases shape with
    | nil => cases h
    | cons n shape =>
      obtain ⟨v, hv, h⟩ := Option.bind_eq_some_iff.mp h
      obtain ⟨rest, hrest, h⟩ := Option.bind_eq_some_iff.mp h
      obtain ⟨hlength, hindices⟩ := ih hrest
      split at h
      · next hinside =>
        obtain rfl := Option.some.inj h
        refine ⟨congrArg Nat.succ hlength, ?_⟩
        have hindex : Meaning.index (meaning ⟨b.graph, sizes⟩ given) id n =
            .ok v.asInt.toInt.toNat :=
          bind_of_ok (hid.read hv) (if_pos hinside.2)
        exact bind_of_ok hindex (bind_of_ok hindices rfl)
      · cases h

/-- The choice of single elements. -/
def elementChoices (ids : List NodeId) : List AxisIndex :=
  ids.map fun id => ⟨.element id, false⟩

omit hb hgiven in
theorem nodes_elementChoices (ids : List NodeId) :
    ((elementChoices ids).map AxisIndex.index).flatMap SliceIndex.nodes = ids := by
  induction ids with
  | nil => rfl
  | cons id ids ih => exact congrArg (id :: ·) ih

theorem evaluates_readTensor {target : NodeId} {ids : List NodeId} {t r : TypedValue}
    {is : List TypedValue} (htarget : Denotes given sizes b target t)
    (his : List.Forall₂ (Denotes given sizes b) ids is) (hindex : ∀ id ∈ ids, b.HasIndex id)
    (h : t.element? is = some r) (span : Span) :
    Evaluates given sizes (readTensor target (elementChoices ids) span) b r := by
  unfold TypedValue.element? at h
  split at h
  · cases h
  · next shape data hvalue =>
    obtain ⟨idx, hidx, h⟩ := Option.bind_eq_some_iff.mp h
    obtain ⟨v, hv, h⟩ := Option.bind_eq_some_iff.mp h
    obtain rfl := Option.some.inj h
    obtain ⟨htensor, hrank⟩ := htarget.isScalar_of_tensor hvalue
    have hlength : ids.length = (b.graph.shape target).length := by
      rw [his.length_eq, (indices_of_indices? his hidx).1, hrank]
    have hall : ((elementChoices ids).map AxisIndex.index).length =
          (b.graph.shape target).length ∧
        (!((elementChoices ids).map AxisIndex.index).any SliceIndex.isRange) = true := by
      refine ⟨by simp [elementChoices, hlength], ?_⟩
      simp [elementChoices, SliceIndex.isRange]
    refine meets_get_bind ?_
    dsimp only
    rw [if_pos hall, nodes_elementChoices]
    have hproduces := Graph.produces_getItem hb.valid htarget.has htensor hindex hlength
    have hgrown := Grown.of_produces hb.valid hproduces
    have hsize := Graph.elemSize_of_type hproduces.type
    refine meets_onGraph ⟨hgrown, ?_⟩
    rw [← htarget.size] at *
    refine denotes_compute hb hgiven (fun _ _ h => by cases h) hproduces rfl rfl ?_
    have htarget' := htarget.grow hb hgiven hgrown
    have his' := his.imp fun _ _ hi => hi.grow hb hgiven hgrown
    obtain ⟨-, hindices⟩ := indices_of_indices? his' hidx
    have htensor' : Meaning.tensor (meaning ⟨_, sizes⟩ given) target = .ok (shape, data) :=
      bind_of_ok htarget'.value (by rw [hvalue])
    have helement : Meaning.element data (Index.place shape idx) = .ok v := by
      rw [Meaning.element, hv]
    exact bind_of_ok htensor' (bind_of_ok hindices (bind_of_ok helement
      (congrArg (fun size => Except.ok (Value.scalar (v.convert size))) hsize)))

/-! ### Assignments -/

theorem denotes_copy {name : Option String} {kind : NodeKind} {op : OpKind} {src : NodeId}
    {ty : KernelType} {t : TypedValue} (hkind : Node.type ⟨name, kind, none, []⟩ = ty)
    (hconstant : ∀ v size, kind ≠ .constant v size) (hop : op = .copy ∨ op = .deepCopy)
    (hsrc : Denotes given sizes b src t) (same : ty.sameShape (b.graph.type src) = true) :
    b.Grown { b with graph := (b.graph.compute name kind op [src]).2 } ∧
      Denotes given sizes { b with graph := (b.graph.compute name kind op [src]).2 }
        ⟨b.graph.nodes.size⟩ ⟨ty.elemSize, t.value.convert ty.elemSize⟩ := by
  have hproduces := Graph.produces_copy hb.valid hkind hop hsrc.has same
  have hgrown := Grown.of_produces hb.valid hproduces
  have hsize := Graph.elemSize_of_type hproduces.type
  obtain ⟨hscalar, hshape⟩ := Graph.shape_eq_of_sameShape same
  have hread : meaning ⟨(b.graph.compute name kind op [src]).2, sizes⟩ given src = .ok t.value :=
    (hsrc.grow hb hgiven hgrown).value
  refine ⟨hgrown, denotes_compute hb hgiven hconstant hproduces ?_ ?_ ?_⟩
  · rw [hscalar, Value.isScalar_convert]
    exact hsrc.scalar
  · rw [hshape, Value.shape_convert]
    exact hsrc.rank
  · rcases hop with rfl | rfl <;>
      exact bind_of_ok hread (congrArg (fun size => Except.ok (t.value.convert size)) hsize)

theorem denotes_setItem {name : Option String} {kind : NodeKind} {target value : NodeId}
    {ids : List NodeId} {t r new : TypedValue} {is : List TypedValue}
    (hkind : Node.type ⟨name, kind, none, []⟩ = b.graph.type target)
    (hconstant : ∀ v size, kind ≠ .constant v size) (htarget : Denotes given sizes b target t)
    (hvalue : Denotes given sizes b value r) (his : List.Forall₂ (Denotes given sizes b) ids is)
    (hindex : ∀ id ∈ ids, b.HasIndex id) (h : t.setElement? is r = some new) :
    b.Grown { b with graph := (b.graph.compute name kind .setItem (target :: value :: ids)).2 } ∧
      Denotes given sizes
        { b with graph := (b.graph.compute name kind .setItem (target :: value :: ids)).2 }
        ⟨b.graph.nodes.size⟩ new := by
  unfold TypedValue.setElement? at h
  split at h
  · cases h
  · next shape data hdata =>
    obtain ⟨idx, hidx, h⟩ := Option.bind_eq_some_iff.mp h
    obtain ⟨v, hv, h⟩ := Option.bind_eq_some_iff.mp h
    obtain ⟨old, hold, h⟩ := Option.bind_eq_some_iff.mp h
    obtain rfl := Option.some.inj h
    obtain ⟨htensor, hrank⟩ := htarget.isScalar_of_tensor hdata
    have hlength : ids.length = (b.graph.shape target).length := by
      rw [his.length_eq, (indices_of_indices? his hidx).1, hrank]
    have hproduces := Graph.produces_setItem hb.valid hkind htarget.has htensor hvalue.has
      (hvalue.isScalar_of_literal? hv) hindex hlength
    have hgrown := Grown.of_produces hb.valid hproduces
    have hsize : (b.graph.compute name kind .setItem (target :: value :: ids)).2.elemSize
        ⟨b.graph.nodes.size⟩ = t.size :=
      (Graph.elemSize_of_type hproduces.type).trans htarget.size
    have htarget' := htarget.grow hb hgiven hgrown
    have hvalue' := hvalue.grow hb hgiven hgrown
    have his' := his.imp fun _ _ hi => hi.grow hb hgiven hgrown
    have hread : Meaning.tensor (meaning ⟨_, sizes⟩ given) target = .ok (shape, data) :=
      bind_of_ok htarget'.value (by rw [hdata])
    have hindices := (indices_of_indices? his' hidx).2
    have helement : Meaning.element data (Index.place shape idx) = .ok old := by
      rw [Meaning.element, hold]
    -- The operator reads the tensor, the value and the indices in this order.
    have hdenotes := denotes_compute hb hgiven hconstant hproduces
      (v := .tensor shape (data.setIfInBounds (Index.place shape idx) (v.convert t.size)))
      htensor hrank
      (bind_of_ok hread (bind_of_ok (hvalue'.read hv) (bind_of_ok hindices (bind_of_ok helement
        (congrArg (fun size => Except.ok (Value.tensor shape
          (data.setIfInBounds (Index.place shape idx) (v.convert size)))) hsize)))))
    rw [show (b.graph.type target).elemSize = t.size from htarget.size] at hdenotes
    exact ⟨hgrown, hdenotes⟩

end BuildM

end TensorKernel
