import TensorKernel.Proofs.Lower.Logic

/-!
# Lowering scalar operators succeeds

There is an instruction for every operator on operands of types that the typing rules allow.
-/

namespace TensorKernel

theorem ElemSize.isFloatingPoint_lub {l r : ElemSize} (hl : l.isFloatingPoint = false)
    (hr : r.isFloatingPoint = false) : (l.lub r).isFloatingPoint = false := by
  cases l <;> cases r <;> first | rfl | contradiction

namespace BinOp.Typed

variable {op : BinOp} {lhs rhs dst : ElemSize}

/-- True division gives a floating-point number. -/
theorem division (h : op.Typed lhs rhs dst) (hop : op = .div) : dst.isFloatingPoint = true := by
  subst hop
  rw [h.result]
  cases hfloat : (lhs.lub rhs).isFloatingPoint with
  | true => simp [resultSize, isComparison, isBoolean, hfloat]
  | false =>
    simp only [resultSize, isComparison, isBoolean, hfloat]
    rfl

/-- Boolean and bitwise operators give no floating-point number. -/
theorem logical (h : op.Typed lhs rhs dst) (hop : op.isBoolean = true ∨ op.isBitwise = true) :
    dst.isFloatingPoint = false := by
  rw [h.result]
  rcases hop with hop | hop
  · simp only [resultSize, hop, Bool.or_true, if_true]
    rfl
  · obtain ⟨hl, hr⟩ := h.bitwise hop
    have hlub := ElemSize.isFloatingPoint_lub hl hr
    cases op <;> simp [isBitwise] at hop <;> simpa [resultSize, isComparison, isBoolean] using hlub

end BinOp.Typed

namespace LowerM

variable {g : Graph} {s : LowerState}

theorem lowers_constant (v : Literal) (sz : ElemSize) :
    Lowers g (constant v sz) s fun _ _ => True :=
  lowers_define _ _

theorem lowers_zero (sz : ElemSize) : Lowers g (zero sz) s fun _ _ => True :=
  lowers_constant _ sz

theorem lowers_arith (op : Buffer.ArithOp) (lhs rhs : Name) (sz : ElemSize) :
    Lowers g (arith op lhs rhs sz) s fun _ _ => True :=
  lowers_define _ _

theorem lowers_compare (predicate : Buffer.Predicate) (lhs rhs : Name) (sz : ElemSize) :
    Lowers g (compare predicate lhs rhs sz) s fun _ _ => True :=
  lowers_define _ _

theorem lowers_floatUnary (base : String) (op : Buffer.UnaryOp) (arg : Name) (sz : ElemSize) :
    Lowers g (floatUnary base op arg sz) s fun _ _ => True :=
  lowers_define _ _

theorem lowers_cast (v : TypedName) (target : ElemSize) :
    Lowers g (cast v target) s fun _ _ => True := by
  refine lowers_ite (fun _ => lowers_pure trivial) fun _ => ?_
  refine (lowers_fresh _).bind fun dst s₁ _ _ => ?_
  have hdst : ∀ s₂, Lowers g (pure dst) s₂ fun _ _ => True := fun _ => lowers_pure trivial
  refine lowers_ite (fun _ => ?_) fun _ => ?_
  · exact (lowers_zero v.size).bind fun _ _ _ _ => (lowers_emit _).bind fun _ s₂ _ _ => hdst s₂
  · exact (lowers_emit _).bind fun _ s₂ _ _ => hdst s₂

theorem lowers_floorRem (lhs rhs : Name) (sz : ElemSize) :
    Lowers g (floorRem lhs rhs sz) s fun _ _ => True := by
  refine (lowers_arith _ lhs rhs sz).bind fun m _ _ _ => ?_
  refine (lowers_zero sz).bind fun zero _ _ _ => ?_
  refine (lowers_compare _ m zero sz).bind fun nonzero _ _ _ => ?_
  refine (lowers_compare _ m zero sz).bind fun negative _ _ _ => ?_
  refine (lowers_compare _ rhs zero sz).bind fun divisorNegative _ _ _ => ?_
  refine (lowers_arith _ negative divisorNegative .bool).bind fun signsDiffer _ _ _ => ?_
  refine (lowers_arith _ nonzero signsDiffer .bool).bind fun adjust _ _ _ => ?_
  exact (lowers_arith _ m rhs sz).bind fun adjusted _ _ _ =>
    lowers_define "rem" fun dst => .select dst adjust adjusted m (.scalar sz)

/-- An operator that makes no comparison has an instruction on the types it is applied to. -/
theorem lowers_arithmetic {op : BinOp} {lhs rhs sz : ElemSize} (typed : op.Typed lhs rhs sz)
    (hop : comparePredicate? op = none) (l r : Name) :
    Lowers g (arithmetic op l r sz) s fun _ _ => True := by
  have hlogical : op.isBoolean = true ∨ op.isBitwise = true → sz.isFloatingPoint = false :=
    typed.logical
  cases op with
  | add | sub | mul | pow | max | min => exact lowers_arith _ l r sz
  | rem => exact lowers_floorRem l r sz
  | div =>
    simp only [arithmetic, typed.division rfl, if_true]
    exact lowers_arith _ l r sz
  | floorDiv =>
    refine lowers_ite (fun _ => ?_) fun _ => lowers_arith _ l r sz
    exact (lowers_arith _ l r sz).bind fun q _ _ _ => lowers_floatUnary _ _ q sz
  | and | or =>
    simp only [arithmetic, hlogical (Or.inl rfl)]
    exact lowers_arith _ l r sz
  | bitAnd | bitOr | bitXor =>
    simp only [arithmetic, hlogical (Or.inr rfl)]
    exact lowers_arith _ l r sz
  | eq | neq | leq | geq | lt | gt => cases hop

theorem lowers_binary {op : BinOp} {lhs rhs : TypedName} {sz : ElemSize}
    (typed : op.Typed lhs.size rhs.size sz) :
    Lowers g (binary op lhs rhs sz) s fun _ _ => True := by
  unfold binary
  cases hop : comparePredicate? op with
  | some predicate =>
    refine (lowers_cast lhs _).bind fun l _ _ _ => (lowers_cast rhs _).bind fun r _ _ _ => ?_
    exact (lowers_compare predicate l r _).bind fun c _ _ _ => lowers_cast _ sz
  | none =>
    exact (lowers_cast lhs _).bind fun l _ _ _ => (lowers_cast rhs _).bind fun r _ _ _ =>
      lowers_arithmetic typed hop l r

theorem lowers_unary {op : UnOp} {arg : TypedName} {sz : ElemSize} (typed : op.Typed arg.size sz) :
    Lowers g (unary op arg sz) s fun _ _ => True := by
  cases op with
  | neg =>
    refine (lowers_cast arg sz).bind fun a _ _ _ => ?_
    refine lowers_ite (fun _ => lowers_floatUnary _ _ a sz) fun _ => ?_
    exact (lowers_zero sz).bind fun zero _ _ _ => lowers_arith _ zero a sz
  | not =>
    refine (lowers_cast arg .bool).bind fun a _ _ _ => ?_
    refine (lowers_constant _ .bool).bind fun one _ _ _ => ?_
    exact (lowers_arith _ a one .bool).bind fun v _ _ _ => lowers_cast _ sz
  | bitNot =>
    have hsize : sz.isFloatingPoint = false := by
      rw [typed.result]
      exact typed.bitNot rfl
    simp only [unary, hsize]
    refine (lowers_cast arg sz).bind fun a _ _ _ => ?_
    exact (lowers_constant _ sz).bind fun ones _ _ _ => lowers_arith _ a ones sz

end LowerM

end TensorKernel
