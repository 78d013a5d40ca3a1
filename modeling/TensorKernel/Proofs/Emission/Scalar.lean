import TensorKernel.Proofs.Emission.Logic

/-!
# Statements for scalar operators

The statements that scalar operators are lowered to are typed, and the name that they are lowered to
has the type that is asked for.  This holds of every operator on operands of any type, because the
operands are converted first.
-/

namespace TensorKernel

open Buffer (ArithOp CastOp Holds Predicate Ty TypedIn definitions)

/-- The conversion between two different types, of which the second is no boolean, is legal. -/
theorem castOp_legal {castable : ElemSize → Prop} {source target : ElemSize}
    (hne : source ≠ target) (htarget : target.isBoolean = false) :
    (castOp source target).Legal castable (.scalar source) (.scalar target) := by
  cases source <;> cases target <;> first
    | exact absurd rfl hne
    | contradiction
    | simp [castOp, CastOp.Legal, ElemSize.isBoolean, ElemSize.isFloatingPoint,
        ElemSize.isSignedInteger, ElemSize.bits]

namespace LowerM

variable {g : Graph} {castable : ElemSize → Prop} {fixed : Prop} {known : List Buffer.Operand}
  {lo : Nat} {s : LowerState} {l r : Name} {sz : ElemSize}

theorem emits_constant (v : Literal) (sz : ElemSize) :
    Emits g castable fixed known lo (constant v sz) s fun known' n => ⟨n, .scalar sz⟩ ∈ known' :=
  emits_definition (fun _ => ⟨rfl, rfl, rfl, rfl⟩) fun _ => trivial

theorem emits_zero (sz : ElemSize) :
    Emits g castable fixed known lo (zero sz) s fun known' n => ⟨n, .scalar sz⟩ ∈ known' :=
  emits_constant _ sz

theorem emits_arith {op : ArithOp} (hop : op.isFloat = sz.isFloatingPoint)
    (hl : ⟨l, .scalar sz⟩ ∈ known) (hr : ⟨r, .scalar sz⟩ ∈ known) :
    Emits g castable fixed known lo (arith op l r sz) s fun known' n =>
      ⟨n, .scalar sz⟩ ∈ known' :=
  emits_definition (fun _ => ⟨rfl, rfl, rfl, rfl⟩) fun _ => ⟨hl, hr, hop⟩

theorem emits_compare (predicate : Predicate) (hl : ⟨l, .scalar sz⟩ ∈ known)
    (hr : ⟨r, .scalar sz⟩ ∈ known) :
    Emits g castable fixed known lo (compare predicate l r sz) s fun known' n =>
      ⟨n, .scalar .bool⟩ ∈ known' :=
  emits_definition (fun _ => ⟨rfl, rfl, rfl, rfl⟩) fun _ => ⟨hl, hr⟩

theorem emits_floatUnary (base : String) (op : Buffer.UnaryOp) (hsz : sz.isFloatingPoint = true)
    (hl : ⟨l, .scalar sz⟩ ∈ known) :
    Emits g castable fixed known lo (floatUnary base op l sz) s fun known' n =>
      ⟨n, .scalar sz⟩ ∈ known' :=
  emits_definition (fun _ => ⟨rfl, rfl, rfl, rfl⟩) fun _ => ⟨hl, hsz⟩

theorem emits_cast {v : TypedName} (target : ElemSize) (hv : ⟨v.name, .scalar v.size⟩ ∈ known) :
    Emits g castable fixed known lo (cast v target) s fun known' n =>
      ⟨n, .scalar target⟩ ∈ known' := by
  unfold cast
  refine emits_ite (fun hsize => ?_) fun hsize => ?_
  · subst hsize
    exact emits_pure hv
  · cases htarget : target.isBoolean with
    | true =>
      have hbool : target = .bool := by cases target <;> simp_all [ElemSize.isBoolean]
      subst hbool
      -- What is not zero is true; the name of the result is older than that of the zero.
      exact emits_late (fun _ _ => ⟨rfl, rfl, rfl, rfl⟩) (fun _ => emits_zero v.size)
        fun _ _ _ hsub hzero => ⟨hsub hv, hzero⟩
    | false =>
      exact emits_definition (fun _ => ⟨rfl, rfl, rfl, rfl⟩) fun _ =>
        ⟨hv, castOp_legal hsize htarget⟩

theorem emits_floorRem (hl : ⟨l, .scalar sz⟩ ∈ known) (hr : ⟨r, .scalar sz⟩ ∈ known) :
    Emits g castable fixed known lo (floorRem l r sz) s fun known' n =>
      ⟨n, .scalar sz⟩ ∈ known' := by
  have hop : ∀ {f i : ArithOp}, f.isFloat = true → i.isFloat = false →
      (if sz.isFloatingPoint then f else i).isFloat = sz.isFloatingPoint := by
    intro f i hf hi
    cases hsz : sz.isFloatingPoint <;> simp [hf, hi]
  refine (emits_arith (hop rfl rfl) hl hr).bind fun m s₁ known₁ h₁ hm => ?_
  refine (emits_zero sz).bind fun zero s₂ known₂ h₂ hzero => ?_
  refine (emits_compare .ne (h₂ hm) hzero).bind fun nonzero s₃ known₃ h₃ hnonzero => ?_
  refine (emits_compare .lt (h₃ (h₂ hm)) (h₃ hzero)).bind fun negative s₄ known₄ h₄ hneg => ?_
  refine (emits_compare .lt (h₄ (h₃ (h₂ (h₁ hr)))) (h₄ (h₃ hzero))).bind
    fun divisorNegative s₅ known₅ h₅ hdivisor => ?_
  refine (emits_arith rfl (h₅ hneg) hdivisor).bind fun signsDiffer s₆ known₆ h₆ hsigns => ?_
  refine (emits_arith rfl (h₆ (h₅ (h₄ hnonzero))) hsigns).bind fun adjust s₇ known₇ h₇ hadjust => ?_
  have hm₇ := h₇ (h₆ (h₅ (h₄ (h₃ (h₂ hm)))))
  have hr₇ := h₇ (h₆ (h₅ (h₄ (h₃ (h₂ (h₁ hr))))))
  refine (emits_arith (hop rfl rfl) hm₇ hr₇).bind fun adjusted s₈ known₈ h₈ hadjusted => ?_
  exact emits_definition (fun _ => ⟨rfl, rfl, rfl, rfl⟩) fun _ => ⟨h₈ hadjust, hadjusted, h₈ hm₇⟩

theorem emits_arithmetic (op : BinOp) (hl : ⟨l, .scalar sz⟩ ∈ known)
    (hr : ⟨r, .scalar sz⟩ ∈ known) :
    Emits g castable fixed known lo (arithmetic op l r sz) s fun known' n =>
      ⟨n, .scalar sz⟩ ∈ known' := by
  cases hsz : sz.isFloatingPoint with
  | true =>
    cases op with
    | add | sub | mul | div | pow | max | min =>
      simp only [arithmetic, hsz, if_true]
      refine emits_arith ?_ hl hr
      exact hsz.symm
    | floorDiv =>
      simp only [arithmetic, hsz, if_true]
      refine (emits_arith ?_ hl hr).bind fun q _ _ _ hq => emits_floatUnary _ _ hsz hq
      exact hsz.symm
    | rem => exact emits_floorRem hl hr
    | _ => simp only [arithmetic, hsz, if_true]; exact emits_throw
  | false =>
    cases op with
    | div | eq | neq | leq | geq | lt | gt =>
      simp only [arithmetic, hsz, Bool.false_eq_true, if_false]
      exact emits_throw
    | rem => exact emits_floorRem hl hr
    | _ =>
      simp only [arithmetic, hsz, Bool.false_eq_true, if_false]
      refine emits_arith ?_ hl hr
      exact hsz.symm

theorem emits_binary (op : BinOp) {lhs rhs : TypedName} (hl : ⟨lhs.name, .scalar lhs.size⟩ ∈ known)
    (hr : ⟨rhs.name, .scalar rhs.size⟩ ∈ known) :
    Emits g castable fixed known lo (binary op lhs rhs sz) s fun known' n =>
      ⟨n, .scalar sz⟩ ∈ known' := by
  unfold binary
  cases comparePredicate? op with
  | some predicate =>
    refine (emits_cast _ hl).bind fun l s₁ known₁ h₁ hl => ?_
    refine (emits_cast _ (h₁ hr)).bind fun r s₂ known₂ h₂ hr => ?_
    exact (emits_compare predicate (h₂ hl) hr).bind fun c _ _ _ hc => emits_cast sz hc
  | none =>
    refine (emits_cast _ hl).bind fun l s₁ known₁ h₁ hl => ?_
    exact (emits_cast _ (h₁ hr)).bind fun r s₂ known₂ h₂ hr => emits_arithmetic op (h₂ hl) hr

theorem emits_unary (op : UnOp) {arg : TypedName} (harg : ⟨arg.name, .scalar arg.size⟩ ∈ known) :
    Emits g castable fixed known lo (unary op arg sz) s fun known' n =>
      ⟨n, .scalar sz⟩ ∈ known' := by
  cases op with
  | neg =>
    refine (emits_cast sz harg).bind fun a s₁ known₁ h₁ ha => ?_
    refine emits_ite (fun hsz => emits_floatUnary _ _ hsz ha) fun hsz => ?_
    refine (emits_zero sz).bind fun zero s₂ known₂ h₂ hzero => emits_arith ?_ hzero (h₂ ha)
    simpa [ArithOp.isFloat] using hsz
  | not =>
    refine (emits_cast .bool harg).bind fun a s₁ known₁ h₁ ha => ?_
    refine (emits_constant _ .bool).bind fun one s₂ known₂ h₂ hone => ?_
    exact (emits_arith rfl (h₂ ha) hone).bind fun v _ _ _ hv => emits_cast sz hv
  | bitNot =>
    refine emits_ite (fun _ => emits_throw) fun hsz => ?_
    refine (emits_cast sz harg).bind fun a s₁ known₁ h₁ ha => ?_
    refine (emits_constant _ sz).bind fun ones s₂ known₂ h₂ hones => emits_arith ?_ (h₂ ha) hones
    simpa [ArithOp.isFloat] using hsz

end LowerM

end TensorKernel
