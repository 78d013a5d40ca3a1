import TensorKernel.Proofs.Buffer.Number
import TensorKernel.Proofs.Execution.Logic
import TensorKernel.Proofs.Graph.Available

/-!
# What scalar operators compute

The statements that a scalar operator is lowered to compute the number of its value, if the operands
hold the numbers of theirs.  The value is what the operator gives in 64 bits, brought into the type
of the result; the statements convert the operands first and compute at the width of this type.

Types are booleans and signed integers.  Where an operator orders or computes with numbers, at least
one operand is no boolean, since a true boolean is minus one for the statements and one otherwise.
-/

namespace TensorKernel

open Buffer (ArithOp Predicate truth)

/-! ## Types -/

/-- Whether it depends on the order or the size of numbers, and not only on bits or truth. -/
def BinOp.isNumeric : BinOp → Bool
  | add | sub | mul | floorDiv | rem | max | min | leq | geq | lt | gt => true
  | _ => false

theorem BinOp.isBitwise_of_isBoolean {op : BinOp} (h : op.isBoolean = true) :
    op.isBitwise = false := by
  cases op <;> first | rfl | exact absurd h (by decide)

/-- What an operator may do to two booleans if it gives no comparison and no truth value. -/
theorem BinOp.isBitwise_of_not_isNumeric {op : BinOp} (hdiv : op ≠ .div) (hpow : op ≠ .pow)
    (hcomparison : op.isComparison = false) (hboolean : op.isBoolean = false)
    (hnumeric : op.isNumeric = false) : op.isBitwise = true := by
  cases op <;> first
    | rfl
    | exact absurd rfl hdiv
    | exact absurd rfl hpow
    | exact absurd hcomparison (by decide)
    | exact absurd hboolean (by decide)
    | exact absurd hnumeric (by decide)

theorem BinOp.isComparison_eq (op : BinOp) : op.isComparison = (comparePredicate? op).isSome := by
  cases op <;> rfl

theorem ElemSize.eq_bool_of_isBoolean {sz : ElemSize} (h : sz.isBoolean = true) : sz = .bool := by
  cases sz <;> first | rfl | exact absurd h (by decide)

/-- Every integer type has all bits set. -/
theorem ElemSize.holds_neg_one {sz : ElemSize} (h : sz.isSignedInteger = true) :
    sz.Holds (.int (-1)) := by
  refine ⟨h, ?_⟩
  cases sz <;> first | decide | exact absurd h (by decide)

theorem ElemSize.isSignedInteger_of_not_isBoolean {sz : ElemSize} (h : sz.isFloatingPoint = false)
    (hbool : sz.isBoolean = false) : sz.isSignedInteger = true := by
  cases sz <;> first | rfl | exact absurd hbool (by decide) | exact absurd h (by decide)

/-- Without floating-point numbers, operands are combined as booleans or as integers. -/
theorem ElemSize.lub_cases {l r : ElemSize} (hl : l.isFloatingPoint = false)
    (hr : r.isFloatingPoint = false) : l = .bool ∧ r = .bool ∧ l.lub r = .bool ∨
      (l.lub r).isSignedInteger = true ∧ l.bits ≤ (l.lub r).bits ∧ r.bits ≤ (l.lub r).bits := by
  cases l <;> first
    | exact absurd hl (by decide)
    | (cases r <;> first | exact absurd hr (by decide) | decide)

/-- A comparison of integers is made by the predicate of the operator. -/
theorem holds_of_comparePredicate? {op : BinOp} {predicate : Predicate}
    (h : comparePredicate? op = some predicate) (l r : Int64) :
    predicate.holds l.toInt r.toInt = Literal.compareInts op l r := by
  have heq : (l == r) = decide (l.toInt = r.toInt) := by
    rw [Bool.eq_iff_iff, beq_iff_eq, decide_eq_true_iff, Int64.toInt_inj]
  cases op <;> cases h <;> simp [Predicate.holds, Literal.compareInts, bne, heq,
    Int64.lt_iff_toInt_lt, Int64.le_iff_toInt_le]

/-- An operator on truth values gives what it gives on the truth of its operands. -/
theorem Literal.binary_of_isBoolean {op : BinOp} (h : op.isBoolean = true) (x y : Literal)
    (sz : ElemSize) : x.binary op y sz = .ok (.bool
      (if op = .and then x.isTruthy && y.isTruthy else x.isTruthy || y.isTruthy)) := by
  have hcomparison : op.isComparison = false := by
    cases op <;> first | rfl | exact absurd h (by decide)
  rw [binary, hcomparison, h, if_neg Bool.false_ne_true, if_pos rfl]

theorem isFloat_of_holds {sz : ElemSize} {v : Literal} (hsz : sz.isFloatingPoint = false)
    (hv : sz.Holds v) : v.isFloat = false := by
  cases v with
  | float x =>
    rw [show sz.isFloatingPoint = true from hv] at hsz
    cases hsz
  | _ => rfl

/-- A name holds the number of a value of its type, which is a boolean or an integer. -/
structure Buffer.Store.Shows (M : Buffer.Store) (v : TypedName) (w : Literal) : Prop where
  size : v.size.isFloatingPoint = false
  holds : v.size.Holds w
  number : M v.name.key = some (.number (v.size.number w))

namespace Buffer.Store.Shows

variable {M M' : Store} {v : TypedName} {w : Literal}

theorem extend (hext : M.Extends M') (h : M.Shows v w) : M'.Shows v w :=
  ⟨h.size, h.holds, hext h.number⟩

/-- A converted value is shown by its own number. -/
theorem convert {n : Name} {sz : ElemSize} (hsz : sz.isFloatingPoint = false)
    (h : M n.key = some (.number (sz.number (w.convert sz)))) : M.Shows ⟨n, sz⟩ (w.convert sz) :=
  ⟨hsz, Literal.holds_convert w sz, h⟩

/-- In an integer type that is wide enough, a value is shown by itself. -/
theorem number_of_le (h : M.Shows v w) {n : Name} {sz : ElemSize} (hsz : sz.isSignedInteger = true)
    (hle : v.size.bits ≤ sz.bits) (hn : M'.Shows ⟨n, sz⟩ (w.convert sz)) :
    M' n.key = some (.number w.asInt.toInt) := by
  rw [hn.number, ElemSize.number_of_holds hsz hn.holds, ElemSize.asInt_convert hsz h.size hle h.holds]

/-- A value of a wide integer type is an integer of that type. -/
theorem holds_of_le (h : M.Shows v w) {sz : ElemSize} (hsz : sz.isSignedInteger = true)
    (hle : v.size.bits ≤ sz.bits) : sz.Holds (.int w.asInt) := by
  have hconvert := Literal.holds_convert w sz
  rwa [Literal.holds_asInt hconvert hsz, ElemSize.asInt_convert hsz h.size hle h.holds] at hconvert

theorem exists_bool (h : M.Shows v w) (hbool : v.size = .bool) : ∃ b, w = .bool b := by
  have hholds := h.holds
  rw [hbool] at hholds
  cases w with
  | bool b => exact ⟨b, rfl⟩
  | int n => exact absurd hholds.1 (by decide)
  | float x => exact absurd (show ElemSize.bool.isFloatingPoint = true from hholds) (by decide)

end Buffer.Store.Shows

namespace LowerM

variable {ctx : EvalContext} {val : Valuation} {s : LowerState} {M : Buffer.Store}
  {sz : ElemSize} {l r : Name} {a b c : Int}

/-! ## Single statements -/

theorem executes_constant (v : Literal) (hsz : sz.isFloatingPoint = false) :
    Executes ctx val (constant v sz) s M fun M' n =>
      M' n.key = some (.number (sz.number (v.convert sz))) := by
  refine executes_definition (fun _ => rfl) fun n => ?_
  simp [Buffer.Stmt.exec, Buffer.constant?, hsz]

theorem executes_zero (hsz : sz.isFloatingPoint = false) :
    Executes ctx val (zero sz) s M fun M' n => M' n.key = some (.number 0) := by
  have hzero : sz.number ((Literal.int 0).convert sz) = 0 := by
    cases sz <;> first | decide | exact absurd hsz (by decide)
  rw [zero, hsz, ← hzero]
  exact executes_constant _ hsz

theorem executes_arith {op : ArithOp} (hsz : sz.isFloatingPoint = false)
    (hl : M l.key = some (.number a)) (hr : M r.key = some (.number b))
    (hop : op.eval? sz a b = some c) :
    Executes ctx val (arith op l r sz) s M fun M' n => M' n.key = some (.number c) := by
  refine executes_definition (fun _ => rfl) fun n => ?_
  simp [Buffer.Stmt.exec, Buffer.Ty.integer?, hsz, hl, hr, hop]

theorem executes_compare (predicate : Predicate) (hsz : sz.isFloatingPoint = false)
    (hl : M l.key = some (.number a)) (hr : M r.key = some (.number b)) :
    Executes ctx val (compare predicate l r sz) s M fun M' n =>
      M' n.key = some (.number (truth (predicate.holds a b))) := by
  refine executes_definition (fun _ => rfl) fun n => ?_
  simp [Buffer.Stmt.exec, Buffer.Ty.integer?, hsz, hl, hr]

/-! ## Conversions -/

theorem executes_cast {v : TypedName} {w : Literal} {target : ElemSize} (hv : M.Shows v w)
    (htarget : target.isFloatingPoint = false) :
    Executes ctx val (cast v target) s M fun M' n => M'.Shows ⟨n, target⟩ (w.convert target) := by
  obtain ⟨hsource, hw, hv⟩ := hv
  refine Executes.mono (executes_ite (fun hsize => ?_) fun hsize => ?_) fun _ _ _ hn =>
    .convert htarget hn
  · subst hsize
    rw [Literal.convert_eq_self hw hsource]
    exact executes_pure hv
  · cases hbool : target.isBoolean with
    -- To a boolean: the number is compared with zero.
    | true =>
      obtain rfl := ElemSize.eq_bool_of_isBoolean hbool
      refine executes_late (fun _ => executes_zero hsource) (fun _ _ => rfl)
        fun n zero M₁ hext hzero => ?_
      have hnumber : truth (decide (v.size.number w ≠ 0)) =
          ElemSize.bool.number (w.convert .bool) := by
        rw [Literal.convert, ElemSize.number_bool]
        cases htruthy : w.isTruthy with
        | false => simp [(ElemSize.number_eq_zero_iff hsource hw).mpr htruthy]
        | true =>
          have hne : v.size.number w ≠ 0 := fun h => by
            rw [(ElemSize.number_eq_zero_iff hsource hw).mp h] at htruthy
            cases htruthy
          simp [hne]
      simp only [Buffer.Stmt.exec, Buffer.Ty.integer?, hsource, Buffer.Store.number?_of_eq (hext hv),
        Buffer.Store.number?_of_eq hzero, ← hnumber]
      rfl
    | false =>
      have hsigned := ElemSize.isSignedInteger_of_not_isBoolean htarget hbool
      refine executes_definition (fun _ => rfl) fun n => ?_
      simp [Buffer.Stmt.exec, hv, eval?_castOp hsource hsigned hw]

/-! ## Operators -/

section Integers

variable {x y z : Int64} (hx : sz.Holds (.int x)) (hy : sz.Holds (.int y))
  (hl : M l.key = some (.number x.toInt)) (hr : M r.key = some (.number y.toInt))
include hx hl hr

theorem executes_floorRem (hdefined : ¬ (y.toInt = 0 ∨ x.toInt = sz.least ∧ y.toInt = -1)) :
    Executes ctx val (floorRem l r sz) s M fun M' n => M' n.key = some (.number
      (sz.number ((Literal.int (Literal.floorMod x y)).convert sz))) := by
  have hsz := ElemSize.isFloatingPoint_of_isSignedInteger hx.1
  rw [floorRem, hsz]
  refine (executes_arith hsz hl hr (ArithOp.eval?_remSI x y hdefined)).bind
    fun m s₁ M₁ h₁ hm => ?_
  refine (executes_zero hsz).bind fun zero s₂ M₂ h₂ hzero => ?_
  refine (executes_compare .ne hsz (h₂ hm) hzero).bind fun nonzero s₃ M₃ h₃ hnonzero => ?_
  refine (executes_compare .lt hsz (h₃ (h₂ hm)) (h₃ hzero)).bind
    fun negative s₄ M₄ h₄ hnegative => ?_
  refine (executes_compare .lt hsz (h₄ (h₃ (h₂ (h₁ hr)))) (h₄ (h₃ hzero))).bind
    fun divisorNegative s₅ M₅ h₅ hdivisor => ?_
  refine (executes_arith rfl (h₅ hnegative) hdivisor (ArithOp.eval?_xorI_truth _ _)).bind
    fun signsDiffer s₆ M₆ h₆ hsigns => ?_
  refine (executes_arith rfl (h₆ (h₅ (h₄ hnonzero))) hsigns (ArithOp.eval?_andI_truth _ _)).bind
    fun adjust s₇ M₇ h₇ hadjust => ?_
  have hm₇ := h₇ (h₆ (h₅ (h₄ (h₃ (h₂ hm)))))
  have hr₇ := h₇ (h₆ (h₅ (h₄ (h₃ (h₂ (h₁ hr))))))
  refine (executes_arith hsz hm₇ hr₇ rfl).bind fun adjusted s₈ M₈ h₈ hadjusted => ?_
  refine executes_definition (fun _ => rfl) fun n => ?_
  rw [ArithOp.number_floorMod hx]
  simp [Buffer.Stmt.exec, h₈ hadjust, hadjusted, h₈ hm₇, Predicate.holds]

include hy

/-- Arithmetic on integers of a type computes what they give in 64 bits, brought into the type. -/
theorem executes_arithmetic {op : BinOp} (hop : op ≠ .pow)
    (hvalue : Literal.intBinary op x y = .ok z)
    (hdefined : op = .floorDiv ∨ op = .rem → ¬ (x.toInt = sz.least ∧ y.toInt = -1)) :
    Executes ctx val (arithmetic op l r sz) s M fun M' n => M' n.key = some (.number
      (sz.number ((Literal.int z).convert sz))) := by
  have hfloat := ElemSize.isFloatingPoint_of_isSignedInteger hx.1
  have hdivisor : ∀ {w : Int64}, (if y = 0 then .error .divisionByZero else .ok w) =
      (.ok z : Except ArithmeticFault Int64) → y.toInt ≠ 0 ∧ w = z := by
    intro w hw
    split at hw
    · cases hw
    · next hne => exact ⟨ne_zero_iff_toInt.mp hne, Except.ok.inj hw⟩
  cases op <;> simp only [Literal.intBinary, reduceCtorEq] at hvalue
  case pow => exact absurd rfl hop
  case add =>
    cases hvalue
    rw [arithmetic, hfloat]
    exact executes_arith hfloat hl hr (ArithOp.eval?_addI hx.1 x y)
  case sub =>
    cases hvalue
    rw [arithmetic, hfloat]
    exact executes_arith hfloat hl hr (ArithOp.eval?_subI hx.1 x y)
  case mul =>
    cases hvalue
    rw [arithmetic, hfloat]
    exact executes_arith hfloat hl hr (ArithOp.eval?_mulI hx.1 x y)
  case floorDiv =>
    obtain ⟨hne, rfl⟩ := hdivisor hvalue
    rw [arithmetic, hfloat]
    exact executes_arith hfloat hl hr (ArithOp.eval?_floorDivSI hx.1 x y
      (not_or.mpr ⟨hne, hdefined (Or.inl rfl)⟩))
  case rem =>
    obtain ⟨hne, rfl⟩ := hdivisor hvalue
    exact executes_floorRem hx hl hr (not_or.mpr ⟨hne, hdefined (Or.inr rfl)⟩)
  case bitAnd =>
    cases hvalue
    rw [arithmetic, hfloat]
    exact executes_arith hfloat hl hr (ArithOp.eval?_andI hx.1 x y)
  case bitOr =>
    cases hvalue
    rw [arithmetic, hfloat]
    exact executes_arith hfloat hl hr (ArithOp.eval?_orI hx.1 x y)
  case bitXor =>
    cases hvalue
    rw [arithmetic, hfloat]
    exact executes_arith hfloat hl hr (ArithOp.eval?_xorI hx.1 x y)
  case max =>
    cases hvalue
    rw [arithmetic, hfloat]
    exact executes_arith hfloat hl hr (ArithOp.eval?_maxSI hx hy)
  case min =>
    cases hvalue
    rw [arithmetic, hfloat]
    exact executes_arith hfloat hl hr (ArithOp.eval?_minSI hx hy)

end Integers

/-- Operators on bits and truth values compute on booleans what they do on zero and one. -/
theorem executes_arithmetic_bool {op : BinOp} (hop : (op.isBitwise || op.isBoolean) = true)
    {p q : Bool} {w : Literal} (hl : M l.key = some (.number (truth p)))
    (hr : M r.key = some (.number (truth q)))
    (hw : (Literal.bool p).binary op (.bool q) .bool = .ok w) :
    Executes ctx val (arithmetic op l r .bool) s M fun M' n =>
      M' n.key = some (.number (ElemSize.bool.number w)) := by
  have hbits : ∀ {i : ArithOp}, i.eval? .bool (truth p) (truth q) = some (ElemSize.bool.number w) →
      Executes ctx val (arith i l r .bool) s M fun M' n =>
        M' n.key = some (.number (ElemSize.bool.number w)) :=
    fun h => executes_arith rfl hl hr h
  cases op <;> simp only [BinOp.isBitwise, BinOp.isBoolean, Bool.or_self, Bool.false_eq_true] at hop
  all_goals
    obtain rfl := Except.ok.inj hw
    refine hbits ?_
    cases p <;> cases q <;> decide

section Binary

variable {op : BinOp} {lhs rhs : TypedName} {x y w : Literal} (hl : M.Shows lhs x)
  (hr : M.Shows rhs y)
include hl hr

/-- Values are compared in a type that contains both of them. -/
theorem executes_comparison (hnumeric : op.isNumeric = true → lhs.size ≠ .bool ∨ rhs.size ≠ .bool)
    {predicate : Predicate} (hpredicate : comparePredicate? op = some predicate) :
    Executes ctx val (do
      let l ← cast lhs (lhs.size.lub rhs.size)
      let r ← cast rhs (lhs.size.lub rhs.size)
      compare predicate l r (lhs.size.lub rhs.size)) s M fun M' n =>
        M'.Shows ⟨n, .bool⟩ (.bool (Literal.compare op x y)) := by
  have hcompare : Literal.compare op x y = Literal.compareInts op x.asInt y.asInt := by
    rw [Literal.compare, isFloat_of_holds hl.size hl.holds, isFloat_of_holds hr.size hr.holds]
    rfl
  rw [hcompare]
  rcases ElemSize.lub_cases hl.size hr.size with ⟨hlbool, hrbool, hlub⟩ | ⟨hsigned, hlle, hrle⟩
  · obtain ⟨p, rfl⟩ := hl.exists_bool hlbool
    obtain ⟨q, rfl⟩ := hr.exists_bool hrbool
    rw [hlub]
    refine (executes_cast hl rfl).bind fun l s₁ M₁ h₁ hl => ?_
    refine (executes_cast (hr.extend h₁) rfl).bind fun r s₂ M₂ h₂ hr => ?_
    refine (executes_compare predicate rfl (h₂ hl.number) hr.number).mono fun M' n _ hn =>
      ⟨rfl, rfl, ?_⟩
    -- Only equality is left, which does not depend on how true is read.
    have hequality : op = .eq ∨ op = .neq := by
      have hnot : op.isNumeric = false := Bool.eq_false_of_not_eq_true fun h =>
        (hnumeric h).elim (fun h => h hlbool) fun h => h hrbool
      cases op <;> first
        | exact Or.inl rfl
        | exact Or.inr rfl
        | exact absurd hnot (by decide)
        | cases hpredicate
    have hbits : truth (predicate.holds (ElemSize.bool.number (.bool p))
        (ElemSize.bool.number (.bool q))) = ElemSize.bool.number
          (.bool (Literal.compareInts op (Literal.bool p).asInt (Literal.bool q).asInt)) := by
      rcases hequality with rfl | rfl <;> cases hpredicate <;> cases p <;> cases q <;> decide
    rw [hn]
    exact congrArg (fun k => some (Buffer.Datum.number k)) hbits
  · have hsz := ElemSize.isFloatingPoint_of_isSignedInteger hsigned
    refine (executes_cast hl hsz).bind fun l s₁ M₁ h₁ hl' => ?_
    refine (executes_cast (hr.extend h₁) hsz).bind fun r s₂ M₂ h₂ hr' => ?_
    refine (executes_compare predicate hsz (h₂ (hl.number_of_le hsigned hlle hl'))
      (hr.number_of_le hsigned hrle hr')).mono fun M' n _ hn => ⟨rfl, rfl, ?_⟩
    rw [hn, holds_of_comparePredicate? hpredicate]
    exact congrArg (fun k => some (Buffer.Datum.number k)) (ElemSize.number_bool _).symm

/-- Booleans are combined as bits. -/
theorem executes_combination_bool (hop : (op.isBitwise || op.isBoolean) = true)
    (hw : x.binary op y .bool = .ok w)
    (hsame : op.isBitwise = true → lhs.size = .bool ∧ rhs.size = .bool) :
    Executes ctx val (do
      let l ← cast lhs .bool
      let r ← cast rhs .bool
      arithmetic op l r .bool) s M fun M' n =>
        M' n.key = some (.number (ElemSize.bool.number w)) := by
  have hvalue : (Literal.bool x.isTruthy).binary op (.bool y.isTruthy) .bool = .ok w := by
    cases hbitwise : op.isBitwise with
    | false =>
      rw [hbitwise, Bool.false_or] at hop
      rwa [Literal.binary_of_isBoolean hop] at hw ⊢
    | true =>
      obtain ⟨p, rfl⟩ := hl.exists_bool (hsame hbitwise).1
      obtain ⟨q, rfl⟩ := hr.exists_bool (hsame hbitwise).2
      exact hw
  refine (executes_cast hl rfl).bind fun l s₁ M₁ h₁ hl => ?_
  refine (executes_cast (hr.extend h₁) rfl).bind fun r s₂ M₂ h₂ hr => ?_
  have hl := h₂ hl.number
  have hr := hr.number
  rw [Literal.convert, ElemSize.number_bool] at hl hr
  exact executes_arithmetic_bool hop hl hr hvalue

/-- Integers are combined in a type that contains both of them. -/
theorem executes_combination_int {z : Int64} (hsigned : sz.isSignedInteger = true)
    (hlle : lhs.size.bits ≤ sz.bits) (hrle : rhs.size.bits ≤ sz.bits) (hpow : op ≠ .pow)
    (hvalue : Literal.intBinary op x.asInt y.asInt = .ok z)
    (hdefined : op = .floorDiv ∨ op = .rem → ¬ (x.asInt.toInt = sz.least ∧ y.asInt.toInt = -1)) :
    Executes ctx val (do
      let l ← cast lhs sz
      let r ← cast rhs sz
      arithmetic op l r sz) s M fun M' n =>
        M' n.key = some (.number (sz.number ((Literal.int z).convert sz))) := by
  have hsz := ElemSize.isFloatingPoint_of_isSignedInteger hsigned
  refine (executes_cast hl hsz).bind fun l s₁ M₁ h₁ hl' => ?_
  refine (executes_cast (hr.extend h₁) hsz).bind fun r s₂ M₂ h₂ hr' => ?_
  exact executes_arithmetic (hl.holds_of_le hsigned hlle) (hr.holds_of_le hsigned hrle)
    (h₂ (hl.number_of_le hsigned hlle hl')) (hr.number_of_le hsigned hrle hr') hpow hvalue hdefined

/-- A binary operator computes the number of its value. -/
theorem executes_binary (hnumeric : op.isNumeric = true → lhs.size ≠ .bool ∨ rhs.size ≠ .bool)
    (typed : op.Typed lhs.size rhs.size sz) (hdiv : op ≠ .div) (hpow : op ≠ .pow)
    (hw : x.binary op y sz = .ok w)
    (hdefined : op = .floorDiv ∨ op = .rem → ¬ (x.asInt.toInt = sz.least ∧ y.asInt.toInt = -1)) :
    Executes ctx val (binary op lhs rhs sz) s M fun M' n => M'.Shows ⟨n, sz⟩ w := by
  cases hpredicate : comparePredicate? op with
  | some predicate =>
    -- Both operands are cast to their common type, and what is compared is a boolean.
    have hsteps : binary op lhs rhs sz = (do
        let l ← cast lhs (lhs.size.lub rhs.size)
        let r ← cast rhs (lhs.size.lub rhs.size)
        compare predicate l r (lhs.size.lub rhs.size)) >>= fun c => cast ⟨c, .bool⟩ sz := by
      simp only [binary, hpredicate, bind_assoc]
    have hcomparison : op.isComparison = true := by rw [op.isComparison_eq, hpredicate]; rfl
    obtain rfl : sz = .bool := by rw [typed.result, BinOp.resultSize, hcomparison]; rfl
    rw [Literal.binary, if_pos hcomparison] at hw
    obtain rfl := Except.ok.inj hw
    rw [hsteps]
    refine (executes_comparison hl hr hnumeric hpredicate).bind fun c _ M₁ _ hc => ?_
    exact executes_cast hc rfl
  | none =>
    have hsteps : binary op lhs rhs sz = (do
        let l ← cast lhs sz
        let r ← cast rhs sz
        arithmetic op l r sz) := by
      simp only [binary, hpredicate]
    have hcomparison : op.isComparison = false := by rw [op.isComparison_eq, hpredicate]; rfl
    have hholds : sz.Holds w := Literal.holds_binary hw fun h => by
      rw [typed.result, BinOp.resultSize, if_pos h]
    -- Otherwise both are cast to the type of the result, and the operator is applied there.
    have hnumber : sz.isFloatingPoint = false → Executes ctx val (do
        let l ← cast lhs sz
        let r ← cast rhs sz
        arithmetic op l r sz) s M (fun M' n => M' n.key = some (.number (sz.number w))) →
        Executes ctx val (binary op lhs rhs sz) s M fun M' n => M'.Shows ⟨n, sz⟩ w :=
      fun hsz h => hsteps ▸ h.mono fun _ _ _ hn => ⟨hsz, hholds, hn⟩
    cases hboolean : op.isBoolean with
    | true =>
      obtain rfl : sz = .bool := by
        rw [typed.result, BinOp.resultSize, hboolean, Bool.or_true, if_pos rfl]
      refine hnumber rfl (executes_combination_bool hl hr ?_ hw fun hbitwise => ?_)
      · rw [hboolean, Bool.or_true]
      · rw [BinOp.isBitwise_of_isBoolean hboolean] at hbitwise
        cases hbitwise
    | false =>
      obtain rfl : sz = lhs.size.lub rhs.size := by
        rw [typed.result, BinOp.resultSize, hcomparison, hboolean]
        simp [hdiv]
      -- Two booleans admit bitwise operators only, on one bit; all else is arithmetic in 64 bits.
      rcases ElemSize.lub_cases hl.size hr.size with ⟨hlbool, hrbool, hlub⟩ | ⟨hsigned, hlle, hrle⟩
      · have hbitwise : op.isBitwise = true := by
          have hnot : op.isNumeric = false := Bool.eq_false_of_not_eq_true fun h =>
            (hnumeric h).elim (fun h => h hlbool) fun h => h hrbool
          exact BinOp.isBitwise_of_not_isNumeric hdiv hpow hcomparison hboolean hnot
        rw [hlub] at hw hnumber ⊢
        exact hnumber rfl (executes_combination_bool hl hr (by rw [hbitwise]; rfl) hw
          fun _ => ⟨hlbool, hrbool⟩)
      · have hsz := ElemSize.isFloatingPoint_of_isSignedInteger hsigned
        rw [Literal.binary, hcomparison, hboolean, hsz, if_neg Bool.false_ne_true,
          if_neg Bool.false_ne_true, if_neg Bool.false_ne_true] at hw
        cases hvalue : Literal.intBinary op x.asInt y.asInt with
        | error fault =>
          rw [hvalue] at hw
          cases hw
        | ok z =>
          rw [hvalue] at hw
          obtain rfl := Except.ok.inj hw
          exact hnumber hsz (executes_combination_int hl hr hsigned hlle hrle hpow hvalue
            hdefined)

end Binary

section Unary

variable {arg : TypedName} {x w : Literal} (harg : M.Shows arg x)
include harg

/-- An integer is subtracted from zero. -/
theorem executes_neg (hsigned : arg.size.isSignedInteger = true)
    (hw : x.unary .neg arg.size = .ok w) :
    Executes ctx val (unary .neg arg arg.size) s M fun M' n =>
      M' n.key = some (.number (arg.size.number w)) := by
  obtain ⟨n, rfl⟩ : ∃ n, x = .int n := ⟨x.asInt, Literal.holds_asInt harg.holds hsigned⟩
  obtain rfl := Except.ok.inj hw
  have hsz := harg.size
  rw [unary, hsz]
  refine (executes_cast harg hsz).bind fun a s₁ M₁ h₁ ha => ?_
  have ha := harg.number_of_le hsigned (Nat.le_refl _) ha
  refine (executes_zero hsz).bind fun zero s₂ M₂ h₂ hzero => ?_
  rw [← Int64.zero_sub]
  exact executes_arith hsz hzero (h₂ ha) (ArithOp.eval?_subI hsigned 0 n)

/-- The bit of a truth value is flipped. -/
theorem executes_not (hw : x.unary .not .bool = .ok w) :
    Executes ctx val (unary .not arg .bool) s M fun M' n => M'.Shows ⟨n, .bool⟩ w := by
  have hvalue : w = (Literal.bool (!x.isTruthy)).convert .bool := by
    cases x <;> exact (Except.ok.inj hw).symm
  subst hvalue
  refine (executes_cast harg rfl).bind fun a s₁ M₁ h₁ ha => ?_
  refine (executes_constant (.bool true) rfl).bind fun one s₂ M₂ h₂ hone => ?_
  have ha := h₂ ha.number
  rw [Literal.convert, ElemSize.number_bool] at ha hone
  refine (executes_arith rfl ha hone (ArithOp.eval?_xorI_truth _ _)).bind fun v s₃ M₃ h₃ hv => ?_
  have hflip : (x.isTruthy != true) = !x.isTruthy := by cases x.isTruthy <;> rfl
  refine executes_cast (v := ⟨v, .bool⟩) ⟨rfl, rfl, ?_⟩ rfl
  rw [ElemSize.number_bool, ← hflip]
  exact hv

/-- Every bit is flipped. -/
theorem executes_bitNot (hw : x.unary .bitNot arg.size = .ok w) :
    Executes ctx val (unary .bitNot arg arg.size) s M fun M' n =>
      M' n.key = some (.number (arg.size.number w)) := by
  have hsz := harg.size
  rw [unary, hsz]
  refine (executes_cast harg hsz).bind fun a s₁ M₁ h₁ ha => ?_
  refine (executes_constant (.int (-1)) hsz).bind fun ones s₂ M₂ h₂ hones => ?_
  cases hbool : arg.size.isBoolean with
  | true =>
    obtain ⟨name, size⟩ := arg
    obtain rfl : size = .bool := ElemSize.eq_bool_of_isBoolean hbool
    obtain ⟨b, rfl⟩ := harg.exists_bool rfl
    obtain rfl := Except.ok.inj hw
    have ha := h₂ ha.number
    rw [Literal.convert, ElemSize.number_bool] at ha hones
    refine (executes_arith hsz ha hones (ArithOp.eval?_xorI_truth _ _)).mono fun _ n _ hn => ?_
    rw [Literal.convert, ElemSize.number_bool, hn]
    cases b <;> rfl
  | false =>
    have hsigned := ElemSize.isSignedInteger_of_not_isBoolean hsz hbool
    obtain ⟨n, rfl⟩ : ∃ n, x = .int n := ⟨x.asInt, Literal.holds_asInt harg.holds hsigned⟩
    obtain rfl := Except.ok.inj hw
    have ha := harg.number_of_le hsigned (Nat.le_refl _) ha
    rw [ArithOp.number_int (ElemSize.holds_neg_one hsigned)] at hones
    rw [← Int64.xor_neg_one]
    exact executes_arith hsz (h₂ ha) hones (ArithOp.eval?_xorI hsigned n (-1))

end Unary

/-- A unary operator computes the number of its value. -/
theorem executes_unary {op : UnOp} {arg : TypedName} {x w : Literal} (harg : M.Shows arg x)
    (typed : op.Typed arg.size sz) (hw : x.unary op sz = .ok w) :
    Executes ctx val (unary op arg sz) s M fun M' n => M'.Shows ⟨n, sz⟩ w := by
  cases op with
  | neg =>
    obtain rfl : sz = arg.size := typed.result
    have hsigned := ElemSize.isSignedInteger_of_not_isBoolean harg.size (typed.neg rfl)
    exact (executes_neg harg hsigned hw).mono fun _ _ _ hn => ⟨harg.size, Literal.holds_unary hw, hn⟩
  | not =>
    obtain rfl : sz = .bool := typed.result
    exact executes_not harg hw
  | bitNot =>
    obtain rfl : sz = arg.size := typed.result
    exact (executes_bitNot harg hw).mono fun _ _ _ hn => ⟨harg.size, Literal.holds_unary hw, hn⟩

end LowerM

end TensorKernel
