import TensorKernel.Lower.Scalar
import TensorKernel.Proofs.Buffer.Machine
import TensorKernel.Proofs.Literal

/-!
# The numbers of values

A value of a type is represented by one number, and no other value of the type is.  Integers that
are computed in 64 bits and brought into their type afterwards are represented by what the
operations of the machine give at the width of the type.
-/

namespace TensorKernel

open Buffer (ArithOp CastOp truth)

namespace ElemSize

variable {sz source : ElemSize} {v : Literal}

/-! ## Low bits -/

/-- The low bits of an integer are among its 64 low bits. -/
theorem signed_bmod (sz : ElemSize) (n : Int) : sz.signed (n.bmod (2 ^ 64)) = sz.signed n := by
  refine Int.bmod_bmod_of_dvd (Nat.pow_dvd_pow 2 ?_)
  cases sz <;> decide

/-- A number of a type is what its bits read as. -/
theorem signed_eq_self (hsz : sz.isSignedInteger = true) {n : Int} (hlow : sz.minInt ≤ n)
    (hhigh : n ≤ sz.maxInt) : sz.signed n = n := by
  cases sz <;> simp only [isSignedInteger, Bool.false_eq_true] at hsz <;>
    simp only [minInt, maxInt] at hlow hhigh <;>
    refine Int.bmod_eq_of_le ?_ ?_ <;> simp only [bits, Nat.pow_eq, Nat.reducePow] <;> omega

/-! ## Numbers of values -/

@[simp]
theorem number_bool (b : Bool) : bool.number (.bool b) = truth b := by
  cases b <;> decide

/-- An integer of a type is its own number. -/
theorem number_of_holds (hsz : sz.isSignedInteger = true) (hv : sz.Holds v) :
    sz.number v = v.asInt.toInt := by
  have hint := hv
  rw [Literal.holds_asInt hv hsz] at hint
  exact signed_eq_self hsz hint.2.1 hint.2.2

/-- The number of a converted value has the low bits of the value as an integer. -/
theorem number_convert (hsz : sz.isSignedInteger = true) (v : Literal) :
    sz.number (v.convert sz) = sz.signed v.asInt.toInt := by
  rw [Literal.convert_asInt v hsz]
  have keep : ∀ {width : Nat}, 0 < width → width ≤ 64 →
      (Literal.wrap width v.asInt).toInt.bmod (Nat.pow 2 width) =
        v.asInt.toInt.bmod (Nat.pow 2 width) := by
    intro width hpos hle
    rw [Literal.toInt_wrap hpos hle]
    exact Int.bmod_bmod
  cases sz <;> simp only [isSignedInteger, Bool.false_eq_true] at hsz
  · exact keep (show 0 < 8 by decide) (by decide)
  · exact keep (show 0 < 16 by decide) (by decide)
  · exact keep (show 0 < 32 by decide) (by decide)
  · rfl

/-- An integer of one type is the same integer in a type that is at least as wide. -/
theorem asInt_convert (hsz : sz.isSignedInteger = true) (hsource : source.isFloatingPoint = false)
    (hle : source.bits ≤ sz.bits) (hv : source.Holds v) : (v.convert sz).asInt = v.asInt := by
  have hholds : sz.Holds (.int v.asInt) := by
    cases v with
    | bool b =>
      refine ⟨hsz, ?_⟩
      cases sz <;> simp only [isSignedInteger, Bool.false_eq_true] at hsz <;> cases b <;> decide
    | int n =>
      obtain ⟨hsigned, hlow, hhigh⟩ := hv
      refine ⟨hsz, ?_⟩
      cases source <;> simp only [isSignedInteger, Bool.false_eq_true] at hsigned <;>
        cases sz <;> simp only [isSignedInteger, Bool.false_eq_true] at hsz <;>
        simp only [bits, Nat.reduceLeDiff] at hle <;>
        simp only [minInt, maxInt, Literal.asInt] at hlow hhigh ⊢ <;> omega
    | float n =>
      rw [show source.isFloatingPoint = true from hv] at hsource
      cases hsource
  rw [Literal.convert_asInt v hsz, Literal.convert_eq_self hholds
    (isFloatingPoint_of_isSignedInteger hsz)]
  rfl

/-- What is true has another number than zero. -/
theorem number_eq_zero_iff (hsz : sz.isFloatingPoint = false) (hv : sz.Holds v) :
    sz.number v = 0 ↔ v.isTruthy = false := by
  cases v with
  | bool b =>
    obtain rfl := (show sz = .bool from hv)
    cases b <;> simp [truth, Literal.isTruthy]
  | int n =>
    rw [number_of_holds hv.1 hv]
    show n.toInt = 0 ↔ (n != 0) = false
    rw [bne_eq_false_iff_eq, ← Int64.toInt_inj]
    rfl
  | float n =>
    rw [show sz.isFloatingPoint = true from hv] at hsz
    cases hsz

end ElemSize

/-! ## Division -/

/-- The quotient that rounds down, from the one that rounds towards zero. -/
theorem fdiv_eq_tdiv_sub (a : Int) {b : Int} (hb : b ≠ 0) :
    a.fdiv b = if a.tmod b ≠ 0 ∧ decide (a < 0) ≠ decide (b < 0) then a.tdiv b - 1
      else a.tdiv b := by
  rw [Int.fdiv_eq_tdiv]
  by_cases hdvd : b ∣ a
  · rw [if_pos hdvd, if_neg fun h => h.1 (Int.dvd_iff_tmod_eq_zero.mp hdvd), Int.sub_zero]
  · have hmod : a.tmod b ≠ 0 := fun h => hdvd (Int.dvd_iff_tmod_eq_zero.mpr h)
    rw [if_neg hdvd]
    rcases Int.lt_or_gt_of_ne hb with hneg | hpos
    · have hsign := Int.sign_eq_neg_one_of_neg hneg
      have hle : ¬0 ≤ b := Int.not_le.mpr hneg
      by_cases ha : 0 ≤ a <;> simp [ha, hmod, hneg, hle, hsign]
    · have hsign := Int.sign_eq_one_of_pos hpos
      by_cases ha : 0 ≤ a <;> simp [ha, hmod, hsign] <;> omega

/-- A remainder with the sign of the dividend is between zero and the dividend. -/
theorem tmod_between (a b : Int) : 0 ≤ a.tmod b ∧ a.tmod b ≤ a ∨ a ≤ a.tmod b ∧ a.tmod b ≤ 0 := by
  have habs := Int.natAbs_tmod a b
  have hle := Nat.mod_le a.natAbs b.natAbs
  rcases Int.le_total 0 a with ha | ha
  · have hnonneg := Int.tmod_nonneg b ha
    omega
  · have hnonneg := Int.tmod_nonneg b (Int.neg_nonneg_of_nonpos ha)
    rw [Int.neg_tmod] at hnonneg
    omega

theorem decide_lt_zero (v : Int64) : decide (v < 0) = decide (v.toInt < 0) :=
  decide_eq_decide.mpr Int64.lt_iff_toInt_lt

theorem ne_zero_iff_toInt {v : Int64} : v ≠ 0 ↔ v.toInt ≠ 0 :=
  not_congr Int64.toInt_inj.symm

theorem Literal.floorDiv_eq (l r : Int64) : floorDiv l r =
    if (l % r).toInt ≠ 0 ∧ decide (l.toInt < 0) ≠ decide (r.toInt < 0) then l / r - 1
      else l / r := by
  simp only [floorDiv, decide_lt_zero, ne_zero_iff_toInt]

/-- A quotient that rounds down is the exact one, as far as 64 bits hold it. -/
theorem Literal.toInt_floorDiv (l : Int64) {r : Int64} (hr : r.toInt ≠ 0) :
    (floorDiv l r).toInt = (l.toInt.fdiv r.toInt).bmod (2 ^ 64) := by
  rw [fdiv_eq_tdiv_sub _ hr, floorDiv_eq, Int64.toInt_mod]
  split
  · rw [Int64.toInt_sub, Int64.toInt_div, Int.bmod_sub_bmod]
    rfl
  · rw [Int64.toInt_div]

theorem Literal.floorMod_eq (l r : Int64) : floorMod l r =
    if (l % r).toInt ≠ 0 ∧ decide ((l % r).toInt < 0) ≠ decide (r.toInt < 0) then l % r + r
      else l % r := by
  simp only [floorMod, decide_lt_zero, ne_zero_iff_toInt]

/-! ## Arithmetic -/

namespace Buffer.ArithOp

variable {sz : ElemSize} (hsz : sz.isSignedInteger = true) (l r : Int64)

section Wrapping

include hsz

theorem eval?_addI : addI.eval? sz l.toInt r.toInt =
    some (sz.number ((Literal.int (l + r)).convert sz)) := by
  rw [ElemSize.number_convert hsz, Literal.asInt, Int64.toInt_add, sz.signed_bmod]
  rfl

theorem eval?_subI : subI.eval? sz l.toInt r.toInt =
    some (sz.number ((Literal.int (l - r)).convert sz)) := by
  rw [ElemSize.number_convert hsz, Literal.asInt, Int64.toInt_sub, sz.signed_bmod]
  rfl

theorem eval?_mulI : mulI.eval? sz l.toInt r.toInt =
    some (sz.number ((Literal.int (l * r)).convert sz)) := by
  rw [ElemSize.number_convert hsz, Literal.asInt, Int64.toInt_mul, sz.signed_bmod]
  rfl

theorem eval?_floorDivSI (hdefined : ¬ (r.toInt = 0 ∨ l.toInt = sz.least ∧ r.toInt = -1)) :
    floorDivSI.eval? sz l.toInt r.toInt =
      some (sz.number ((Literal.int (Literal.floorDiv l r)).convert sz)) := by
  rw [ElemSize.number_convert hsz, Literal.asInt, eval?, if_neg hdefined,
    Literal.toInt_floorDiv _ fun h => hdefined (Or.inl h), sz.signed_bmod]

end Wrapping

/-! ### Bits -/

/-- The low bits of an integer that is held in 64 bits. -/
theorem ofInt_toInt (sz : ElemSize) (v : Int64) :
    BitVec.ofInt sz.bits v.toInt = v.toBitVec.setWidth sz.bits := by
  have hle : sz.bits ≤ 64 := by cases sz <;> decide
  rw [← BitVec.signExtend_eq_setWidth_of_le v.toBitVec hle]
  rfl

theorem toInt_setWidth (sz : ElemSize) (v : Int64) :
    (v.toBitVec.setWidth sz.bits).toInt = sz.signed v.toInt := by
  rw [← ofInt_toInt, BitVec.toInt_ofInt]
  rfl

include hsz

theorem eval?_andI : andI.eval? sz l.toInt r.toInt =
    some (sz.number ((Literal.int (l &&& r)).convert sz)) := by
  rw [ElemSize.number_convert hsz, Literal.asInt, ← toInt_setWidth, Int64.toBitVec_and,
    BitVec.setWidth_and, ← ofInt_toInt, ← ofInt_toInt]
  rfl

theorem eval?_orI : orI.eval? sz l.toInt r.toInt =
    some (sz.number ((Literal.int (l ||| r)).convert sz)) := by
  rw [ElemSize.number_convert hsz, Literal.asInt, ← toInt_setWidth, Int64.toBitVec_or,
    BitVec.setWidth_or, ← ofInt_toInt, ← ofInt_toInt]
  rfl

theorem eval?_xorI : xorI.eval? sz l.toInt r.toInt =
    some (sz.number ((Literal.int (l ^^^ r)).convert sz)) := by
  rw [ElemSize.number_convert hsz, Literal.asInt, ← toInt_setWidth, Int64.toBitVec_xor,
    BitVec.setWidth_xor, ← ofInt_toInt, ← ofInt_toInt]
  rfl

omit hsz

theorem eval?_andI_truth (p q : Bool) :
    andI.eval? .bool (truth p) (truth q) = some (truth (p && q)) := by
  cases p <;> cases q <;> decide

theorem eval?_xorI_truth (p q : Bool) :
    xorI.eval? .bool (truth p) (truth q) = some (truth (p != q)) := by
  cases p <;> cases q <;> decide

/-! ### Choosing -/

theorem eval?_remSI (hdefined : ¬ (r.toInt = 0 ∨ l.toInt = sz.least ∧ r.toInt = -1)) :
    remSI.eval? sz l.toInt r.toInt = some (l % r).toInt := by
  rw [Int64.toInt_mod, eval?, if_neg hdefined]

section Choosing

variable {l r} (hl : sz.Holds (.int l)) (hr : sz.Holds (.int r))
include hl

/-- An integer of a type represents itself. -/
theorem number_int : sz.number ((Literal.int l).convert sz) = l.toInt := by
  rw [Literal.convert_eq_self hl (ElemSize.isFloatingPoint_of_isSignedInteger hl.1)]
  exact ElemSize.number_of_holds hl.1 hl

/-- A remainder of a type is adjusted to the sign of the divisor if it is not zero. -/
theorem number_floorMod : sz.number ((Literal.int (Literal.floorMod l r)).convert sz) =
    if truth (decide ((l % r).toInt ≠ 0) && (decide ((l % r).toInt < 0) != decide (r.toInt < 0)))
      = 0 then (l % r).toInt else sz.signed ((l % r).toInt + r.toInt) := by
  have hrem : sz.Holds (.int (l % r)) := by
    refine ⟨hl.1, ?_⟩
    have hzero : sz.minInt ≤ 0 ∧ 0 ≤ sz.maxInt := by cases sz <;> decide
    have hbetween := tmod_between l.toInt r.toInt
    have hrange := hl.2
    rw [Int64.toInt_mod]
    omega
  rw [Literal.floorMod_eq]
  by_cases hadjust : (l % r).toInt ≠ 0 ∧ decide ((l % r).toInt < 0) ≠ decide (r.toInt < 0)
  · have htrue : (decide ((l % r).toInt ≠ 0) &&
        (decide ((l % r).toInt < 0) != decide (r.toInt < 0))) = true := by
      simpa using hadjust
    rw [if_pos hadjust, htrue, if_neg (by decide), ElemSize.number_convert hl.1, Literal.asInt,
      Int64.toInt_add, sz.signed_bmod]
  · have hfalse : (decide ((l % r).toInt ≠ 0) &&
        (decide ((l % r).toInt < 0) != decide (r.toInt < 0))) = false := by
      simpa using hadjust
    rw [if_neg hadjust, hfalse, if_pos (show truth false = 0 from rfl), number_int hrem]

include hr

theorem eval?_maxSI : maxSI.eval? sz l.toInt r.toInt =
    some (sz.number ((Literal.int (if l ≤ r then r else l)).convert sz)) := by
  rw [eval?]
  congr 1
  split
  · next h => rw [number_int hr, Int.max_eq_right (Int64.le_iff_toInt_le.mp h)]
  · next h =>
    rw [Int64.le_iff_toInt_le, Int.not_le] at h
    rw [number_int hl, Int.max_eq_left (Int.le_of_lt h)]

theorem eval?_minSI : minSI.eval? sz l.toInt r.toInt =
    some (sz.number ((Literal.int (if l ≤ r then l else r)).convert sz)) := by
  rw [eval?]
  congr 1
  split
  · next h => rw [number_int hl, Int.min_eq_left (Int64.le_iff_toInt_le.mp h)]
  · next h =>
    rw [Int64.le_iff_toInt_le, Int.not_le] at h
    rw [number_int hr, Int.min_eq_right (Int.le_of_lt h)]

end Choosing

end Buffer.ArithOp

/-! ## Conversions -/

theorem castOp_of_isSignedInteger {source target : ElemSize} (hsource : source.isSignedInteger = true)
    (htarget : target.isSignedInteger = true) :
    castOp source target = if source.bits < target.bits then .extSI else .truncI := by
  cases source <;> first | cases hsource; done | (cases target <;> first | rfl | cases htarget)

/-- Conversions between types take numbers of values to numbers of the converted values. -/
theorem eval?_castOp {source target : ElemSize} {v : Literal}
    (hsource : source.isFloatingPoint = false) (htarget : target.isSignedInteger = true)
    (hv : source.Holds v) :
    (castOp source target).eval? (.scalar source) (.scalar target) (source.number v) =
      some (target.number (v.convert target)) := by
  cases v with
  | bool b =>
    obtain rfl := (show source = .bool from hv)
    rw [ElemSize.number_convert htarget]
    cases target <;> first | (cases b <;> decide) | cases htarget
  | int n =>
    rw [castOp_of_isSignedInteger hv.1 htarget, ElemSize.number_of_holds hv.1 hv]
    split
    · next hlt =>
      rw [ElemSize.number_of_holds htarget (Literal.holds_convert _ _),
        ElemSize.asInt_convert htarget hsource (Nat.le_of_lt hlt) hv]
      rfl
    · rw [ElemSize.number_convert htarget]
      rfl
  | float x =>
    rw [show source.isFloatingPoint = true from hv] at hsource
    cases hsource

end TensorKernel
