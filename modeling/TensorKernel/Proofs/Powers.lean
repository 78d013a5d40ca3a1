import Mathlib.Data.Int.ModEq
import Mathlib.RingTheory.Int.Basic
import TensorKernel.Eval.Fault
import TensorKernel.Proofs.Buffer.Number

/-!
# Powers of integers

A power is computed by repeated squaring, which wraps around at every step.  `toInt_power` says that
wrapping around once at the end comes to the same.

An exponent of more than 32 bits counts as the greatest of 32 bits.  `binary_pow` says what this makes
of a power: it is the one of the exponent as it is for an even base, whose powers have vanished by
then, and for an odd base where the exponents that are left out are a multiple of a period.
-/

namespace TensorKernel

namespace Literal

/-! ## Repeated squaring -/

theorem toInt_mul_modEq (l r : Int64) :
    (l * r).toInt ≡ l.toInt * r.toInt [ZMOD ((2 ^ 64 : Nat) : Int)] := by
  rw [Int64.toInt_mul]
  exact Int.bmod_emod

theorem toInt_power_modEq (base : Int64) (n : Nat) :
    (power base n).toInt ≡ base.toInt ^ n [ZMOD ((2 ^ 64 : Nat) : Int)] := by
  induction base, n using power.induct with
  | case1 base =>
    rw [power, if_pos rfl, pow_zero]
    rfl
  | case2 base n hzero heven ih =>
    have hsplit : base.toInt ^ n = (base.toInt * base.toInt) ^ (n / 2) := by
      rw [← pow_two, ← pow_mul, Nat.mul_div_cancel' (Nat.dvd_of_mod_eq_zero heven)]
    rw [power, if_neg hzero, if_pos heven, hsplit]
    exact ih.trans ((toInt_mul_modEq base base).pow (n / 2))
  | case3 base n hzero hodd ih =>
    have hsplit : base.toInt ^ n = (base.toInt * base.toInt) ^ (n / 2) * base.toInt := by
      rw [← pow_two, ← pow_mul, ← pow_succ, show 2 * (n / 2) + 1 = n by omega]
    rw [power, if_neg hzero, if_neg hodd, hsplit]
    have hroot := ih.trans ((toInt_mul_modEq base base).pow (n / 2))
    exact (toInt_mul_modEq _ base).trans (hroot.mul_right base.toInt)

/-- Integers are wrapped to the same number where they are congruent. -/
theorem bmod_eq_bmod_iff {m : Nat} {a b : Int} : a.bmod m = b.bmod m ↔ a ≡ b [ZMOD m] := by
  constructor
  · intro h
    rw [Int.ModEq, ← Int.bmod_emod (x := a), h, Int.bmod_emod]
  · intro h
    rw [← Int.emod_bmod a, show a % m = b % m from h, Int.emod_bmod]

/-- Repeated squaring wraps around as the power does. -/
theorem toInt_power (base : Int64) (n : Nat) :
    (power base n).toInt = (base.toInt ^ n).bmod (2 ^ 64) := by
  rw [← Int64.toInt_bmod (power base n)]
  exact bmod_eq_bmod_iff.mpr (toInt_power_modEq base n)

/-! ## Powers in a type -/

/-- The exponent that counts. -/
theorem toInt_clampedExponent (r : Int64) :
    (if r ≤ maxExponent then r else maxExponent).toInt = min r.toInt (2 ^ 32 - 1) := by
  have hmax : maxExponent.toInt = 2 ^ 32 - 1 := by decide
  split
  · next h =>
    have hle := Int64.le_iff_toInt_le.mp h
    rw [min_eq_left (by omega)]
  · next h =>
    have hlt := Int64.lt_iff_toInt_lt.mp (Int64.not_le.mp h)
    rw [min_eq_right (by omega), hmax]

/-- An integer in a type of integers is the one with the same low bits. -/
theorem exists_convert_int (v : Int64) {sz : ElemSize} (hsz : sz.isSignedInteger = true) :
    ∃ w : Int64, (int v).convert sz = .int w ∧ w.toInt = v.toInt.bmod (2 ^ sz.bits) := by
  have hholds := holds_convert (int v) sz
  refine ⟨((int v).convert sz).asInt, holds_asInt hholds hsz, ?_⟩
  rw [← ElemSize.number_of_holds hsz hholds, ElemSize.number_convert hsz]
  rfl

/-- The low bits in a type are among the 64 low bits. -/
theorem bmod_bmod_bits (n : Int) (sz : ElemSize) :
    (n.bmod (2 ^ 64)).bmod (2 ^ sz.bits) = n.bmod (2 ^ sz.bits) :=
  ElemSize.signed_bmod sz n

/-- The modulus of a type divides a power of an even number that is long enough. -/
theorem modulus_dvd_pow {base : Int} (h : (2 : Int) ∣ base) (sz : ElemSize) {n : Nat} (hn : 64 ≤ n) :
    (2 : Int) ^ sz.bits ∣ base ^ n := by
  have hbits : sz.bits ≤ n := Nat.le_trans (by cases sz <;> decide) hn
  exact (pow_dvd_pow 2 hbits).trans (pow_dvd_pow_of_dvd h n)

/-- Two powers of one base agree where the base is even, or where the exponents differ by a period. -/
theorem pow_modEq_pow_iff (base : Int) (sz : ElemSize) {m n : Nat} (hm : 64 ≤ m) (hmn : m ≤ n) :
    base ^ m ≡ base ^ n [ZMOD ((2 ^ sz.bits : Nat) : Int)] ↔
      (2 : Int) ∣ base ∨ base ^ (n - m) ≡ 1 [ZMOD ((2 ^ sz.bits : Nat) : Int)] := by
  have hdifference : base ^ n - base ^ m = base ^ m * (base ^ (n - m) - 1) := by
    rw [mul_sub, ← pow_add, Nat.add_sub_cancel' hmn, mul_one]
  have hmodulus : ((2 ^ sz.bits : Nat) : Int) = 2 ^ sz.bits := by norm_cast
  rw [Int.modEq_iff_dvd, hdifference, hmodulus, Int.modEq_comm, Int.modEq_iff_dvd]
  constructor
  · intro hdvd
    by_cases heven : (2 : Int) ∣ base
    · exact Or.inl heven
    · have hodd : Odd base := Int.not_even_iff_odd.mp (mt even_iff_two_dvd.mp heven)
      have hcoprime : IsCoprime ((2 : Int) ^ sz.bits) (base ^ m) :=
        (Int.isCoprime_two_left.mpr hodd).pow
      exact Or.inr (hcoprime.dvd_of_dvd_mul_left hdvd)
  · rintro (heven | hperiod)
    · exact (modulus_dvd_pow heven sz hm).mul_right _
    · exact hperiod.mul_left _

/-- Arithmetic in a type of integers is that of 64 bits, brought into the type afterwards. -/
theorem binary_eq_intBinary (l r : Literal) {sz : ElemSize} (hsz : sz.isSignedInteger = true)
    {op : BinOp} (hcomparison : op.isComparison = false) (hboolean : op.isBoolean = false) :
    l.binary op r sz = (intBinary op l.asInt r.asInt).map fun v => (int v).convert sz := by
  have hfloat := ElemSize.isFloatingPoint_of_isSignedInteger hsz
  simp only [binary, hcomparison, hboolean, hfloat, Bool.false_eq_true, if_false]

theorem binary_pow_eq (l r : Literal) {sz : ElemSize} (hsz : sz.isSignedInteger = true) :
    l.binary .pow r sz = (intBinary .pow l.asInt r.asInt).map fun v => (int v).convert sz :=
  binary_eq_intBinary l r hsz rfl rfl

/-- A power is one with an exponent of at most 32 bits. -/
theorem exists_binary_pow (l r : Literal) {sz : ElemSize} (hsz : sz.isSignedInteger = true)
    (hr : 0 ≤ r.asInt.toInt) : ∃ w : Int64, l.binary .pow r sz = .ok (.int w) ∧
      w.toInt = (l.asInt.toInt ^ (min r.asInt.toInt (2 ^ 32 - 1)).toNat).bmod (2 ^ sz.bits) := by
  have hr' : ¬ r.asInt < 0 := fun h => Int.not_lt.mpr hr (Int64.lt_iff_toInt_lt.mp h)
  rw [binary_pow_eq l r hsz, intBinary, if_neg hr', toInt_clampedExponent]
  obtain ⟨w, hw, hvalue⟩ := exists_convert_int
    (power l.asInt (min r.asInt.toInt (2 ^ 32 - 1)).toNat) hsz
  rw [toInt_power, bmod_bmod_bits] at hvalue
  exact ⟨w, congrArg Except.ok hw, hvalue⟩

/--
The power of integers in a type of integers.  Negative exponents are refused.  The other powers are
taken with an exponent of at most 32 bits and wrapped around at the width of the type, which is the
power itself for exponents in this range and for even bases.  For an odd base and a greater exponent
it is the power exactly where the exponents that are left out come to a factor of one.
-/
theorem binary_pow (l r : Literal) {sz : ElemSize} (hsz : sz.isSignedInteger = true) :
    (r.asInt.toInt < 0 → l.binary .pow r sz = .error (.negativePower r.asInt) ∧
      (EvalFault.arithmetic (.negativePower r.asInt)).kind = .runtimeError) ∧
    (0 ≤ r.asInt.toInt → ∃ w : Int64, l.binary .pow r sz = .ok (.int w) ∧
      w.toInt = (l.asInt.toInt ^ (min r.asInt.toInt (2 ^ 32 - 1)).toNat).bmod (2 ^ sz.bits) ∧
      (w.toInt = (l.asInt.toInt ^ r.asInt.toInt.toNat).bmod (2 ^ sz.bits) ↔
        r.asInt.toInt < 2 ^ 32 ∨ 2 ∣ l.asInt.toInt ∨
          (l.asInt.toInt ^ (r.asInt.toInt - (2 ^ 32 - 1)).toNat).bmod (2 ^ sz.bits) =
            (1 : Int).bmod (2 ^ sz.bits))) := by
  refine ⟨fun hneg => ⟨?_, rfl⟩, fun hnonneg => ?_⟩
  · rw [binary_pow_eq l r hsz, intBinary, if_pos (Int64.lt_iff_toInt_lt.mpr hneg)]
    rfl
  · obtain ⟨w, hw, hvalue⟩ := exists_binary_pow l r hsz hnonneg
    refine ⟨w, hw, hvalue, ?_⟩
    rw [hvalue, bmod_eq_bmod_iff, bmod_eq_bmod_iff]
    by_cases hsmall : r.asInt.toInt < 2 ^ 32
    · rw [min_eq_left (by omega)]
      exact iff_of_true rfl (Or.inl hsmall)
    · have hleft : (r.asInt.toInt - (2 ^ 32 - 1)).toNat =
          r.asInt.toInt.toNat - (2 ^ 32 - 1 : Int).toNat := by omega
      rw [min_eq_right (by omega), pow_modEq_pow_iff _ sz (by decide) (by omega), hleft]
      exact (or_iff_right hsmall).symm

/-- The cube of seven wraps around in eight bits. -/
theorem binary_pow_cube : ElemSize.i8.isSignedInteger = true ∧
    ∃ w : Int64, (int 7).binary .pow (int 3) .i8 = .ok (.int w) ∧ w.toInt = 87 := by
  have hsz : ElemSize.i8.isSignedInteger = true := rfl
  obtain ⟨w, hw, hvalue, -⟩ := (binary_pow (int 7) (int 3) hsz).2 (by decide)
  exact ⟨hsz, w, hw, hvalue.trans (by decide)⟩

/-- The first exponent that does not count as it is changes the sign of a power of minus one. -/
theorem binary_pow_beyond : (int (-1)).binary .pow (int 4294967296) .i64 = .ok (.int (-1)) ∧
    ((-1 : Int) ^ 4294967296).bmod (2 ^ ElemSize.i64.bits) = 1 := by
  obtain ⟨w, hw, hvalue⟩ := exists_binary_pow (int (-1)) (int 4294967296)
    (show ElemSize.i64.isSignedInteger = true from rfl) (by decide)
  have hodd : Odd (4294967295 : Nat) := by decide
  have heven : Even (4294967296 : Nat) := by decide
  have hvalue' : w.toInt = (-1 : Int64).toInt :=
    hvalue.trans (congrArg (fun n : Int => n.bmod (2 ^ 64)) hodd.neg_one_pow)
  refine ⟨?_, ?_⟩
  · rw [hw, Int64.toInt_inj.mp hvalue']
  · rw [heven.neg_one_pow]
    decide

end Literal

end TensorKernel
