import Mathlib.Data.Rat.Floor
import TensorKernel.Proofs.OpenRanges
import TensorKernel.Proofs.Powers

/-!
# Quotients and remainders of integers

Division that rounds down is computed from the division of the machine, which rounds towards zero, by
corrections of the quotient and of the remainder.  `Literal.exact_corrections` says that neither of them
wraps around at 64 bits.

`Literal.binary_floorDiv_rem` says that the two results are the quotient and the remainder of one
division, in every type of integers.  The one quotient that a type does not hold is that of its least
number by minus one, which wraps around to the least number.
-/

namespace TensorKernel

/-! ## Division that rounds down -/

/-- A remainder has the sign of the divisor and is closer to zero. -/
theorem fmod_between (a : Int) {b : Int} (hb : b ≠ 0) :
    0 < b ∧ 0 ≤ a.fmod b ∧ a.fmod b < b ∨ b < 0 ∧ b < a.fmod b ∧ a.fmod b ≤ 0 := by
  rcases Int.lt_or_gt_of_ne hb with hneg | hpos
  · refine Or.inr ⟨hneg, ?_⟩
    have hnonneg := Int.emod_nonneg a hb
    have hlt := Int.emod_lt_of_neg a hneg
    rw [Int.fmod_eq_emod]
    by_cases hdvd : b ∣ a
    · rw [if_pos (Or.inr hdvd), Int.emod_eq_zero_of_dvd hdvd]
      omega
    · have hne : a % b ≠ 0 := fun h => hdvd (Int.dvd_of_emod_eq_zero h)
      rw [if_neg (by omega)]
      omega
  · exact Or.inl ⟨hpos, Int.fmod_nonneg_of_pos a hpos, Int.fmod_lt_of_pos a hpos⟩

/-- The quotient is the floor of the rational one. -/
theorem floor_div_eq_fdiv (a : Int) {b : Int} (hb : b ≠ 0) : ⌊(a : ℚ) / b⌋ = a.fdiv b := by
  have hsplit : (b : ℚ) * a.fdiv b + a.fmod b = a := by exact_mod_cast Int.mul_fdiv_add_fmod a b
  have hquotient : (a : ℚ) / b = a.fdiv b + (a.fmod b : ℚ) / b := by
    rw [← hsplit]
    field_simp
  rw [Int.floor_eq_iff, hquotient]
  rcases fmod_between a hb with ⟨hpos, hlow, hhigh⟩ | ⟨hneg, hlow, hhigh⟩
  · have hpos' : (0 : ℚ) < b := by exact_mod_cast hpos
    have hlow' : 0 ≤ (a.fmod b : ℚ) / b := div_nonneg (by exact_mod_cast hlow) hpos'.le
    have hhigh' : (a.fmod b : ℚ) / b < 1 := (div_lt_one hpos').mpr (by exact_mod_cast hhigh)
    constructor <;> linarith
  · have hneg' : (b : ℚ) < 0 := by exact_mod_cast hneg
    have hlow' : 0 ≤ (a.fmod b : ℚ) / b :=
      div_nonneg_of_nonpos (by exact_mod_cast hhigh) hneg'.le
    have hhigh' : (a.fmod b : ℚ) / b < 1 := (div_lt_one_of_neg hneg').mpr (by exact_mod_cast hlow)
    constructor <;> linarith

/-- The remainder that goes with rounding down, from the one with the sign of the dividend. -/
theorem fmod_eq_tmod_add (a : Int) {b : Int} (hb : b ≠ 0) :
    a.fmod b = if a.tmod b ≠ 0 ∧ decide (a.tmod b < 0) ≠ decide (b < 0) then a.tmod b + b
      else a.tmod b := by
  have hguard : (a.tmod b ≠ 0 ∧ decide (a.tmod b < 0) ≠ decide (b < 0)) ↔
      (a.tmod b ≠ 0 ∧ decide (a < 0) ≠ decide (b < 0)) := by
    refine and_congr_right fun hne => ?_
    -- A remainder that is not zero has the sign of the dividend.
    have hsign : (a.tmod b < 0) ↔ (a < 0) := by
      have := tmod_between a b
      omega
    simp only [hsign]
  have htruncated := Int.tmod_add_mul_tdiv a b
  rw [Int.fmod_def, fdiv_eq_tdiv_sub a hb]
  simp only [hguard]
  split
  · rw [Int.mul_sub]
    omega
  · omega

namespace ElemSize.Contains

variable {sz : ElemSize} {n s : Int}

theorem zero (hsz : sz.isSignedInteger = true) : sz.Contains 0 :=
  ⟨hsz, by cases sz <;> decide, by cases sz <;> decide⟩

/-- A quotient is in the type of its operands, but for that of the least number by minus one. -/
theorem fdiv_of_ne (h : sz.Contains n) (hs : s ≠ 0) (hwrap : ¬ (n = sz.minInt ∧ s = -1)) :
    sz.Contains (n.fdiv s) := by
  rcases Int.lt_or_gt_of_ne hs with hneg | hpos
  · have hmin := minInt_eq h.signed
    have hzero := zero h.signed
    obtain ⟨hsigned, hlow, hhigh⟩ := h
    obtain ⟨-, hzlow, hzhigh⟩ := hzero
    have hbetween := fdiv_between (-n) (s := -s) (by omega)
    rw [Int.neg_fdiv_neg] at hbetween
    refine ⟨hsigned, by omega, ?_⟩
    by_cases hone : s = -1
    · omega
    · -- By a lesser number than minus one the least number is divided by two at least.
      have hsplit := Int.mul_fdiv_add_fmod n s
      have hrest := fmod_between n hs
      by_contra hgt
      have hdouble : s * n.fdiv s ≤ -2 * n.fdiv s :=
        Int.mul_le_mul_of_nonneg_right (by omega) (by omega)
      omega
  · exact h.fdiv hpos

/-- The remainder of a number of a type by another one is in the type. -/
theorem fmod (hs : sz.Contains s) (hne : s ≠ 0) : sz.Contains (n.fmod s) := by
  have hlow := hs.low
  have hhigh := hs.high
  have hzero := zero hs.signed
  have hzlow := hzero.low
  have hzhigh := hzero.high
  refine ⟨hs.signed, ?_, ?_⟩ <;> rcases fmod_between n hne with h | h <;> omega

/-- A number of a type has no more bits than the type. -/
theorem bmod_bits (h : sz.Contains n) : n.bmod (2 ^ sz.bits) = n :=
  ElemSize.signed_eq_self h.signed h.low h.high

/-- The negative of the least number wraps around to the least number. -/
theorem bmod_neg_minInt (sz : ElemSize) : (-sz.minInt).bmod (2 ^ sz.bits) = sz.minInt := by
  cases sz <;> decide

end ElemSize.Contains

/-! ## Corrections -/

namespace Literal

/-- The corrections of the quotient and of the remainder of the machine are exact. -/
structure ExactCorrections (l r : Int64) : Prop where
  decrement : l % r ≠ 0 → decide (l < 0) ≠ decide (r < 0) → (l / r - 1).toInt = (l / r).toInt - 1
  addition : l % r ≠ 0 → decide (l % r < 0) ≠ decide (r < 0) →
    (l % r + r).toInt = (l % r).toInt + r.toInt

/-- A quotient and a remainder of the machine are together no farther from zero than the dividend. -/
theorem natAbs_tdiv_add_natAbs_tmod_le (a : Int) {b : Int} (hb : b ≠ 0) :
    (a.tdiv b).natAbs + (a.tmod b).natAbs ≤ a.natAbs := by
  have hsplit := Nat.div_add_mod a.natAbs b.natAbs
  have hmul : a.natAbs / b.natAbs ≤ b.natAbs * (a.natAbs / b.natAbs) :=
    Nat.le_mul_of_pos_left _ (Int.natAbs_pos.mpr hb)
  have hquotient : (a.tdiv b).natAbs = a.natAbs / b.natAbs := Int.natAbs_tdiv a b
  rw [hquotient, Int.natAbs_tmod]
  omega

theorem exact_corrections (l : Int64) {r : Int64} (hr : r.toInt ≠ 0) : ExactCorrections l r where
  decrement hrem _ := by
    rw [ne_zero_iff_toInt, Int64.toInt_mod] at hrem
    have hl := toInt_bounds l
    have hsum := natAbs_tdiv_add_natAbs_tmod_le l.toInt hr
    have hquotient : (l / r).toInt = l.toInt.tdiv r.toInt := by
      rw [Int64.toInt_div]
      apply Int.bmod_eq_of_le <;> omega
    rw [Int64.toInt_sub, hquotient]
    show (l.toInt.tdiv r.toInt - 1).bmod (2 ^ 64) = _
    apply Int.bmod_eq_of_le <;> omega
  addition hrem hsign := by
    rw [ne_zero_iff_toInt] at hrem
    rw [decide_lt_zero, decide_lt_zero] at hsign
    have hr' := toInt_bounds r
    have hm := toInt_bounds (l % r)
    have hopposite : ¬ ((l % r).toInt < 0 ↔ r.toInt < 0) := fun h => hsign (decide_eq_decide.mpr h)
    rw [Int64.toInt_add]
    apply Int.bmod_eq_of_le <;> omega

/-- A remainder that rounds down is the exact one. -/
theorem toInt_floorMod (l : Int64) {r : Int64} (hr : r.toInt ≠ 0) :
    (floorMod l r).toInt = l.toInt.fmod r.toInt := by
  rw [fmod_eq_tmod_add _ hr, floorMod_eq, ← Int64.toInt_mod]
  split
  · next h =>
    have hrem : l % r ≠ 0 := ne_zero_iff_toInt.mpr h.1
    exact (exact_corrections l hr).addition hrem (by rw [decide_lt_zero, decide_lt_zero]; exact h.2)
  · rfl

/-! ## Quotients and remainders in a type -/

/-- What a quotient and a remainder of numbers of a type are. -/
structure DivisionPair (sz : ElemSize) (l r q m : Int) : Prop where
  sign : m = 0 ∨ m.sign = r.sign
  lt : m.natAbs < r.natAbs
  exact : ¬ (l = sz.minInt ∧ r = -1) → q = ⌊(l : ℚ) / r⌋ ∧ l = q * r + m
  wrapped : l = sz.minInt ∧ r = -1 → q = sz.minInt ∧ m = 0

theorem divisionPair {sz : ElemSize} {l r : Int} (hl : sz.Contains l) (hr : r ≠ 0) :
    DivisionPair sz l r ((l.fdiv r).bmod (2 ^ sz.bits)) (l.fmod r) where
  sign := by
    rcases fmod_between l hr with ⟨hpos, hlow, _⟩ | ⟨hneg, _, hhigh⟩
    · rcases Int.lt_or_eq_of_le hlow with hlow | hzero
      · exact Or.inr ((Int.sign_eq_one_of_pos hlow).trans (Int.sign_eq_one_of_pos hpos).symm)
      · exact Or.inl hzero.symm
    · rcases Int.lt_or_eq_of_le hhigh with hhigh | hzero
      · exact Or.inr
          ((Int.sign_eq_neg_one_of_neg hhigh).trans (Int.sign_eq_neg_one_of_neg hneg).symm)
      · exact Or.inl hzero
  lt := by
    have := fmod_between l hr
    omega
  exact hwrap := by
    rw [(hl.fdiv_of_ne hr hwrap).bmod_bits, floor_div_eq_fdiv l hr, Int.mul_comm]
    exact ⟨rfl, (Int.mul_fdiv_add_fmod l r).symm⟩
  wrapped := by
    rintro ⟨rfl, rfl⟩
    have hquotient : sz.minInt.fdiv (-1) = -sz.minInt := by
      rw [← Int.neg_fdiv_neg, Int.neg_neg, Int.fdiv_one]
    have hrest := Int.mul_fdiv_add_fmod sz.minInt (-1)
    rw [hquotient] at hrest ⊢
    exact ⟨ElemSize.Contains.bmod_neg_minInt sz, by omega⟩

/--
Division and remainder of integers in a type of integers.  A zero divisor is refused by both.  With
any other divisor they give the floor of the quotient and the remainder that goes with it, which has
the sign of the divisor, and nothing that is computed on the way wraps around at 64 bits.  Only the
quotient of the least number by minus one is not in the type, and wraps around to the least number.
-/
theorem binary_floorDiv_rem {l r : Literal} {sz : ElemSize} (hl : sz.Contains l.asInt.toInt)
    (hr : sz.Contains r.asInt.toInt) :
    (r.asInt.toInt = 0 → l.binary .floorDiv r sz = .error .divisionByZero ∧
      l.binary .rem r sz = .error .divisionByZero ∧
      (EvalFault.arithmetic .divisionByZero).kind = .runtimeError) ∧
    (r.asInt.toInt ≠ 0 → ExactCorrections l.asInt r.asInt ∧
      ∃ q m : Int64, l.binary .floorDiv r sz = .ok (.int q) ∧ l.binary .rem r sz = .ok (.int m) ∧
        DivisionPair sz l.asInt.toInt r.asInt.toInt q.toInt m.toInt) := by
  have hsz := hl.signed
  rw [binary_eq_intBinary l r hsz rfl rfl, binary_eq_intBinary l r hsz rfl rfl, intBinary, intBinary]
  refine ⟨fun hzero => ?_, fun hne => ?_⟩
  · rw [if_pos (Int64.toInt_inj.mp hzero), if_pos (Int64.toInt_inj.mp hzero)]
    exact ⟨rfl, rfl, rfl⟩
  · have hpair := divisionPair hl hne
    rw [if_neg (ne_zero_iff_toInt.mpr hne), if_neg (ne_zero_iff_toInt.mpr hne)]
    obtain ⟨q, hq, hqvalue⟩ := exists_convert_int (floorDiv l.asInt r.asInt) hsz
    obtain ⟨m, hm, hmvalue⟩ := exists_convert_int (floorMod l.asInt r.asInt) hsz
    rw [toInt_floorDiv _ hne, bmod_bmod_bits] at hqvalue
    rw [toInt_floorMod _ hne, (hr.fmod hne).bmod_bits] at hmvalue
    refine ⟨exact_corrections _ hne, q, m, congrArg Except.ok hq, congrArg Except.ok hm, ?_⟩
    rwa [hqvalue, hmvalue]

/-- The least number of eight bits by minus one, and a quotient that is rounded down. -/
theorem binary_floorDiv_rem_least :
    (∃ q m : Int64, (int (-128)).binary .floorDiv (int (-1)) .i8 = .ok (.int q) ∧
      (int (-128)).binary .rem (int (-1)) .i8 = .ok (.int m) ∧ q.toInt = -128 ∧ m.toInt = 0) ∧
    ∃ q m : Int64, (int 7).binary .floorDiv (int (-2)) .i8 = .ok (.int q) ∧
      (int 7).binary .rem (int (-2)) .i8 = .ok (.int m) ∧ 7 = q.toInt * -2 + m.toInt := by
  have hcontains : ElemSize.i8.Contains (-128) ∧ ElemSize.i8.Contains (-1) ∧
      ElemSize.i8.Contains 7 ∧ ElemSize.i8.Contains (-2) :=
    ⟨⟨rfl, by decide, by decide⟩, ⟨rfl, by decide, by decide⟩, ⟨rfl, by decide, by decide⟩,
      ⟨rfl, by decide, by decide⟩⟩
  obtain ⟨hleast, hone, hseven, htwo⟩ := hcontains
  obtain ⟨-, q, m, hq, hm, hpair⟩ :=
    (binary_floorDiv_rem (l := int (-128)) (r := int (-1)) hleast hone).2 (by decide)
  obtain ⟨-, q', m', hq', hm', hpair'⟩ :=
    (binary_floorDiv_rem (l := int 7) (r := int (-2)) hseven htwo).2 (by decide)
  exact ⟨⟨q, m, hq, hm, hpair.wrapped (by decide)⟩, q', m', hq', hm', (hpair'.exact (by decide)).2⟩

end Literal

end TensorKernel
