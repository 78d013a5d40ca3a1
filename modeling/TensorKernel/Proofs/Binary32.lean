import Mathlib
import TensorKernel.Proofs.Literal

/-!
# Rounding to single precision

A number that is in single precision already is not changed by rounding, so rounding twice is
rounding once.

A double holds a number of single precision with more bits behind.  `Fits` says that a mantissa and
an exponent are those by which a format holds a number; rounding finds them again, however many zeros
were shifted in behind the mantissa.
-/

namespace TensorKernel

namespace Binary32

open Float.Model (Format UnpackedFloat totalExponent)
open Float.Model.UnpackedFloat (Sign ExtendedMantissa Accuracy shiftToTargetExponent shiftToExponent
  decreaseExponent packComponents unpackExponent unpackMantissa unpackExponent_packComponents
  unpackMantissa_packComponents unpackSign_packComponents pack_unpack_of_valid valid_pack)

/-! ## Mantissas that are shifted -/

section Shifts

variable {m : Nat} {e : Int}

theorem log2_shiftLeft (h : 0 < m) (k : Nat) : (m <<< k).log2 = m.log2 + k := by
  induction k with
  | zero => rfl
  | succ k ih =>
    have hpos : m <<< k ≠ 0 := by
      rw [Nat.shiftLeft_eq]
      exact (Nat.mul_pos h (Nat.two_pow_pos k)).ne'
    rw [Nat.shiftLeft_succ, Nat.log2_two_mul hpos, ih, Nat.add_assoc]

/-- Zeros behind a mantissa do not change the size of a number. -/
theorem totalExponent_shiftLeft (h : 0 < m) (k : Nat) (e : Int) :
    totalExponent (m <<< k) (e - k) = totalExponent m e := by
  rw [totalExponent, log2_shiftLeft h, totalExponent]
  push_cast
  ring

/-- Shifting zeros out again loses nothing. -/
theorem repeat_shiftRightOne (m k : Nat) :
    Nat.repeat ExtendedMantissa.shiftRightOne k ⟨m <<< k, false, false⟩ = ⟨m, false, false⟩ := by
  induction k generalizing m with
  | zero => rfl
  | succ k ih =>
    rw [Nat.repeat, Nat.shiftLeft_succ_inside, ih]
    simp [ExtendedMantissa.shiftRightOne]

end Shifts

/-! ## Numbers that fit -/

/-- A mantissa and an exponent by which a format holds a number. -/
structure Fits (format : Format) (mantissa : Nat) (exponent : Int) : Prop where
  pos : 0 < mantissa
  target : format.targetExponent (totalExponent mantissa exponent) = exponent

namespace Fits

variable {format : Format} {m : Nat} {e : Int}

theorem shiftToTargetExponent (h : Fits format m e) (k : Nat) :
    UnpackedFloat.shiftToTargetExponent format (m <<< k) (e - k) .exact = (⟨m, false, false⟩, e) := by
  have hshift : (e - (e - k)).toNat = k := by omega
  have hvalue := repeat_shiftRightOne m k
  unfold UnpackedFloat.shiftToTargetExponent shiftToExponent
  rw [totalExponent_shiftLeft h.pos, h.target]
  dsimp only
  rw [hshift]
  exact Prod.ext hvalue (by dsimp only; omega)

theorem roundWithAccuracy (h : Fits format m e) (sign : Sign) (k : Nat) :
    UnpackedFloat.roundWithAccuracy format sign (m <<< k) (e - k) .exact =
      .finite sign m e h.pos := by
  have hagain := h.shiftToTargetExponent 0
  rw [Nat.shiftLeft_zero, Int.natCast_zero, Int.sub_zero] at hagain
  unfold UnpackedFloat.roundWithAccuracy
  rw [h.shiftToTargetExponent k]
  dsimp only [ExtendedMantissa.roundedMantissa, ExtendedMantissa.accuracy,
    Accuracy.roundToNearestEven]
  rw [hagain]
  exact dif_neg h.pos.ne'

/-- A number that fits is found again behind zeros that were shifted in. -/
theorem round_shiftLeft (h : Fits format m e) (sign : Sign) (k : Nat) :
    UnpackedFloat.round format sign (m <<< k) (e - k) = .finite sign m e h.pos := by
  have hshift : (e - k - e).toNat = 0 := by omega
  unfold UnpackedFloat.round decreaseExponent
  rw [totalExponent_shiftLeft h.pos, h.target]
  dsimp only
  rw [hshift, Nat.shiftLeft_zero, Int.natCast_zero, Int.sub_zero]
  exact h.roundWithAccuracy sign k

/-- A number that fits behind zeros is held with these zeros. -/
theorem round {k : Nat} (h : Fits format (m <<< k) (e - k)) (hm : 0 < m) (sign : Sign) :
    UnpackedFloat.round format sign m e = .finite sign (m <<< k) (e - k) h.pos := by
  have htarget := h.target
  rw [totalExponent_shiftLeft hm] at htarget
  have hshift : (e - (e - k)).toNat = k := by omega
  have hround := h.roundWithAccuracy sign 0
  rw [Nat.shiftLeft_zero, Int.natCast_zero, Int.sub_zero] at hround
  unfold UnpackedFloat.round decreaseExponent
  rw [htarget]
  dsimp only
  rw [hshift]
  exact hround

end Fits

/-! ## Bits -/

theorem toNat_one_append {n : Nat} (v : BitVec n) : (BitVec.ofNat 1 1 ++ v).toNat = 2 ^ n + v.toNat := by
  rw [BitVec.toNat_append, Nat.shiftLeft_eq, BitVec.toNat_ofNat, Nat.mul_comm,
    ← Nat.two_pow_add_eq_or_of_lt v.isLt, Nat.mul_one]

/-- The numbers that the bits of single precision stand for fit into it. -/
theorem fits_of_unpack {bits : BitVec Format.binary32.numBits} {sign : Sign} {m : Nat} {e : Int}
    {hm : 0 < m} (h : UnpackedFloat.unpack .binary32 bits = .finite sign m e hm) :
    Fits .binary32 m e ∧ m.log2 ≤ 23 ∧ -149 ≤ e ∧ e ≤ 104 := by
  have hmantissa := (unpackMantissa bits).isLt
  have hexponent := (unpackExponent bits).isLt
  unfold UnpackedFloat.unpack at h
  dsimp only [Format.binary32, Format.exponentBias] at *
  split at h
  · split at h <;> cases h
  · next hfinite =>
    -- An exponent field of all ones is no number.
    have hnot : (unpackExponent bits).toNat ≠ 255 := fun h => hfinite (BitVec.eq_of_toNat_eq h)
    split at h
    -- Subnormal: no hidden bit, so the fraction alone is the value, at the lowest place.
    · next hzero =>
      split at h
      · cases h
      · rw [hzero] at h
        injection h with _ hvalue hplace
        subst hvalue hplace
        have hlog : (unpackMantissa bits).toNat.log2 < 23 := (Nat.log2_lt hm.ne').mpr hmantissa
        refine ⟨⟨hm, ?_⟩, by omega, ?_, ?_⟩
        · simp [Format.targetExponent, totalExponent, Format.minExponent, Format.mantissaBits]
          omega
        · simp
        · simp
    -- Normal: the hidden bit is the leading one, so the value has twenty-four bits.
    · next hnonzero =>
      have hpos : (unpackExponent bits).toNat ≠ 0 := fun h => hnonzero (BitVec.eq_of_toNat_eq h)
      injection h with _ hvalue hplace
      have hbits : (BitVec.ofNat 1 1 ++ unpackMantissa bits).toNat = 2 ^ 23 + (unpackMantissa bits).toNat :=
        toNat_one_append _
      have hlog : m.log2 = 23 := by
        rw [← hvalue, hbits]
        exact (Nat.log2_eq_iff (by omega)).mpr ⟨by omega, by omega⟩
      subst hplace
      refine ⟨⟨hm, ?_⟩, by omega, by omega, by omega⟩
      simp only [Format.targetExponent, totalExponent, Format.minExponent, Format.mantissaBits, hlog]
      omega

/-- A number with all the bits of its format is read as it was written. -/
theorem unpack_pack {format : Format} (sign : Sign) {m n : Nat} {e : Int} (hm : 0 < m)
    (hlog : m.log2 = format.mantissaBitsWithoutImplicit)
    (hexp : e + format.exponentBias + format.mantissaBitsWithoutImplicit = n) (hn : 0 < n)
    (hlt : n + 1 < 2 ^ format.exponentBits) :
    UnpackedFloat.unpack format (UnpackedFloat.pack format (.finite sign m e hm)) =
      .finite sign m e hm := by
  have hbits : m.log2 + 1 = format.mantissaBits := by
    rw [hlog, Format.mantissaBits, Nat.add_comm]
  have hbounds := (Nat.log2_eq_iff hm.ne').mp hlog
  have hpack : UnpackedFloat.pack format (.finite sign m e hm) =
      packComponents format sign (BitVec.ofNat _ n) (BitVec.ofNat _ m) := by
    unfold UnpackedFloat.pack
    rw [hexp, Int.toNat_natCast]
    dsimp only
    rw [if_neg (by omega), if_pos hbits]
  have hexponent : (BitVec.ofNat format.exponentBits n).toNat = n := by
    rw [BitVec.toNat_ofNat, Nat.mod_eq_of_lt (by omega)]
  have hfinite : BitVec.ofNat format.exponentBits n ≠ -BitVec.ofNat _ 1 := fun h => by
    have h := congrArg BitVec.toNat h
    rw [hexponent, BitVec.neg_one_eq_allOnes, BitVec.toNat_allOnes] at h
    omega
  have hnormal : BitVec.ofNat format.exponentBits n ≠ BitVec.ofNat _ 0 := fun h => by
    have h := congrArg BitVec.toNat h
    rw [hexponent, BitVec.toNat_ofNat, Nat.zero_mod] at h
    omega
  -- The first bit of the mantissa is not written.
  have hmantissa : (BitVec.ofNat 1 1 ++ BitVec.ofNat format.mantissaBitsWithoutImplicit m).toNat = m := by
    have hlt := hbounds.2
    rw [Nat.pow_succ] at hlt
    rw [toNat_one_append, BitVec.toNat_ofNat, Nat.mod_eq_sub_mod hbounds.1,
      Nat.mod_eq_of_lt (by omega)]
    omega
  have hplace : (n : Int) - (format.exponentBias + format.mantissaBitsWithoutImplicit) = e := by
    omega
  rw [hpack]
  unfold UnpackedFloat.unpack
  simp only [unpackExponent_packComponents, unpackMantissa_packComponents,
    unpackSign_packComponents, Sign.ofBitVec_toBitVec, if_neg hfinite, if_neg hnormal, hmantissa,
    hexponent, hplace]

/-! ## Rounding -/

/-- A double that holds a number of single precision is rounded to this number. -/
theorem fit_unpack_widen (bits : BitVec Format.binary32.numBits) :
    fit .binary32 (UnpackedFloat.unpack .binary64 (widen bits)) =
      UnpackedFloat.unpack .binary32 bits := by
  unfold widen
  cases hbits : UnpackedFloat.unpack .binary32 bits with
  | infinity sign => cases sign <;> rfl
  | notANumber => rfl
  | zero sign => cases sign <;> rfl
  | finite sign m e hm =>
    obtain ⟨hfits, hlog, hlow, hhigh⟩ := fits_of_unpack hbits
    obtain ⟨k, hk⟩ : ∃ k, m.log2 + k = 52 := ⟨52 - m.log2, by omega⟩
    have hwide : Fits .binary64 (m <<< k) (e - k) := by
      refine ⟨?_, ?_⟩
      · rw [Nat.shiftLeft_eq]
        exact Nat.mul_pos hm (Nat.two_pow_pos k)
      · rw [totalExponent_shiftLeft hm]
        simp only [Format.targetExponent, totalExponent, Format.minExponent, Format.mantissaBits]
        omega
    have hbiased : e - k + Format.binary64.exponentBias + (52 : Nat) =
        ((e - k + 1075).toNat : Int) := by
      simp only [Format.exponentBias]
      omega
    have hread := unpack_pack sign (n := (e - k + 1075).toNat) hwide.pos
      ((log2_shiftLeft hm k).trans hk) hbiased (by omega) (by dsimp only; omega)
    rw [fit, hwide.round hm sign, hread, fit, hfits.round_shiftLeft]

theorem narrow_widen {bits : BitVec Format.binary32.numBits} (h : Format.binary32.Valid bits) :
    narrow (widen bits) = bits := by
  rw [narrow, fit_unpack_widen, pack_unpack_of_valid h]

/-- Rounding to single precision changes nothing that was rounded before. -/
theorem round_round (x : Float) : round (round x) = round x := by
  have hbits : (round x).toBits.toBitVec = widen (narrow x.toBits.toBitVec) :=
    pack_unpack_of_valid valid_pack
  have hsame : narrow (widen (narrow x.toBits.toBitVec)) = narrow x.toBits.toBitVec :=
    narrow_widen valid_pack
  rw [round, hbits, hsame]
  rfl

end Binary32

/-- Converting changes nothing that was converted to the same type before. -/
theorem Literal.convert_convert (v : Literal) (sz : ElemSize) :
    (v.convert sz).convert sz = v.convert sz := by
  have hkept := convert_eq_self (holds_convert v sz)
  cases sz with
  | f16 | f64 => rfl
  | f32 => exact congrArg float (Binary32.round_round v.asFloat)
  | bool | i8 | i16 | i32 | i64 => exact hkept rfl

end TensorKernel
