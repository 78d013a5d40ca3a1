import Mathlib.Algebra.Group.Int.Defs
import Mathlib.Algebra.Group.Nat.Defs
import TensorKernel.Literal.Arithmetic
import TensorKernel.Proofs.Except
import TensorKernel.Word

/-!
# The values of types

`ElemSize.Holds` says which literals a type has.  Converting brings every literal into the type and
changes none that was there before, except that single precision rounds.
-/

namespace TensorKernel

/-- The literals that represent the values of a type. -/
def ElemSize.Holds (sz : ElemSize) : Literal → Prop
  | .bool _ => sz = .bool
  | .int v => sz.isSignedInteger = true ∧ sz.minInt ≤ v.toInt ∧ v.toInt ≤ sz.maxInt
  | .float _ => sz.isFloatingPoint = true

namespace ElemSize

/-- No integer type is a floating-point type. -/
theorem isFloatingPoint_of_isSignedInteger {sz : ElemSize} (h : sz.isSignedInteger = true) :
    sz.isFloatingPoint = false := by
  cases sz <;> first | rfl | cases h

theorem isSignedInteger_of_ofInt? {n : Int} {sz : ElemSize} (h : ofInt? n = some sz) :
    sz.isSignedInteger = true := by
  have hmem := List.mem_of_find?_eq_some h
  simp only [List.mem_cons, List.not_mem_nil, or_false] at hmem
  rcases hmem with rfl | rfl | rfl | rfl <;> rfl

/-- A number that some type contains is one of 64 bits. -/
theorem toInt_of_ofInt? {n : Int} {sz : ElemSize} (h : ofInt? n = some sz) :
    (Int64.ofInt n).toInt = n := by
  have hsigned := isSignedInteger_of_ofInt? h
  have hfound := List.find?_some h
  rw [Bool.and_eq_true, decide_eq_true_eq, decide_eq_true_eq] at hfound
  obtain ⟨hlow, hhigh⟩ := hfound
  rw [Int64.toInt_ofInt]
  cases sz <;>
    simp only [isSignedInteger, Bool.false_eq_true] at hsigned <;>
    simp only [minInt, maxInt] at hlow hhigh <;>
    apply Int.bmod_eq_of_le <;> simp only [Int64.size] <;> omega

/-- The narrowest type that contains a number holds it. -/
theorem holds_of_ofInt? {n : Int} {sz : ElemSize} (h : ofInt? n = some sz) :
    sz.Holds (.int (Int64.ofInt n)) := by
  have hfound := List.find?_some h
  rw [Bool.and_eq_true, decide_eq_true_eq, decide_eq_true_eq] at hfound
  refine ⟨isSignedInteger_of_ofInt? h, ?_, ?_⟩
  · rw [toInt_of_ofInt? h]
    exact hfound.1
  · rw [toInt_of_ofInt? h]
    exact hfound.2

end ElemSize

/-- A word and a 64-bit integer keep the same of an integer. -/
theorem Word.ofNat_ofInt (n : Int) : Int64.ofNat (ofInt n) = Int64.ofInt n := by
  have hnonneg : 0 ≤ n % 18446744073709551616 := Int.emod_nonneg _ (by decide)
  have hbmod := Int.emod_bmod n Int64.size
  apply Int64.toInt_inj.mp
  rw [ofInt, Int64.toInt_ofNat', Int.toNat_of_nonneg hnonneg, Int64.toInt_ofInt]
  exact hbmod

namespace Literal

/-- Half of the values of an integer type are negative. -/
theorem two_pow_eq {width : Nat} (h : 0 < width) : (2 : Int) ^ width = 2 * 2 ^ (width - 1) := by
  obtain ⟨k, rfl⟩ := Nat.exists_eq_add_of_le' h
  rw [Nat.add_sub_cancel, Int.pow_succ, Int.mul_comm]

/-- The range of the low bits of an integer. -/
theorem bmod_bounds {width : Nat} (h : 0 < width) (n : Int) :
    -(2 ^ (width - 1) : Int) ≤ n.bmod (2 ^ width) ∧ n.bmod (2 ^ width) < 2 ^ (width - 1) := by
  have hlow := Int.le_bmod (x := n) (m := 2 ^ width) (Nat.two_pow_pos width)
  have hhigh := Int.bmod_lt (x := n) (m := 2 ^ width) (Nat.two_pow_pos width)
  have htwo := two_pow_eq h
  push_cast at hlow hhigh
  constructor <;> omega

/-- Keeping some of the 64 bits of an integer. -/
theorem toInt_wrap {width : Nat} (hpos : 0 < width) (hle : width ≤ 64) (v : Int64) :
    (wrap width v).toInt = v.toInt.bmod (2 ^ width) := by
  obtain ⟨hlow, hhigh⟩ := bmod_bounds hpos v.toInt
  have hpow : (2 : Int) ^ (width - 1) ≤ 2 ^ 63 := by
    have hnat : 2 ^ (width - 1) ≤ 2 ^ 63 := Nat.pow_le_pow_right (by decide) (by omega)
    exact_mod_cast hnat
  have hsize : (Int64.size : Int) = 2 * 2 ^ 63 := by decide
  show (Int64.ofInt (v.toInt.bmod (2 ^ width))).toInt = _
  rw [Int64.toInt_ofInt]
  apply Int.bmod_eq_of_le <;> omega

/-- The range of what is kept. -/
theorem wrap_bounds {width : Nat} (hpos : 0 < width) (hle : width ≤ 64) (v : Int64) :
    -(2 ^ (width - 1) : Int) ≤ (wrap width v).toInt ∧
      (wrap width v).toInt < (2 ^ (width - 1) : Int) := by
  rw [toInt_wrap hpos hle]
  exact bmod_bounds hpos v.toInt

/-- An integer that fits is kept as it is. -/
theorem wrap_eq_self {width : Nat} (hpos : 0 < width) (hle : width ≤ 64) {v : Int64}
    (hlow : -(2 ^ (width - 1) : Int) ≤ v.toInt) (hhigh : v.toInt < (2 ^ (width - 1) : Int)) :
    wrap width v = v := by
  have htwo := two_pow_eq hpos
  apply Int64.toInt_inj.mp
  rw [toInt_wrap hpos hle]
  apply Int.bmod_eq_of_le <;> push_cast <;> omega

/-- The range of 64 bits. -/
theorem toInt_bounds (v : Int64) :
    -9223372036854775808 ≤ v.toInt ∧ v.toInt ≤ 9223372036854775807 := by
  have hlow := Int64.le_toInt v
  have hhigh := Int64.toInt_lt v
  constructor <;> omega

/-- A converted value is one of the type. -/
theorem holds_convert (v : Literal) (sz : ElemSize) : sz.Holds (v.convert sz) := by
  have h8 := wrap_bounds (show 0 < 8 by decide) (by decide) v.asInt
  have h16 := wrap_bounds (show 0 < 16 by decide) (by decide) v.asInt
  have h32 := wrap_bounds (show 0 < 32 by decide) (by decide) v.asInt
  have h64 := toInt_bounds v.asInt
  cases sz <;>
    simp only [convert, ElemSize.Holds, ElemSize.isSignedInteger, ElemSize.isFloatingPoint,
      ElemSize.minInt, ElemSize.maxInt, true_and] <;>
    omega

/-- Converting changes no boolean and no integer that is in its type. -/
theorem convert_eq_self {v : Literal} {sz : ElemSize} (h : sz.Holds v)
    (hsz : sz.isFloatingPoint = false) : v.convert sz = v := by
  cases v with
  | bool b =>
    obtain rfl := (show sz = .bool from h)
    rfl
  | int v =>
    obtain ⟨hsigned, hlow, hhigh⟩ := h
    have keep : ∀ {width : Nat}, 0 < width → width ≤ 64 → -(2 ^ (width - 1) : Int) ≤ v.toInt →
        v.toInt < (2 ^ (width - 1) : Int) → int (wrap width v) = int v :=
      fun hpos hle hlow hhigh => congrArg int (wrap_eq_self hpos hle hlow hhigh)
    cases sz <;> simp only [ElemSize.isSignedInteger, Bool.false_eq_true] at hsigned <;>
      simp only [ElemSize.minInt, ElemSize.maxInt] at hlow hhigh
    · exact keep (show 0 < 8 by decide) (by decide) (by omega) (by omega)
    · exact keep (show 0 < 16 by decide) (by decide) (by omega) (by omega)
    · exact keep (show 0 < 32 by decide) (by decide) (by omega) (by omega)
    · rfl
  | float v =>
    rw [show sz.isFloatingPoint = true from h] at hsz
    cases hsz

/-- An integer of a type is in it, however it is represented otherwise. -/
theorem holds_asInt {v : Literal} {sz : ElemSize} (h : sz.Holds v)
    (hsz : sz.isSignedInteger = true) : v = .int v.asInt := by
  cases v with
  | bool b =>
    obtain rfl := (show sz = .bool from h)
    cases hsz
  | int v => rfl
  | float v => cases sz <;> simp_all [ElemSize.Holds, ElemSize.isSignedInteger,
      ElemSize.isFloatingPoint]

/-- Converting to an integer type looks at a literal as an integer. -/
theorem convert_asInt (v : Literal) {sz : ElemSize} (hsz : sz.isSignedInteger = true) :
    v.convert sz = (int v.asInt).convert sz := by
  cases sz <;> first | rfl | cases hsz

/-! ## Results of operators -/

/-- The result of a unary operator is converted to its type. -/
theorem exists_convert_of_unary {op : UnOp} {v w : Literal} {sz : ElemSize}
    (h : v.unary op sz = .ok w) : ∃ u : Literal, w = u.convert sz := by
  unfold unary at h
  split at h
  all_goals cases h
  all_goals exact ⟨_, rfl⟩

/-- The result of a binary operator is converted to its type; comparisons need that of booleans. -/
theorem exists_convert_of_binary {op : BinOp} {l r w : Literal} {sz : ElemSize}
    (h : l.binary op r sz = .ok w) (hsz : (op.isComparison || op.isBoolean) = true → sz = .bool) :
    ∃ u : Literal, w = u.convert sz := by
  unfold binary at h
  split at h
  · next hcomparison =>
    obtain rfl := hsz (by rw [hcomparison]; rfl)
    obtain rfl := Except.ok.inj h
    exact ⟨bool _, rfl⟩
  · split at h
    · next hboolean =>
      obtain rfl := hsz (by rw [hboolean, Bool.or_true])
      obtain rfl := Except.ok.inj h
      exact ⟨bool _, rfl⟩
    · split at h
      · obtain ⟨v, -, h⟩ := exists_of_map_ok h
        exact ⟨_, h.symm⟩
      · obtain ⟨v, -, h⟩ := exists_of_map_ok h
        exact ⟨_, h.symm⟩

/-- The result of a unary operator is in its type. -/
theorem holds_unary {op : UnOp} {v w : Literal} {sz : ElemSize} (h : v.unary op sz = .ok w) :
    sz.Holds w := by
  obtain ⟨u, rfl⟩ := exists_convert_of_unary h
  exact holds_convert u sz

/-- The result of a binary operator is in its type. -/
theorem holds_binary {op : BinOp} {l r w : Literal} {sz : ElemSize} (h : l.binary op r sz = .ok w)
    (hsz : (op.isComparison || op.isBoolean) = true → sz = .bool) : sz.Holds w := by
  obtain ⟨u, rfl⟩ := exists_convert_of_binary h hsz
  exact holds_convert u sz

end Literal

end TensorKernel
