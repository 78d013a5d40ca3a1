import TensorKernel.Proofs.Eval.Folding
import TensorKernel.Proofs.Graph.Reduction

/-!
# Totals are sums, products, maxima and minima

A reduction works on words, and on the numbers that the words stand for it computes a sum or a
product of 64 bits, or a maximum or minimum.  Elements are converted to the type of the cells and back,
and neither this nor the neutral element that a cell starts from shows in the result.
-/

namespace TensorKernel

/-! ## Sums, products, maxima and minima -/

/--
The sum or the product of values in 64 bits, or the greatest or the least of them.  For no values it
is the neutral element of the operator.
-/
def BinOp.Folds (op : BinOp) (sz : ElemSize) (vs : List Literal) (v : Literal) : Prop :=
  match op with
  | .add => v = .int (Int64.ofInt (vs.map fun w => w.asInt.toInt).sum)
  | .mul => v = .int (Int64.ofInt (vs.map fun w => w.asInt.toInt).prod)
  | .max => vs = [] ∧ v = sz.minValue ∨ v ∈ vs ∧ ∀ w ∈ vs, w.asInt.toInt ≤ v.asInt.toInt
  | .min => vs = [] ∧ v = sz.maxValue ∨ v ∈ vs ∧ ∀ w ∈ vs, v.asInt.toInt ≤ w.asInt.toInt
  | _ => False

namespace Literal

variable {sz : ElemSize} {v w : Literal}

/-- A value that is no float is what it is as an integer, in the representation of its type. -/
theorem convert_int_asInt (h : sz.Holds v) (hsz : sz.isFloatingPoint = false) :
    (int v.asInt).convert sz = v := by
  cases v with
  | bool b =>
    obtain rfl := (show sz = .bool from h)
    cases b <;> rfl
  | int n => exact convert_eq_self h hsz
  | float n => exact absurd (hsz.symm.trans h) (by decide)

/-- Values of one type that are the same integer are the same. -/
theorem eq_of_asInt (hv : sz.Holds v) (hw : sz.Holds w) (hsz : sz.isFloatingPoint = false)
    (h : v.asInt = w.asInt) : v = w := by
  rw [← convert_int_asInt hv hsz, ← convert_int_asInt hw hsz, h]

end Literal

namespace BinOp

theorem total_add (n : Int64) (vs : List Literal) :
    total .add n vs = n + Int64.ofInt (vs.map fun w => w.asInt.toInt).sum := by
  induction vs generalizing n with
  | nil => exact (Int64.add_zero n).symm
  | cons v vs ih =>
    rw [total_cons, ih, combine, List.map_cons, List.sum_cons, Int64.ofInt_add, Int64.ofInt_toInt,
      Int64.add_comm v.asInt n, Int64.add_assoc]

theorem total_mul (n : Int64) (vs : List Literal) :
    total .mul n vs = n * Int64.ofInt (vs.map fun w => w.asInt.toInt).prod := by
  induction vs generalizing n with
  | nil => exact (Int64.mul_one n).symm
  | cons v vs ih =>
    rw [total_cons, ih, combine, List.map_cons, List.prod_cons, Int64.ofInt_mul, Int64.ofInt_toInt,
      Int64.mul_comm v.asInt n, Int64.mul_assoc]

theorem combine_eq_or {op : BinOp} (hop : op = .max ∨ op = .min) (l r : Int64) :
    op.combine l r = l ∨ op.combine l r = r := by
  rcases hop with rfl | rfl <;> unfold combine <;> dsimp only <;> split <;> simp

/-- A maximum or a minimum is one of the values, or the word in front of them. -/
theorem total_mem {op : BinOp} (hop : op = .max ∨ op = .min) (n : Int64) (vs : List Literal) :
    op.total n vs = n ∨ ∃ w ∈ vs, w.asInt = op.total n vs := by
  induction vs generalizing n with
  | nil => exact .inl rfl
  | cons v vs ih =>
    rcases ih (op.combine v.asInt n) with hfirst | ⟨w, hw, hvalue⟩
    · rw [total_cons, hfirst]
      exact (combine_eq_or hop _ _).symm.imp_right fun h => ⟨v, List.mem_cons_self, h.symm⟩
    · exact .inr ⟨w, List.mem_cons_of_mem _ hw, hvalue⟩

theorem le_total_max (n : Int64) (vs : List Literal) : n.toInt ≤ (total .max n vs).toInt ∧
    ∀ w ∈ vs, w.asInt.toInt ≤ (total .max n vs).toInt := by
  induction vs generalizing n with
  | nil => exact ⟨Int.le_refl _, by simp⟩
  | cons v vs ih =>
    obtain ⟨hle, hall⟩ := ih (combine .max v.asInt n)
    rw [toInt_combine_max] at hle
    exact ⟨(le_max_right _ _).trans hle, List.forall_mem_cons.mpr ⟨(le_max_left _ _).trans hle, hall⟩⟩

theorem total_min_le (n : Int64) (vs : List Literal) : (total .min n vs).toInt ≤ n.toInt ∧
    ∀ w ∈ vs, (total .min n vs).toInt ≤ w.asInt.toInt := by
  induction vs generalizing n with
  | nil => exact ⟨Int.le_refl _, by simp⟩
  | cons v vs ih =>
    obtain ⟨hle, hall⟩ := ih (combine .min v.asInt n)
    rw [toInt_combine_min] at hle
    exact ⟨hle.trans (min_le_right _ _), List.forall_mem_cons.mpr ⟨hle.trans (min_le_left _ _), hall⟩⟩

/-- The neutral elements of maxima and minima are the ends of a type. -/
theorem start_bounds {sz : ElemSize} (hsz : sz.isFloatingPoint = false) {w : Literal}
    (hw : sz.Holds w) : (start .max sz).toInt ≤ w.asInt.toInt ∧
      w.asInt.toInt ≤ (start .min sz).toInt := by
  cases w with
  | bool b =>
    obtain rfl := (show sz = .bool from hw)
    cases b <;> decide
  | int n =>
    obtain ⟨hsigned, hlow, hhigh⟩ := hw
    cases sz with
    | i8 | i16 | i32 | i64 => exact ⟨hlow, hhigh⟩
    | bool | f16 | f32 | f64 => cases hsigned
  | float n => exact absurd (hsz.symm.trans hw) (by decide)

/-- A total of maxima or minima is one of the values, unless there are none. -/
theorem mem_of_total {op : BinOp} (hop : op = .max ∨ op = .min) {sz : ElemSize}
    (hsz : sz.isFloatingPoint = false) {vs : List Literal} {v : Literal} (hne : vs ≠ [])
    (hvs : ∀ w ∈ vs, sz.Holds w) (hv : sz.Holds v) (h : v.asInt = op.total (op.start sz) vs) :
    v ∈ vs := by
  obtain ⟨w, hw, hword⟩ : ∃ w ∈ vs, w.asInt = op.total (op.start sz) vs := by
    rcases total_mem hop (op.start sz) vs with hfirst | hmem
    · -- Nothing lies beyond the end of a type, so every value is at this end.
      obtain ⟨w, hw⟩ := List.exists_mem_of_ne_nil vs hne
      refine ⟨w, hw, Int64.toInt_inj.mp ?_⟩
      have hbounds := start_bounds hsz (hvs w hw)
      rcases hop with rfl | rfl
      · have hle := (le_total_max (start .max sz) vs).2 w hw
        rw [hfirst] at hle ⊢
        exact le_antisymm hle hbounds.1
      · have hle := (total_min_le (start .min sz) vs).2 w hw
        rw [hfirst] at hle ⊢
        exact le_antisymm hbounds.2 hle
    · exact hmem
  rw [Literal.eq_of_asInt hv (hvs w hw) hsz (h.trans hword.symm)]
  exact hw

/-- Sums and products of integers take 64 bits. -/
theorem accumulatorSize_eq_i64 {op : BinOp} (hop : op = .add ∨ op = .mul) {esz : ElemSize}
    (h : esz.isFloatingPoint = false) : op.accumulatorSize esz = .i64 := by
  simp [accumulatorSize, hop, h]

theorem accumulatorSize_not_float (op : BinOp) {esz : ElemSize} (h : esz.isFloatingPoint = false) :
    (op.accumulatorSize esz).isFloatingPoint = false := by
  unfold accumulatorSize
  split
  · rfl
  · exact h

theorem accumulatorSize_accumulatorSize (op : BinOp) (esz : ElemSize) :
    op.accumulatorSize (op.accumulatorSize esz) = op.accumulatorSize esz := by
  unfold accumulatorSize
  split <;> simp_all

/-- Totals of the values of a type are sums, products, maxima and minima. -/
theorem folds_of_total {op : BinOp} (hop : op = .add ∨ op = .mul ∨ op = .max ∨ op = .min)
    {esz : ElemSize} (hesz : esz.isFloatingPoint = false) {vs : List Literal}
    (hvs : ∀ w ∈ vs, esz.Holds w) {v : Literal} (hv : (op.accumulatorSize esz).Holds v)
    (h : v.asInt = op.total (op.start (op.accumulatorSize esz)) vs) :
    op.Folds (op.accumulatorSize esz) vs v := by
  have hsz := op.accumulatorSize_not_float hesz
  have hempty : vs = [] → ∀ u, op.neutralElement? (op.accumulatorSize esz) = some u → v = u := by
    rintro rfl u hu
    refine Literal.eq_of_asInt hv (holds_neutralElement hu) hsz (h.trans ?_)
    rw [total_nil, start, hu]
    rfl
  rcases hop with rfl | rfl | rfl | rfl
  · rw [accumulatorSize_eq_i64 (.inl rfl) hesz] at h hv
    rw [Folds, Literal.holds_asInt hv rfl, h, total_add]
    exact congrArg Literal.int (Int64.zero_add _)
  · rw [accumulatorSize_eq_i64 (.inr rfl) hesz] at h hv
    rw [Folds, Literal.holds_asInt hv rfl, h, total_mul]
    exact congrArg Literal.int (Int64.one_mul _)
  · by_cases hne : vs = []
    · exact .inl ⟨hne, hempty hne _ rfl⟩
    · refine .inr ⟨mem_of_total (.inl rfl) hesz hne hvs hv h, fun w hw => ?_⟩
      rw [h]
      exact (le_total_max _ vs).2 w hw
  · by_cases hne : vs = []
    · exact .inl ⟨hne, hempty hne _ rfl⟩
    · refine .inr ⟨mem_of_total (.inr rfl) hesz hne hvs hv h, fun w hw => ?_⟩
      rw [h]
      exact (total_min_le _ vs).2 w hw

end BinOp

/-! ## Combining literals -/

/-- Combining an element with a cell gives a value for the cell. -/
theorem Literal.exists_combine {op : BinOp} (hop : op = .add ∨ op = .mul ∨ op = .max ∨ op = .min)
    {esz : ElemSize} (hesz : esz.isFloatingPoint = false) {v cell : Literal} (hv : esz.Holds v)
    (hcell : (op.accumulatorSize esz).Holds cell) :
    ∃ w, v.binary op cell (op.accumulatorSize esz) = .ok w ∧ (op.accumulatorSize esz).Holds w ∧
      w.asInt = op.combine v.asInt cell.asInt := by
  have hsz := op.accumulatorSize_not_float hesz
  have hbinary : v.binary op cell (op.accumulatorSize esz) =
      .ok ((int (op.combine v.asInt cell.asInt)).convert (op.accumulatorSize esz)) := by
    rw [binary, hsz]
    rcases hop with rfl | rfl | rfl | rfl <;> rfl
  refine ⟨_, hbinary, holds_convert _ _, ?_⟩
  have hselect : op = .max ∨ op = .min → ((int (op.combine v.asInt cell.asInt)).convert
      (op.accumulatorSize esz)).asInt = op.combine v.asInt cell.asInt := by
    intro hop
    have hacc : op.accumulatorSize esz = esz := by rcases hop with rfl | rfl <;> rfl
    rw [hacc] at hcell ⊢
    rcases BinOp.combine_eq_or hop v.asInt cell.asInt with h | h <;> rw [h]
    · rw [convert_int_asInt hv hesz]
    · rw [convert_int_asInt hcell hesz]
  rcases hop with rfl | rfl | hop
  · rw [BinOp.accumulatorSize_eq_i64 (.inl rfl) hesz]
    rfl
  · rw [BinOp.accumulatorSize_eq_i64 (.inr rfl) hesz]
    rfl
  · exact hselect hop

/-! ## Results -/

/-- A value with the sums, the products, the maxima or the minima of what projects to its elements. -/
structure Value.FoldsFibers (op : BinOp) (esz : ElemSize) (axes : List Nat) (x y : Value) : Prop where
  shape : y.shape = Graph.withoutAxes axes x.shape
  scalar : y.shape = [] → ∃ v, y = .scalar v
  size : ∀ {shape data}, y = .tensor shape data → data.size = Index.size shape
  element : ∀ idx, Index.InRange y.shape idx → ∃ vs v,
    (Index.fiber axes x.shape idx).map x.get? = vs.map some ∧ y.get? idx = some v ∧
      op.Folds (op.accumulatorSize esz) vs v

theorem Value.Totals.foldsFibers {op : BinOp} (hop : op = .add ∨ op = .mul ∨ op = .max ∨ op = .min)
    {esz : ElemSize} (hesz : esz.isFloatingPoint = false) {axes : List Nat} {x y : Value}
    (h : Totals op (op.accumulatorSize esz) axes x y)
    (hx : ∀ idx, Index.InRange x.shape idx → ∃ v, x.get? idx = some v ∧ esz.Holds v) :
    FoldsFibers op esz axes x y := by
  refine ⟨h.shape, h.scalar, h.size, fun idx hidx => ?_⟩
  obtain ⟨v, hv, hholds, hword⟩ := h.element idx hidx
  have hfiber : ∀ i ∈ Index.fiber axes x.shape idx, ∃ v, x.get? i = some v ∧ esz.Holds v :=
    fun i hi => hx i (Index.inRange_of_mem_enumerate (List.mem_filter.mp hi).1)
  refine ⟨_, v, ?_, hv, BinOp.folds_of_total hop hesz (fun w hw => ?_) hholds hword⟩
  · rw [List.map_filterMap_some_eq_filter_map_isSome, List.filter_eq_self.mpr]
    intro o ho
    obtain ⟨i, hi, rfl⟩ := List.mem_map.mp ho
    obtain ⟨w, hw, -⟩ := hfiber i hi
    rw [hw]
    rfl
  · obtain ⟨i, hi, hw⟩ := List.mem_filterMap.mp hw
    obtain ⟨w', hw', hholds⟩ := hfiber i hi
    rwa [Option.some.inj (hw.symm.trans hw')]

end TensorKernel
