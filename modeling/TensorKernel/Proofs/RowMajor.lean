import Mathlib.Data.Set.Function
import TensorKernel.Build.Registry
import TensorKernel.Proofs.Eval.Index
import TensorKernel.Proofs.Eval.Memory

/-!
# The row-major order numbers the index vectors

Evaluation fills in the elements of a tensor in the order of `Index.rowMajor`, and reads them by
`Index.place`.  The main statement says how the two fit together, for shapes of any rank, also without
axes and with empty ones: the order lists every index vector in range once, the number of an index
vector is its place in the order, and what was filled in for it is found there.

The exact numbers `Index.linear` are right for every shape.  The words that evaluation computes are
right exactly if there are no more index vectors than words.  In a larger shape two index vectors share
a place, and evaluation reads one element for both.
-/

namespace TensorKernel

namespace Index

variable {shape idx : List Nat} {k : Nat}

/-! ## The order -/

/-- No index vector is listed twice. -/
theorem nodup_rowMajor (shape : List Nat) : (rowMajor shape).Nodup := by
  refine List.Nodup.of_map (linear shape) ?_
  rw [rowMajor_eq_enumerate, map_linear_enumerate]
  exact List.nodup_range

/-- The index vector at a place of the order is the one in range with this number. -/
theorem getElem?_rowMajor_iff :
    (rowMajor shape)[k]? = some idx ↔ InRange shape idx ∧ linear shape idx = k := by
  rw [rowMajor_eq_enumerate]
  constructor
  · intro h
    obtain ⟨hk, rfl⟩ := List.getElem?_eq_some_iff.mp h
    exact ⟨inRange_of_mem_enumerate (List.getElem_mem hk), linear_getElem_enumerate hk⟩
  · rintro ⟨hidx, rfl⟩
    exact hidx.getElem?_enumerate

/-- Every number below the size is that of an index vector. -/
theorem exists_linear_eq (hk : k < size shape) : ∃ idx, InRange shape idx ∧ linear shape idx = k := by
  have hlt : k < (rowMajor shape).length := length_rowMajor shape ▸ hk
  exact ⟨_, getElem?_rowMajor_iff.mp (List.getElem?_eq_getElem hlt)⟩

/-! ## Numberings -/

/-- A way of numbering index vectors that fits the row-major order of a shape. -/
structure Numbering (number : List Nat → Nat) (shape : List Nat) : Prop where
  /-- An index vector is listed at its number. -/
  entry : ∀ k idx, (rowMajor shape)[k]? = some idx → number idx = k
  /-- Each number below the size belongs to one index vector in range. -/
  bijOn : Set.BijOn number {idx | InRange shape idx} (Set.Iio (size shape))
  /-- In a list that was filled in the order, what belongs to an index vector is at its number. -/
  found : ∀ {α : Type} {R : List Nat → α → Prop} {data : List α},
    List.Forall₂ R (rowMajor shape) data → ∀ idx, InRange shape idx →
      ∃ a, data[number idx]? = some a ∧ R idx a

/-- Only the numbers of index vectors in range matter. -/
theorem Numbering.congr {number other : List Nat → Nat} (h : Numbering number shape)
    (heq : ∀ idx, InRange shape idx → number idx = other idx) : Numbering other shape where
  entry k idx hk := heq idx (getElem?_rowMajor_iff.mp hk).1 ▸ h.entry k idx hk
  bijOn := h.bijOn.congr heq
  found hdata idx hidx := heq idx hidx ▸ h.found hdata idx hidx

theorem numbering_linear (shape : List Nat) : Numbering (linear shape) shape where
  entry _ _ hk := (getElem?_rowMajor_iff.mp hk).2
  bijOn := ⟨fun _ hidx => InRange.linear_lt hidx, fun _ hidx _ hother => InRange.linear_inj hidx hother,
    fun _ hk => exists_linear_eq hk⟩
  found hdata _ hidx := hidx.exists_getElem? (rowMajor_eq_enumerate shape ▸ hdata)

/-- If no two index vectors share a place then there are no more of them than words. -/
theorem size_le_of_injOn_place (h : Set.InjOn (place shape) {idx | InRange shape idx}) :
    size shape ≤ Word.count := by
  by_contra hlarge
  have hcount : Word.count < size shape := Nat.lt_of_not_le hlarge
  -- A word keeps nothing of the number of words, so the index vector with this number collides.
  obtain ⟨first, hfirst, hzero⟩ := exists_linear_eq (Nat.zero_lt_of_lt hcount)
  obtain ⟨far, hfar, hwrapped⟩ := exists_linear_eq hcount
  have hplace : place shape first = place shape far := by
    rw [place, place, hzero, hwrapped]
    rfl
  obtain rfl := h hfirst hfar hplace
  exact absurd (hzero.symm.trans hwrapped) (by decide)

theorem numbering_place_iff : Numbering (place shape) shape ↔ size shape ≤ Word.count := by
  refine ⟨fun h => size_le_of_injOn_place h.bijOn.injOn, fun hfits => ?_⟩
  -- A number below the size is then kept by a word, so the exact numbering is the one that is computed.
  refine (numbering_linear shape).congr fun idx hidx => ?_
  exact (Word.wrap_of_lt (hidx.linear_lt.trans_le hfits)).symm

example : rowMajor [] = [[]] ∧ rowMajor [2, 0] = [] ∧
    rowMajor [2, 3] = [[0, 0], [0, 1], [0, 2], [1, 0], [1, 1], [1, 2]] := by decide

end Index

/-! ## Rows of elements -/

namespace Evaluator

variable {ctx : EvalContext} {need : NodeId → EvalM Value} {rule : Body}
  {inputs : List (NodeId × List Nat × Array Literal)}

/-- A body has computed a row from the elements of its operands that belong to an index vector. -/
def Computed (ctx : EvalContext) (need : NodeId → EvalM Value) (rule : Body)
    (inputs : List (NodeId × List Nat × Array Literal)) (idx : List Nat) (row : List Literal) : Prop :=
  ∃ placeholders before between after, run (elements idx inputs) before = (.ok placeholders, between) ∧
    run (body ctx need rule placeholders) between = (.ok row, after)

/-- The rows are collected in the order of the index vectors, one for each. -/
theorem forall₂_of_elementwiseRows {vectors : List (List Nat)} :
    ∀ {rows : List (List Literal)} {s s' : List EvalScope},
      run (elementwiseRows ctx need rule inputs vectors) s = (.ok rows, s') →
        List.Forall₂ (Computed ctx need rule inputs) vectors rows := by
  induction vectors with
  | nil =>
    intro rows s s' h
    obtain rfl := Except.ok.inj (congrArg Prod.fst h)
    exact .nil
  | cons idx vectors ih =>
    intro rows s s' h
    -- Each row is computed in the scopes that the rows before it have left.
    obtain ⟨placeholders, s₁, helements, h⟩ := exists_of_run_bind h
    obtain ⟨row, s₂, hrow, h⟩ := exists_of_run_bind h
    obtain ⟨rest, s₃, hrest, h⟩ := exists_of_run_bind h
    obtain rfl := Except.ok.inj (congrArg Prod.fst h)
    exact .cons ⟨placeholders, s, s₁, s₂, helements, hrow⟩ (ih hrest)

/-- The row of an index vector is collected at the place by which the vector reads a tensor. -/
theorem exists_row_of_elementwiseRows {shape : List Nat} (hfits : Index.size shape ≤ Word.count)
    {rows : List (List Literal)} {s s' : List EvalScope}
    (h : run (elementwiseRows ctx need rule inputs (Index.rowMajor shape)) s = (.ok rows, s'))
    {idx : List Nat} (hidx : Index.InRange shape idx) :
    ∃ row, rows[Index.place shape idx]? = some row ∧ Computed ctx need rule inputs idx row :=
  (Index.numbering_place_iff.mpr hfits).found (forall₂_of_elementwiseRows h) idx hidx

end Evaluator

/-! ## Places that are shared -/

/-- A kernel that writes the first element of a matrix and returns the one at given indices. -/
def firstWritten : FunctionDef :=
  let name (id : String) : Expr := .name id .nowhere
  let element (i j : Expr) : Expr := .subscript (name "y") (.tuple [i, j] .nowhere) .nowhere
  ⟨"f", [⟨"x", some (.subscript (name "int64") (.tuple [name "M", name "N"] .nowhere) .nowhere),
      .nowhere⟩, ⟨"i", some (name "int64"), .nowhere⟩, ⟨"j", some (name "int64"), .nowhere⟩], .missing,
    [.assign (name "y") (name "x") .nowhere,
      .assign (element (.int 0 .nowhere) (.int 0 .nowhere)) (.int 9 .nowhere) .nowhere,
      .returns (some (element (name "i") (name "j"))) .nowhere], .nowhere⟩

end TensorKernel
