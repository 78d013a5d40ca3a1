import TensorKernel.Lower.Operator
import TensorKernel.Proofs.Broadcast
import TensorKernel.Proofs.Eval.Index
import TensorKernel.Proofs.Graph.Operators

/-!
# The affine maps of elementwise operations

A generic operation reads its operands through affine maps, which are made from dimensions while
their sizes are unknown.  Evaluation knows the sizes and maps index vectors by `Index.broadcast`.
The two decide differently which axes have a single element: an affine map reads the first element
only where the operand has the constant one and the iteration space has not, evaluation wherever the
size is one.  A symbol that happens to be one makes no difference, because it is only paired with
itself or with a one, so that the index along its axis is zero anyway.

Sizes are those that evaluation gives to dimensions: a constant keeps its word (`Dim.constSize`).
-/

namespace TensorKernel

namespace Buffer

/-- The index along one axis of an operand. -/
def AffineExpr.index? (idx : List Nat) : AffineExpr → Option Nat
  | axis i => idx[i]?
  | zero => some 0

/-- The index vector of an operand.  The map takes index vectors of its rank only. -/
def AffineMap.index? (map : AffineMap) (idx : List Nat) : Option (List Nat) :=
  if idx.length = map.rank then map.results.mapM (AffineExpr.index? idx) else none

end Buffer

open Buffer (AffineExpr AffineMap)
open Index (InRange FitsAlong)

/-- The size of a dimension in a run. -/
def Dim.resolve (sizes : Sizes) : Dim → Nat
  | const n => constSize n
  | sym name => sizes.symbol name
  | node id => sizes.node id

/-- The sizes of a shape in a run. -/
def Shape.resolve (sizes : Sizes) (shape : Shape) : List Nat :=
  shape.map (Dim.resolve sizes)

@[simp]
theorem Dim.resolve_const_one (sizes : Sizes) : (const 1).resolve sizes = 1 := by
  simp [resolve, constSize, Word.ofInt]

@[simp]
theorem Shape.length_resolve (sizes : Sizes) (shape : Shape) :
    (shape.resolve sizes).length = shape.length := by
  simp [resolve]

/-! ## Broadcasting along aligned axes -/

namespace Shape

variable {sizes : Sizes}

/-- Dimensions that can be read along others have sizes that can. -/
theorem fitsAlong_resolve {operand space : Shape}
    (h : List.Forall₂ (fun d e => d = e ∨ d.isOne = true) operand space) :
    FitsAlong (operand.resolve sizes) (space.resolve sizes) := by
  induction h with
  | nil => exact .nil
  | @cons d e _ _ hd _ ih =>
    refine .cons ?_ ih
    rcases hd with rfl | hone
    · exact Or.inl rfl
    · obtain rfl := Dim.isOne_iff.mp hone
      exact Or.inr (Dim.resolve_const_one sizes)

/--
The results of a map read the axes one after another as broadcasting does.  `idx` is the whole index
vector, whose part from `axis` on belongs to the dimensions that are left.
-/
theorem mapM_affineResults {operand space : Shape}
    (h : List.Forall₂ (fun d e => d = e ∨ d.isOne = true) operand space) (idx : List Nat) :
    ∀ axis, InRange (space.resolve sizes) (idx.drop axis) →
      (affineResults axis operand space).mapM (AffineExpr.index? idx) =
        some (((operand.resolve sizes).zip (idx.drop axis)).map fun entry =>
          if entry.1 = 1 then 0 else entry.2) := by
  induction h with
  | nil =>
    intro axis _
    rfl
  | @cons d e operand space hd _ ih =>
    intro axis hidx
    obtain ⟨i, rest, hi, hrest, hdrop⟩ := List.forall₂_cons_left_iff.mp hidx
    have hget : idx[axis]? = some i := by
      have hhead : (idx.drop axis)[0]? = idx[axis]? := List.getElem?_drop
      rw [← hhead, hdrop]
      rfl
    have htail : idx.drop (axis + 1) = rest := by
      rw [← List.drop_drop, hdrop, List.drop_one, List.tail_cons]
    have hindex : (if d.isOne && !e.isOne then AffineExpr.zero else .axis axis).index? idx =
        some (if d.resolve sizes = 1 then 0 else i) := by
      by_cases hsize : d.resolve sizes = 1
      · rw [if_pos hsize]
        split
        · rfl
        · next hkeeps =>
          -- The axis is kept, so its size in the iteration space is one as well.
          have hsame : d = e := by
            rcases hd with heq | hone
            · exact heq
            · have hspace : e.isOne = true := by simpa [hone] using hkeeps
              exact (Dim.isOne_iff.mp hone).trans (Dim.isOne_iff.mp hspace).symm
          have hbound : i < 1 := by rwa [← hsame, hsize] at hi
          show idx[axis]? = some 0
          rw [hget]
          congr 1
          omega
      · rw [if_neg hsize]
        split
        · next hdrops =>
          -- Only the constant one is dropped.
          have hone : d.isOne = true := by
            rw [Bool.and_eq_true] at hdrops
            exact hdrops.1
          obtain rfl := Dim.isOne_iff.mp hone
          exact absurd (Dim.resolve_const_one sizes) hsize
        · exact hget
    have hothers := ih (axis + 1) (htail.symm ▸ hrest)
    rw [affineResults, List.mapM_cons, hindex, hothers, htail, hdrop]
    rfl

/-- A shape is read at its own index vectors. -/
theorem broadcast_self {ns idx : List Nat} (h : InRange ns idx) : Index.broadcast ns idx = idx := by
  unfold Index.broadcast
  dsimp only
  rw [h.length_eq, Nat.sub_self, List.replicate_zero, List.nil_append, List.drop_zero]
  induction h with
  | nil => rfl
  | @cons n i _ _ hi _ ih =>
    simp only [List.zip_cons_cons, List.map_cons, ih]
    congr 1
    split
    · omega
    · rfl

/-! ## The maps of operands and results -/

/-- An operand that fits into an iteration space is read where evaluation reads it. -/
theorem Fits.affineMap_index? {operand space : Shape} (hfits : operand.Fits space) {idx : List Nat}
    (hidx : InRange (space.resolve sizes) idx) :
    (affineMap operand space).index? idx = some (Index.broadcast (operand.resolve sizes) idx) ∧
      InRange (operand.resolve sizes) (Index.broadcast (operand.resolve sizes) idx) := by
  obtain ⟨hle, haligned⟩ := hfits.forall₂
  have hlength : idx.length = space.length := by rw [← hidx.length_eq, length_resolve]
  have hdrop : (space.resolve sizes).drop (space.length - operand.length) =
      resolve sizes (space.drop (space.length - operand.length)) := (List.map_drop ..).symm
  constructor
  · have hrest : InRange (resolve sizes (space.drop (space.length - operand.length)))
        (idx.drop (space.length - operand.length)) := hdrop ▸ List.forall₂_drop _ hidx
    have hlead : operand.length - idx.length = 0 := by omega
    rw [AffineMap.index?, affineMap, if_pos hlength, mapM_affineResults haligned idx _ hrest,
      Index.broadcast]
    rw [length_resolve, hlead, List.replicate_zero, List.nil_append, hlength]
  · refine Index.inRange_broadcast (by simpa using hle) ?_ hidx
    rw [length_resolve, length_resolve, hdrop]
    exact fitsAlong_resolve haligned

/--
Where two shapes have a combined shape, the affine maps from it lead every index vector, whatever
the sizes of a run are, to the elements of the two operands that evaluation reads, and leave the
index vectors of the combined shape as they are.
-/
theorem affineMap_index?_eq_broadcast {l r space : Shape} (h : broadcast? l r = some space)
    (sizes : Sizes) {idx : List Nat} (hidx : InRange (space.resolve sizes) idx) :
    ((affineMap l space).index? idx = some (Index.broadcast (l.resolve sizes) idx) ∧
        InRange (l.resolve sizes) (Index.broadcast (l.resolve sizes) idx)) ∧
      ((affineMap r space).index? idx = some (Index.broadcast (r.resolve sizes) idx) ∧
        InRange (r.resolve sizes) (Index.broadcast (r.resolve sizes) idx)) ∧
      (affineMap space space).index? idx = some idx := by
  obtain ⟨hl, hr, -⟩ := broadcast?_eq_some h
  refine ⟨hl.affineMap_index? hidx, hr.affineMap_index? hidx, ?_⟩
  rw [((Fits.refl space).affineMap_index? hidx).1, broadcast_self hidx]

/-- A column of one symbol meets a row of another one that happens to have a single element. -/
theorem affineMap_index?_column_row :
    ((affineMap [.sym "M", .const 1] [.sym "M", .sym "N"]).index? [3, 0] = some [3, 0] ∧
        InRange [4, 1] [3, 0]) ∧
      ((affineMap [.sym "N"] [.sym "M", .sym "N"]).index? [3, 0] = some [0] ∧ InRange [1] [0]) ∧
      (affineMap [.sym "M", .sym "N"] [.sym "M", .sym "N"]).index? [3, 0] = some [3, 0] :=
  affineMap_index?_eq_broadcast (l := [.sym "M", .const 1]) (r := [.sym "N"]) (by decide)
    ⟨fun name => if name = "M" then 4 else 1, fun _ => 0⟩
    (.cons (by decide) (.cons (by decide) .nil))

end Shape

end TensorKernel
