import TensorKernel.Proofs.Eval.Faults
import TensorKernel.Proofs.Execution.Logic

/-!
# Tensors in buffers

A buffer finds its elements by index vectors, and a tensor lists them in row-major order.  What is
read and written at an index vector in range is the element at its place, because the row-major order
lists the index vectors by their places.

`Buffer.reduce_agrees` is the loop of a reduction: it reads and combines the elements one after
another, and in every step the cells of the buffer hold the numbers of the cells of the evaluation.
-/

namespace TensorKernel

namespace Buffer

open Index (InRange)

/-! ## Reading and writing -/

namespace Datum

variable {sz : ElemSize} {shape : List Nat} {data : Array Literal}

theorem cells_of_inRange {idx : List Nat} (h : InRange shape idx) {v : Literal}
    (hv : data[Index.linear shape idx]? = some v) : cells sz shape data idx = some (sz.number v) := by
  rw [cells, if_pos (Index.mem_enumerate_iff.mpr h), hv]
  rfl

/-- Writing the number of a value at an index vector writes the value at its place. -/
theorem cells_set {idx : List Nat} (h : InRange shape idx) (hsize : data.size = Index.size shape)
    (w : Literal) : (fun other => if other = idx then some (sz.number w) else cells sz shape data other) =
      cells sz shape (data.setIfInBounds (Index.linear shape idx) w) := by
  funext other
  have hlt : Index.linear shape idx < data.size := hsize ▸ h.linear_lt
  by_cases heq : other = idx
  · subst heq
    rw [if_pos rfl, cells_of_inRange h (v := w) (by simp [hlt])]
  · rw [if_neg heq, cells, cells]
    by_cases hother : other ∈ Index.enumerate shape
    · have hne : Index.linear shape idx ≠ Index.linear shape other := fun hsame =>
        heq (h.linear_inj (Index.mem_enumerate_iff.mp hother) hsame).symm
      rw [if_pos hother, if_pos hother, Array.getElem?_setIfInBounds_ne hne]
    · rw [if_neg hother, if_neg hother]

/-- A buffer that is filled with the number of a value holds the value everywhere. -/
theorem cells_replicate (w : Literal) :
    (fun idx => if idx ∈ Index.enumerate shape then some (sz.number w) else none) =
      cells sz shape (Array.replicate (Index.size shape) w) := by
  funext idx
  by_cases h : idx ∈ Index.enumerate shape
  · have hlt := (Index.mem_enumerate_iff.mp h).linear_lt
    rw [if_pos h, cells_of_inRange (Index.mem_enumerate_iff.mp h) (v := w) (by simp [hlt])]
  · rw [if_neg h, cells, if_neg h]

end Datum

namespace Store

variable {M : Store} {n : Name} {d d' : Datum}

theorem set_set (M : Store) (n : Name) (d d' : Datum) : (M.set n d).set n d' = M.set n d' := by
  funext key
  by_cases h : key = n.key
  · rw [h, set_self, set_self]
  · rw [set_of_ne h, set_of_ne h, set_of_ne h]

theorem buffer?_ofTensor {sz : ElemSize} {shape : List Nat} {data : Array Literal}
    (h : M n.key = some (.ofTensor sz shape data)) :
    M.buffer? n = some (shape, Datum.cells sz shape data) := by
  rw [buffer?, h]
  rfl

end Store

/-! ## The loop of a reduction -/

section Loop

variable {M : Store} {srcSize dstSize : ElemSize} {src dst x acc : Name} {axes shape : List Nat}
  {data : Array Literal} {combine : Literal → Literal → Except EvalFault Literal}
  {body : Store → Option (List Datum)}

/--
Combining an element with a cell gives a value, and the body of the reduction ends with the number
of the value, whatever the buffer of the cells holds.
-/
def Combines (M : Store) (srcSize dstSize : ElemSize) (dst x acc : Name)
    (combine : Literal → Literal → Except EvalFault Literal) (body : Store → Option (List Datum)) :
    Prop :=
  ∀ v cell, srcSize.Holds v → dstSize.Holds cell → ∃ w, combine v cell = .ok w ∧ dstSize.Holds w ∧
    ∀ d, body (((M.set dst d).set x (.number (srcSize.number v))).set acc
      (.number (dstSize.number cell))) = some [.number (dstSize.number w)]

variable (hcombines : Combines M srcSize dstSize dst x acc combine body)
  (hsrc : M src.key = some (.ofTensor srcSize shape data)) (hne : src.key ≠ dst.key)
  (hholds : ∀ v ∈ data, srcSize.Holds v)
  (hfits : Index.size (Graph.withoutAxes axes shape) < Word.count)
include hcombines hsrc hne hholds

/-- One step combines an element with its cell. -/
theorem reduceElement_agrees {idx : List Nat} (hidx : InRange shape idx)
    (hlt : Index.linear shape idx < data.size) {cells : Array Literal}
    (hcells : cells.size = Index.size (Graph.withoutAxes axes shape))
    (hcellHolds : ∀ c ∈ cells, dstSize.Holds c) :
    let out := Graph.withoutAxes axes shape
    let j := Index.linear out (Graph.withoutAxes axes idx)
    ∃ cell w, cells[j]? = some cell ∧ combine data[Index.linear shape idx] cell = .ok w ∧
      dstSize.Holds w ∧ reduceElement body src dst x acc axes (M.set dst (.ofTensor dstSize out cells))
        idx = some (M.set dst (.ofTensor dstSize out (cells.setIfInBounds j w))) := by
  intro out j
  have hout : InRange out (Graph.withoutAxes axes idx) := forall₂_withoutAxes axes hidx
  have hj : j < cells.size := hcells ▸ hout.linear_lt
  obtain ⟨w, hw, hwHolds, hbody⟩ := hcombines _ _ (hholds _ (Array.getElem_mem hlt))
    (hcellHolds _ (Array.getElem_mem hj))
  refine ⟨cells[j], w, Array.getElem?_eq_getElem hj, hw, hwHolds, ?_⟩
  have hread : (M.set dst (.ofTensor dstSize out cells)).load? src idx =
      some (srcSize.number data[Index.linear shape idx]) := by
    rw [Store.load?, Store.buffer?_ofTensor ((Store.set_of_ne hne).trans hsrc)]
    exact Datum.cells_of_inRange hidx (Array.getElem?_eq_getElem hlt)
  have hcell : (M.set dst (.ofTensor dstSize out cells)).load? dst (Graph.withoutAxes axes idx) =
      some (dstSize.number cells[j]) := by
    rw [Store.load?, Store.buffer?_ofTensor (Store.set_self M dst _)]
    exact Datum.cells_of_inRange hout (Array.getElem?_eq_getElem hj)
  simp only [reduceElement, hread, hcell, Option.bind_eq_bind, Option.bind_some, hbody]
  rw [Store.store?, Store.buffer?_ofTensor (Store.set_self M dst _)]
  simp only [Option.bind_eq_bind, Option.bind_some, Index.mem_enumerate_iff.mpr hout, if_true]
  rw [Store.set_set]
  exact congrArg (fun c => some (M.set dst (.buffer out c))) (Datum.cells_set hout hcells w)

include hfits

/-- The loop over the index vectors from some place on does what evaluation does from there on. -/
theorem reduce_agrees {idxs : List (List Nat)} : ∀ {i : Nat} {cells : Array Literal},
    (∀ idx ∈ idxs, InRange shape idx) →
    idxs.map (Index.linear shape) = List.range' i idxs.length → i + idxs.length ≤ data.size →
    cells.size = Index.size (Graph.withoutAxes axes shape) → (∀ c ∈ cells, dstSize.Holds c) →
    ∃ result, Meaning.fold combine axes (Graph.withoutAxes axes shape) data idxs i cells =
        .ok result ∧
      result.size = Index.size (Graph.withoutAxes axes shape) ∧
      (∀ c ∈ result, dstSize.Holds c) ∧
      idxs.foldlM (reduceElement body src dst x acc axes)
        (M.set dst (.ofTensor dstSize (Graph.withoutAxes axes shape) cells)) =
          some (M.set dst (.ofTensor dstSize (Graph.withoutAxes axes shape) result)) := by
  -- The buffer holds the cells so far, before and after each step; the step lemma changes both.
  induction idxs with
  | nil => exact fun _ _ _ hsize hcellHolds => ⟨_, rfl, hsize, hcellHolds, rfl⟩
  | cons idx idxs ih =>
    intro i cells hrange hplaces hcount hsize hcellHolds
    rw [List.length_cons] at hcount
    obtain ⟨hidx, hrest⟩ := List.forall_mem_cons.mp hrange
    obtain ⟨hplace, hplaces⟩ := List.cons_eq_cons.mp hplaces
    have hlt : Index.linear shape idx < data.size := by omega
    obtain ⟨cell, w, hcell, hw, hwHolds, hstep⟩ :=
      reduceElement_agrees hcombines hsrc hne hholds hidx hlt hsize hcellHolds
    have hout : InRange (Graph.withoutAxes axes shape) (Graph.withoutAxes axes idx) :=
      forall₂_withoutAxes axes hidx
    have hword : Index.place (Graph.withoutAxes axes shape) (Graph.withoutAxes axes idx) =
        Index.linear (Graph.withoutAxes axes shape) (Graph.withoutAxes axes idx) :=
      Word.wrap_of_lt (hout.linear_lt.trans hfits)
    obtain ⟨result, hfold, hresult, hresultHolds, hloop⟩ := ih hrest hplaces
      (show i + 1 + idxs.length ≤ data.size by omega) ((Array.size_setIfInBounds ..).trans hsize)
      (fun c hc => (Array.mem_or_eq_of_mem_setIfInBounds hc).elim (hcellHolds c) fun h => h ▸ hwHolds)
    refine ⟨result, ?_, hresult, hresultHolds, ?_⟩
    · have helement : Meaning.element data i = .ok data[Index.linear shape idx] := by
        rw [Meaning.element, ← hplace, Array.getElem?_eq_getElem hlt]
      have hcellElement : Meaning.element cells (Index.linear (Graph.withoutAxes axes shape)
          (Graph.withoutAxes axes idx)) = .ok cell := by
        rw [Meaning.element, hcell]
      rw [Meaning.fold, hword]
      exact bind_of_ok helement (bind_of_ok hcellElement (bind_of_ok hw hfold))
    · rw [List.foldlM_cons, hstep]
      exact hloop

/-- The loop over all elements of a buffer does what evaluation does with the tensor. -/
theorem reduce_tensor_agrees (hexact : data.size = Index.size shape) {start : Literal}
    (hstart : dstSize.Holds start) :
    ∃ result, Meaning.fold combine axes (Graph.withoutAxes axes shape) data (Index.rowMajor shape) 0
        (Array.replicate (Index.count (Graph.withoutAxes axes shape)) start) = .ok result ∧
      result.size = Index.size (Graph.withoutAxes axes shape) ∧
      (∀ c ∈ result, dstSize.Holds c) ∧
      (Index.enumerate shape).foldlM (reduceElement body src dst x acc axes)
        (M.set dst (.ofTensor dstSize (Graph.withoutAxes axes shape)
          (Array.replicate (Index.size (Graph.withoutAxes axes shape)) start))) =
          some (M.set dst (.ofTensor dstSize (Graph.withoutAxes axes shape) result)) := by
  have hlength := Index.length_enumerate shape
  rw [Index.rowMajor_eq_enumerate, Index.count, Word.wrap_of_lt hfits]
  refine reduce_agrees hcombines hsrc hne hholds hfits (fun idx h => Index.inRange_of_mem_enumerate h)
    ?_ (by omega) Array.size_replicate fun c hc => ?_
  · rw [Index.map_linear_enumerate, hlength, List.range_eq_range']
  · rw [(Array.mem_replicate.mp hc).2]
    exact hstart

end Loop

end Buffer

end TensorKernel
