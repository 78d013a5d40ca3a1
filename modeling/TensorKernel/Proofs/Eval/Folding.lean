import Mathlib.Algebra.BigOperators.Group.List.Basic
import Mathlib.Data.List.Perm.Basic
import TensorKernel.Numeric.Reduction
import TensorKernel.Proofs.Eval.Index
import TensorKernel.Proofs.Eval.Picks

/-!
# What reductions fold

A reduction goes through the elements of a tensor in row-major order, and combines each of them with
the cell that its index vector projects to.  The index vectors that project to one cell are its fiber.
`Meaning.exists_fold_total` says that every cell ends up with the total of the elements of its fiber,
and of no others.

Totals are taken on words of 64 bits, in which all reductions of integers are computed.  There an
operator is commutative and associative, so that it does not matter in which order the elements come
(`BinOp.total_perm`), nor whether totals of parts are combined first (`BinOp.total_flatMap`).
-/

namespace TensorKernel

/-! ## Operators on words -/

/-- What the operators of reductions make of two words.  Other operators fold nothing. -/
def BinOp.combine : BinOp → Int64 → Int64 → Int64
  | .add, l, r => l + r
  | .mul, l, r => l * r
  | .max, l, r => if l ≤ r then r else l
  | .min, l, r => if l ≤ r then l else r
  | _, _, _ => 0

theorem toInt_combine_max (l r : Int64) :
    (BinOp.max.combine l r).toInt = max l.toInt r.toInt := by
  simp only [BinOp.combine, max_def, Int64.le_iff_toInt_le]
  split <;> rfl

theorem toInt_combine_min (l r : Int64) :
    (BinOp.min.combine l r).toInt = min l.toInt r.toInt := by
  simp only [BinOp.combine, min_def, Int64.le_iff_toInt_le]
  split <;> rfl

theorem BinOp.combine_comm (op : BinOp) (l r : Int64) : op.combine l r = op.combine r l := by
  cases op with
  | add => exact Int64.add_comm l r
  | mul => exact Int64.mul_comm l r
  | max => exact Int64.toInt_inj.mp (by simp only [toInt_combine_max, max_comm])
  | min => exact Int64.toInt_inj.mp (by simp only [toInt_combine_min, min_comm])
  | _ => rfl

theorem BinOp.combine_assoc (op : BinOp) (l m r : Int64) :
    op.combine (op.combine l m) r = op.combine l (op.combine m r) := by
  cases op with
  | add => exact Int64.add_assoc l m r
  | mul => exact Int64.mul_assoc l m r
  | max => exact Int64.toInt_inj.mp (by simp only [toInt_combine_max, max_assoc])
  | min => exact Int64.toInt_inj.mp (by simp only [toInt_combine_min, min_assoc])
  | _ => rfl

instance (op : BinOp) : Std.Commutative op.combine := ⟨op.combine_comm⟩

instance (op : BinOp) : Std.Associative op.combine := ⟨op.combine_assoc⟩

namespace BinOp

/-- The word that a reduction starts from. -/
def start (op : BinOp) (sz : ElemSize) : Int64 :=
  ((op.neutralElement? sz).getD (.int 0)).asInt

/-- Starting twice is starting once. -/
theorem combine_start (op : BinOp) {sz : ElemSize} (hsz : sz.isFloatingPoint = false) :
    op.combine (op.start sz) (op.start sz) = op.start sz := by
  cases op with
  | max | min => simp [combine]
  | add | mul => cases sz <;> first | rfl | cases hsz
  | _ => rfl

/-! ## Totals -/

/-- What an operator makes of values, one after another. -/
def total (op : BinOp) (first : Int64) (vs : List Literal) : Int64 :=
  vs.foldl (fun acc v => op.combine v.asInt acc) first

variable (op : BinOp)

@[simp]
theorem total_nil (first : Int64) : op.total first [] = first := rfl

@[simp]
theorem total_cons (first : Int64) (v : Literal) (vs : List Literal) :
    op.total first (v :: vs) = op.total (op.combine v.asInt first) vs := rfl

/-- What comes first can be left for the end. -/
theorem total_combine (n first : Int64) (vs : List Literal) :
    op.total (op.combine n first) vs = op.combine n (op.total first vs) := by
  induction vs generalizing first with
  | nil => rfl
  | cons v vs ih =>
    rw [total_cons, total_cons, ← ih]
    congr 1
    ac_rfl

/-- The order of the values does not matter. -/
theorem total_perm {vs ws : List Literal} (h : vs.Perm ws) (first : Int64) :
    op.total first vs = op.total first ws :=
  h.foldl_eq' (fun v _ w _ acc => by ac_rfl) first

variable {sz : ElemSize} (hsz : sz.isFloatingPoint = false)
include hsz

/-- A total starts from its first word once more. -/
theorem combine_start_total (vs : List Literal) :
    op.combine (op.start sz) (op.total (op.start sz) vs) = op.total (op.start sz) vs := by
  rw [← total_combine, combine_start op hsz]

theorem total_append (vs ws : List Literal) : op.total (op.start sz) (vs ++ ws) =
    op.combine (op.total (op.start sz) vs) (op.total (op.start sz) ws) := by
  have hsplit : op.total (op.start sz) (vs ++ ws) = op.total (op.total (op.start sz) vs) ws :=
    List.foldl_append
  rw [hsplit, ← total_combine, op.combine_comm, op.combine_start_total hsz]

/-- Combining the totals of parts gives the total. -/
theorem total_flatMap {α : Type} (parts : α → List Literal) (vs : List Literal) (xs : List α)
    (h : List.Forall₂ (fun x v => v.asInt = op.total (op.start sz) (parts x)) xs vs) :
    op.total (op.start sz) vs = op.total (op.start sz) (xs.flatMap parts) := by
  induction h with
  | nil => rfl
  | cons hhead _ ih =>
    rw [total_cons, total_combine, ih, hhead, List.flatMap_cons, op.total_append hsz]

end BinOp

/-! ## Fibers -/

/-- What is sorted by where a function takes it is all still there. -/
theorem perm_flatMap_filter {α β : Type} [DecidableEq β] (f : α → β) {ys : List β} :
    ∀ {xs : List α}, ys.Nodup → (∀ x ∈ xs, f x ∈ ys) →
      (ys.flatMap fun y => xs.filter fun x => f x = y).Perm xs := by
  induction ys with
  | nil =>
    intro xs _ h
    rw [List.eq_nil_iff_forall_not_mem.mpr fun x hx => List.not_mem_nil (h x hx)]
    exact .nil
  | cons y ys ih =>
    intro xs hnodup h
    obtain ⟨hy, hnodup⟩ := List.nodup_cons.mp hnodup
    -- What is taken somewhere else is sorted as before.
    let rest := xs.filter fun x => !decide (f x = y)
    have hrest : (ys.flatMap fun z => xs.filter fun x => f x = z) =
        ys.flatMap fun z => rest.filter fun x => f x = z := by
      refine List.flatMap_congr fun z hz => ?_
      rw [List.filter_filter]
      refine List.filter_congr fun x _ => ?_
      by_cases hxz : f x = z
      · have hzy : z ≠ y := fun hzy => hy (hzy ▸ hz)
        simp [hxz, hzy]
      · simp [hxz]
    rw [List.flatMap_cons, hrest]
    have hperm : (ys.flatMap fun z => rest.filter fun x => f x = z).Perm rest := by
      refine ih hnodup fun x hx => ?_
      obtain ⟨hx, hxy⟩ := List.mem_filter.mp hx
      exact (List.mem_cons.mp (h x hx)).resolve_left (by simpa using hxy)
    exact (hperm.append_left _).trans (List.filter_append_perm (fun x => decide (f x = y)) xs)

namespace Index

/-- The index vectors of a shape that come to the given one when axes are left out. -/
def fiber (axes shape idx : List Nat) : List (List Nat) :=
  (enumerate shape).filter fun i => Graph.withoutAxes axes i = idx

theorem nodup_enumerate (shape : List Nat) : (enumerate shape).Nodup :=
  .of_map (linear shape) (map_linear_enumerate shape ▸ List.nodup_range)

/-- Every index vector is in one fiber. -/
theorem perm_flatMap_fiber (axes shape : List Nat) :
    ((enumerate (Graph.withoutAxes axes shape)).flatMap (fiber axes shape)).Perm
      (enumerate shape) :=
  perm_flatMap_filter _ (nodup_enumerate _) fun _ hi =>
    mem_enumerate_iff.mpr (forall₂_withoutAxes axes (inRange_of_mem_enumerate hi))

end Index

/-! ## Cells -/

namespace Meaning

/--
Every cell ends up with the total of the elements that project to it.  The index vectors come in the
order of the elements, from some place on.
-/
theorem exists_fold_total {combine : Literal → Literal → Except EvalFault Literal} {op : BinOp}
    {P Q : Literal → Prop} (hcombine : ∀ v cell, Q v → P cell → ∃ w, combine v cell = .ok w ∧ P w ∧
      w.asInt = op.combine v.asInt cell.asInt) (axes out shape : List Nat) {data : Array Literal}
    (idxs : List (List Nat)) : ∀ (i : Nat) (cells : Array Literal),
      idxs.map (Index.linear shape) = List.range' i idxs.length →
      (∀ idx ∈ idxs, ∃ v, data[Index.linear shape idx]? = some v ∧ Q v) →
      (∀ idx ∈ idxs, Index.place out (Graph.withoutAxes axes idx) < cells.size) →
      (∀ cell ∈ cells, P cell) →
      ∃ result, fold combine axes out data idxs i cells = .ok result ∧ result.size = cells.size ∧
        (∀ w ∈ result, P w) ∧ ∀ j cell, cells[j]? = some cell → ∃ w, result[j]? = some w ∧
          w.asInt = op.total cell.asInt ((idxs.filter fun idx =>
            Index.place out (Graph.withoutAxes axes idx) = j).filterMap fun idx =>
              data[Index.linear shape idx]?) := by
  -- The cells may be anything so far: the total of a cell starts from what it holds.
  induction idxs with
  | nil => exact fun i cells _ _ _ hcells => ⟨cells, rfl, rfl, hcells, fun j cell hj => ⟨cell, hj, rfl⟩⟩
  | cons idx idxs ih =>
    intro i cells hplaces helements hin hcells
    obtain ⟨hi, hplaces⟩ := List.cons.inj (hplaces.trans List.range'_succ)
    obtain ⟨⟨v, hv, hQ⟩, helements⟩ := List.forall_mem_cons.mp helements
    obtain ⟨hlt, hin⟩ := List.forall_mem_cons.mp hin
    generalize hp : Index.place out (Graph.withoutAxes axes idx) = p at hlt
    obtain ⟨w, hw, hP, hword⟩ := hcombine v cells[p] hQ (hcells _ (Array.getElem_mem hlt))
    have hnext : ∀ cell ∈ cells.setIfInBounds p w, P cell := by
      intro cell hcell
      rcases Array.mem_or_eq_of_mem_setIfInBounds hcell with hcell | rfl
      · exact hcells cell hcell
      · exact hP
    obtain ⟨result, hfold, hsize, hresult, htotal⟩ := ih (i + 1) (cells.setIfInBounds p w) hplaces
      helements (by simpa using hin) hnext
    refine ⟨result, ?_, hsize.trans (Array.size_setIfInBounds ..), hresult, fun j cell hj => ?_⟩
    · have helement : element data i = .ok v := element_eq_ok.mpr (hi ▸ hv)
      have hcell : element cells p = .ok cells[p] :=
        element_eq_ok.mpr (Array.getElem?_eq_getElem hlt)
      rw [fold, hp]
      exact bind_of_ok helement (bind_of_ok hcell (bind_of_ok hw hfold))
    · rw [List.filter_cons, hp]
      by_cases hpj : p = j
      · subst hpj
        obtain rfl : cells[p] = cell := Option.some.inj ((Array.getElem?_eq_getElem hlt).symm.trans hj)
        obtain ⟨w', hw', htotal⟩ := htotal p w (Array.getElem?_setIfInBounds_self_of_lt hlt)
        refine ⟨w', hw', ?_⟩
        rw [if_pos (decide_eq_true rfl), List.filterMap_cons]
        simp only [hv]
        rw [BinOp.total_cons, htotal, hword]
      · rw [if_neg (by simpa using hpj)]
        exact htotal j cell ((Array.getElem?_setIfInBounds_ne hpj).trans hj)

end Meaning

/-! ## Values -/

/-- The element of a value at an index vector of its shape. -/
def Value.get? : Value → List Nat → Option Literal
  | .scalar v, _ => some v
  | .tensor shape data, idx => data[Index.linear shape idx]?

/-- A tensor whose elements can be counted has an element at every index vector. -/
theorem Value.exists_get? {sz : ElemSize} {shape : List Nat} {data : Array Literal}
    (hsize : Word.wrap data.size = Index.count shape) (hdata : ∀ v ∈ data, sz.Holds v)
    (hfits : Index.size shape < Word.count) {idx : List Nat} (hidx : Index.InRange shape idx) :
    ∃ v, (tensor shape data).get? idx = some v ∧ sz.Holds v := by
  have hle : Index.size shape ≤ data.size := by
    rw [Index.count, Word.wrap_of_lt hfits] at hsize
    exact hsize ▸ Nat.mod_le _ _
  have hlt := hidx.linear_lt.trans_le hle
  exact ⟨_, Array.getElem?_eq_getElem hlt, hdata _ (Array.getElem_mem hlt)⟩

/-- The elements of a value, in row-major order. -/
def Value.elements (x : Value) : List Literal :=
  (Index.enumerate x.shape).filterMap x.get?

/-- A value whose elements are the totals of those elements of another one that project to them. -/
structure Value.Totals (op : BinOp) (sz : ElemSize) (axes : List Nat) (x y : Value) : Prop where
  shape : y.shape = Graph.withoutAxes axes x.shape
  scalar : y.shape = [] → ∃ v, y = .scalar v
  size : ∀ {shape data}, y = .tensor shape data → data.size = Index.size shape
  element : ∀ idx, Index.InRange y.shape idx → ∃ v, y.get? idx = some v ∧ sz.Holds v ∧
    v.asInt = op.total (op.start sz) ((Index.fiber axes x.shape idx).filterMap x.get?)

/-- Folding some axes keeps the total of all elements. -/
theorem Value.Totals.total_eq {op : BinOp} {sz : ElemSize} {axes : List Nat} {x y : Value}
    (h : Totals op sz axes x y) (hsz : sz.isFloatingPoint = false) :
    op.total (op.start sz) y.elements = op.total (op.start sz) x.elements := by
  have hall : List.Forall₂ (fun idx v => v.asInt = op.total (op.start sz)
      ((Index.fiber axes x.shape idx).filterMap x.get?)) (Index.enumerate y.shape) y.elements := by
    have hmem : ∀ idx ∈ Index.enumerate y.shape, Index.InRange y.shape idx := fun _ =>
      Index.inRange_of_mem_enumerate
    unfold elements
    generalize Index.enumerate y.shape = idxs at hmem
    induction idxs with
    | nil => exact .nil
    | cons idx idxs ih =>
      obtain ⟨hidx, hidxs⟩ := List.forall_mem_cons.mp hmem
      obtain ⟨v, hv, -, htotal⟩ := h.element idx hidx
      rw [List.filterMap_cons]
      simp only [hv]
      exact .cons htotal (ih hidxs)
  rw [op.total_flatMap hsz _ _ _ hall]
  refine op.total_perm ?_ _
  rw [← List.filterMap_flatMap, h.shape]
  exact (Index.perm_flatMap_fiber axes x.shape).filterMap _

/-- A value without axes that holds a total holds the total of all elements. -/
theorem Value.Totals.exists_scalar {op : BinOp} {sz : ElemSize} {axes : List Nat} {x y : Value}
    (h : Totals op sz axes x y) (hsz : sz.isFloatingPoint = false) (hy : y.shape = []) :
    ∃ v, y = .scalar v ∧ sz.Holds v ∧ v.asInt = op.total (op.start sz) x.elements := by
  obtain ⟨v, rfl⟩ := h.scalar hy
  obtain ⟨w, hw, hholds, hword⟩ := h.element [] .nil
  obtain rfl := Option.some.inj hw
  refine ⟨v, rfl, hholds, ?_⟩
  -- The value is a total, to which the first word adds nothing.
  calc v.asInt = op.combine v.asInt (op.start sz) := by
        rw [hword, op.combine_comm, op.combine_start_total hsz]
    _ = op.total (op.start sz) (Value.scalar v).elements := rfl
    _ = op.total (op.start sz) x.elements := h.total_eq hsz

/-- What a reduction makes of its cells: the only one for a scalar, and all of them for a tensor. -/
theorem Meaning.reduction_of_fold {ctx : EvalContext} {val : Valuation} {axes : List Nat}
    {arg init inner dst : NodeId} {holes : List NodeId} {shape : List Nat} {data : Array Literal}
    {start : Literal}
    {cells : Array Literal} (harg : val arg = .ok (.tensor shape data))
    (hinit : val init = .ok (.scalar start))
    (hfold : fold (fun v cell => body ctx val holes inner dst [v, cell]) axes
      (Graph.withoutAxes axes shape) data (Index.rowMajor shape) 0
      (Array.replicate (Index.count (Graph.withoutAxes axes shape)) start) = .ok cells) :
    reduction ctx val axes arg init holes inner dst =
      if ctx.graph.isScalar dst then do
        let v ← element cells 0
        .ok (.scalar v)
      else .ok (.tensor (Graph.withoutAxes axes shape) cells) := by
  have htensor : tensor val arg = .ok (shape, data) := by
    rw [tensor, harg]
    rfl
  have hscalar : scalar val init = .ok start := by
    rw [scalar, hinit]
    rfl
  exact bind_of_ok htensor (bind_of_ok hscalar (bind_of_ok hfold rfl))

/-- Every cell of a result ends up with the total of the fiber of its index vector. -/
theorem Meaning.exists_cells {combine : Literal → Literal → Except EvalFault Literal} {op : BinOp}
    {esz sz : ElemSize} (hcombine : ∀ v cell, esz.Holds v → sz.Holds cell → ∃ w,
      combine v cell = .ok w ∧ sz.Holds w ∧ w.asInt = op.combine v.asInt cell.asInt)
    {axes shape out : List Nat} (hspace : Graph.withoutAxes axes shape = out) {data : Array Literal}
    {first : Literal} (hfirst : first.asInt = op.start sz) (hholds : sz.Holds first)
    (helements : ∀ idx, Index.InRange shape idx →
      ∃ v, (Value.tensor shape data).get? idx = some v ∧ esz.Holds v)
    (hout : Index.size out < Word.count) :
    ∃ cells, fold combine axes out data (Index.rowMajor shape) 0
        (Array.replicate (Index.count out) first) = .ok cells ∧ cells.size = Index.size out ∧
      ∀ idx, Index.InRange out idx → ∃ v, cells[Index.linear out idx]? = some v ∧ sz.Holds v ∧
        v.asInt = op.total (op.start sz)
          ((Index.fiber axes shape idx).filterMap (Value.tensor shape data).get?) := by
  have hcount : Index.count out = Index.size out := Word.wrap_of_lt hout
  have hrange : ∀ idx ∈ Index.rowMajor shape, Index.InRange out (Graph.withoutAxes axes idx) :=
    fun idx hidx => hspace ▸ forall₂_withoutAxes axes (Index.inRange_of_mem_rowMajor hidx)
  have hplaces : (Index.rowMajor shape).map (Index.linear shape) =
      List.range' 0 (Index.rowMajor shape).length := by
    rw [Index.rowMajor_eq_enumerate, Index.map_linear_enumerate, Index.length_enumerate,
      List.range_eq_range']
  obtain ⟨cells, hfold, hcells, hresult, htotal⟩ := exists_fold_total hcombine axes out shape
    (Index.rowMajor shape) 0 (Array.replicate (Index.count out) first) hplaces
    (fun idx hidx => helements idx (Index.inRange_of_mem_rowMajor hidx))
    (fun idx hidx => by
      rw [Array.size_replicate, hcount]
      exact (hrange idx hidx).place_lt hout)
    fun cell hcell => (Array.mem_replicate.mp hcell).2 ▸ hholds
  rw [Array.size_replicate, hcount] at hcells
  refine ⟨cells, hfold, hcells, fun idx hidx => ?_⟩
  have hreplicate : (Array.replicate (Index.count out) first)[Index.linear out idx]? =
      some first := by
    rw [hcount, Array.getElem?_replicate, if_pos hidx.linear_lt]
  obtain ⟨v, hv, hword⟩ := htotal _ _ hreplicate
  refine ⟨v, hv, hresult v (Array.mem_of_getElem? hv), ?_⟩
  -- What projects to the cell is the fiber of its index vector.
  have hfiber : ((Index.rowMajor shape).filter fun i =>
      Index.place out (Graph.withoutAxes axes i) = Index.linear out idx) =
        Index.fiber axes shape idx := by
    rw [Index.fiber, ← Index.rowMajor_eq_enumerate]
    refine List.filter_congr fun i hi => decide_eq_decide.mpr ?_
    have hplace : Index.place out (Graph.withoutAxes axes i) =
        Index.linear out (Graph.withoutAxes axes i) :=
      Word.wrap_of_lt ((hrange i hi).linear_lt.trans hout)
    rw [hplace]
    exact ⟨(hrange i hi).linear_inj hidx, fun h => by rw [h]⟩
  rw [hword, hfirst, hfiber]
  rfl

/-- A reduction of a tensor that has all its elements has a value, which holds totals. -/
theorem Meaning.exists_totals {ctx : EvalContext} {val : Valuation} {op : BinOp} {esz sz : ElemSize}
    {axes : List Nat} {arg init inner dst : NodeId} {holes : List NodeId} {shape : List Nat}
    {data : Array Literal} {first : Literal} (harg : val arg = .ok (.tensor shape data))
    (hinit : val init = .ok (.scalar first)) (hfirst : first.asInt = op.start sz)
    (hholds : sz.Holds first) (hbody : ∀ v cell, esz.Holds v → sz.Holds cell → ∃ w,
      body ctx val holes inner dst [v, cell] = .ok w ∧ sz.Holds w ∧
        w.asInt = op.combine v.asInt cell.asInt)
    (helements : ∀ idx, Index.InRange shape idx →
      ∃ v, (Value.tensor shape data).get? idx = some v ∧ esz.Holds v)
    (hout : Index.size (Graph.withoutAxes axes shape) < Word.count)
    (hscalar : ctx.graph.isScalar dst = true ↔ Graph.withoutAxes axes shape = []) :
    ∃ y, reduction ctx val axes arg init holes inner dst = .ok y ∧
      Value.Totals op sz axes (.tensor shape data) y := by
  generalize hspace : Graph.withoutAxes axes shape = out at hout hscalar
  obtain ⟨cells, hfold, hcells, helement⟩ :=
    exists_cells hbody hspace hfirst hholds helements hout
  rw [reduction_of_fold harg hinit (hspace ▸ hfold)]
  split
  -- No axis is left: the only cell is the scalar.
  · next hdst =>
    obtain rfl := hscalar.mp hdst
    obtain ⟨v, hv, hvalue⟩ := helement [] .nil
    refine ⟨.scalar v, bind_of_ok (element_eq_ok.mpr hv) rfl, hspace.symm, fun _ => ⟨v, rfl⟩, nofun,
      fun idx hidx => ?_⟩
    obtain rfl : idx = [] := List.forall₂_nil_left_iff.mp hidx
    exact ⟨v, rfl, hvalue⟩
  · next hdst =>
    rw [hspace]
    refine ⟨_, rfl, hspace.symm, fun hnil => absurd (hscalar.mpr hnil) hdst, fun h => ?_, helement⟩
    obtain ⟨rfl, rfl⟩ := Value.tensor.inj h
    exact hcells

end TensorKernel
