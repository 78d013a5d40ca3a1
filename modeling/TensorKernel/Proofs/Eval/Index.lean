import Mathlib.Data.List.Forall2
import Mathlib.Tactic.Ring
import TensorKernel.Proofs.Eval.Typing
import TensorKernel.Proofs.Graph.Available

/-!
# Index vectors stay inside their shapes

`Index.InRange` says that an index vector addresses an element of a shape.  Such a vector has its own
place below the number of elements, and the row-major order lists each of them at its place.  The
ways in which operators change index vectors keep them in range: broadcasting to an operand, dropping
axes, checking computed indices, and following the steps of a slice.

Places are taken as exact numbers here; `Index.place` is what a word keeps of them.
-/

namespace TensorKernel

/-- A relation between lists holds of what is left of both without some axes. -/
theorem forall₂_withoutAxes {α β : Type} {R : α → β → Prop} (axes : List Nat) {xs : List α}
    {ys : List β} (h : List.Forall₂ R xs ys) :
    List.Forall₂ R (Graph.withoutAxes axes xs) (Graph.withoutAxes axes ys) := by
  have hfrom : ∀ i, List.Forall₂ R
      (((xs.zipIdx i).filter fun p => !axes.contains p.2).map Prod.fst)
      (((ys.zipIdx i).filter fun p => !axes.contains p.2).map Prod.fst) := by
    induction h with
    | nil => exact fun _ => .nil
    | cons hhead _ ih =>
      intro i
      rw [List.zipIdx_cons, List.zipIdx_cons, List.filter_cons, List.filter_cons]
      dsimp only
      split
      · exact .cons hhead (ih (i + 1))
      · exact ih (i + 1)
  exact hfrom 0

/-- Nothing is left without all axes. -/
theorem withoutAxes_range {α : Type} (xs : List α) :
    Graph.withoutAxes (List.range xs.length) xs = [] := by
  rw [Graph.withoutAxes, List.map_eq_nil_iff, List.filter_eq_nil_iff]
  intro p hp
  simpa using List.snd_lt_of_mem_zipIdx hp

theorem withoutAxes_singleton {α : Type} (i : Nat) (xs : List α) :
    Graph.withoutAxes [i] xs = xs.eraseIdx i := by
  have hfrom : ∀ k, ((xs.zipIdx k).filter fun p => !decide (p.2 = k + i)).map Prod.fst =
      xs.eraseIdx i := by
    induction xs generalizing i with
    | nil => exact fun _ => rfl
    | cons x xs ih =>
      intro k
      rw [List.zipIdx_cons, List.filter_cons]
      cases i with
      | zero =>
        -- The other places come after the one that is left out.
        have hrest : (xs.zipIdx (k + 1)).filter (fun p => !decide (p.2 = k)) = xs.zipIdx (k + 1) := by
          refine List.filter_eq_self.mpr fun p hp => ?_
          have hle := List.le_snd_of_mem_zipIdx hp
          simp
          omega
        simp [hrest]
      | succ i =>
        have hplace : k + (i + 1) = k + 1 + i := by omega
        have hne : k ≠ k + 1 + i := by omega
        rw [hplace, if_pos (by simpa using hne), List.map_cons, ih i (k + 1), List.eraseIdx_cons_succ]
  unfold Graph.withoutAxes
  simpa using hfrom 0

namespace Index

/-- An index vector that addresses an element of a shape. -/
def InRange (shape idx : List Nat) : Prop :=
  List.Forall₂ (fun n i => i < n) shape idx

theorem InRange.length_eq {shape idx : List Nat} (h : InRange shape idx) :
    shape.length = idx.length :=
  List.Forall₂.length_eq h

/-! ## Places -/

theorem size_cons (n : Nat) (shape : List Nat) : size (n :: shape) = n * size shape := by
  rw [← length_enumerate, ← length_enumerate, enumerate, List.length_flatMap]
  simp

/-- The place of an index vector behind the digits that were read before. -/
theorem foldl_place (shape : List Nat) : ∀ {idx : List Nat}, shape.length = idx.length → ∀ acc,
    (shape.zip idx).foldl (fun acc entry => acc * entry.1 + entry.2) acc =
      acc * size shape + linear shape idx := by
  induction shape with
  | nil =>
    intro idx _ acc
    simp [linear, size]
  | cons n shape ih =>
    intro idx hlength acc
    cases idx with
    | nil => cases hlength
    | cons i idx =>
      have hrest := Nat.succ.inj hlength
      calc ((n :: shape).zip (i :: idx)).foldl (fun acc entry => acc * entry.1 + entry.2) acc
          = (acc * n + i) * size shape + linear shape idx := ih hrest _
        _ = acc * size (n :: shape) + (i * size shape + linear shape idx) := by
          rw [size_cons]
          ring
        _ = acc * size (n :: shape) + linear (n :: shape) (i :: idx) := by
          rw [show linear (n :: shape) (i :: idx) = _ from ih hrest (0 * n + i), Nat.zero_mul,
            Nat.zero_add]

/-- The first index counts whole blocks of the other axes. -/
theorem linear_cons {n i : Nat} {shape idx : List Nat} (h : shape.length = idx.length) :
    linear (n :: shape) (i :: idx) = i * size shape + linear shape idx := by
  have hplace := foldl_place shape h (0 * n + i)
  rw [Nat.zero_mul, Nat.zero_add] at hplace
  rw [← hplace]
  simp [linear]

/-- An index vector in range has a place among the elements. -/
theorem InRange.linear_lt {shape idx : List Nat} (h : InRange shape idx) :
    linear shape idx < size shape := by
  induction h with
  | nil => exact Nat.one_pos
  | @cons n i shape idx hi hrest ih =>
    rw [linear_cons (InRange.length_eq hrest), size_cons]
    calc i * size shape + linear shape idx < i * size shape + size shape := by omega
      _ = (i + 1) * size shape := by ring
      _ ≤ n * size shape := Nat.mul_le_mul_right _ hi

/-- The place of an index vector in a tensor whose elements fit into a word. -/
theorem InRange.place_lt {shape idx : List Nat} (h : InRange shape idx)
    (hfits : size shape < Word.count) : place shape idx < size shape := by
  rw [place, Word.wrap_of_lt (h.linear_lt.trans hfits)]
  exact h.linear_lt

/-- Every index vector that is listed is in range. -/
theorem inRange_of_mem_enumerate {shape : List Nat} : ∀ {idx : List Nat},
    idx ∈ enumerate shape → InRange shape idx := by
  induction shape with
  | nil =>
    intro idx h
    obtain rfl := List.mem_singleton.mp h
    exact .nil
  | cons n shape ih =>
    intro idx h
    obtain ⟨i, hi, h⟩ := List.mem_flatMap.mp h
    obtain ⟨rest, hrest, rfl⟩ := List.mem_map.mp h
    exact .cons (List.mem_range.mp hi) (ih hrest)

theorem inRange_of_mem_rowMajor {shape idx : List Nat} (h : idx ∈ rowMajor shape) :
    InRange shape idx :=
  inRange_of_mem_enumerate (rowMajor_eq_enumerate shape ▸ h)

/-- The index vectors in range are those that are listed. -/
theorem mem_enumerate_iff {shape idx : List Nat} : idx ∈ enumerate shape ↔ InRange shape idx := by
  refine ⟨inRange_of_mem_enumerate, fun h => ?_⟩
  induction h with
  | nil => exact List.mem_singleton_self _
  | cons hi _ ih =>
    exact List.mem_flatMap.mpr ⟨_, List.mem_range.mpr hi, List.mem_map_of_mem ih⟩

/-- The index vectors are listed by their places. -/
theorem map_linear_enumerate (shape : List Nat) :
    (enumerate shape).map (linear shape) = List.range (size shape) := by
  induction shape with
  | nil => rfl
  | cons n shape ih =>
    -- The vectors that begin with one index take a block of places.
    have hblock : ∀ i, ((enumerate shape).map (i :: ·)).map (linear (n :: shape)) =
        (List.range (size shape)).map (i * size shape + ·) := by
      intro i
      rw [← ih, List.map_map, List.map_map]
      refine List.map_congr_left fun idx hidx => ?_
      exact linear_cons (inRange_of_mem_enumerate hidx).length_eq
    have hblocks : ∀ k, ((List.range k).flatMap fun i => (enumerate shape).map (i :: ·)).map
        (linear (n :: shape)) = List.range (k * size shape) := by
      intro k
      induction k with
      | zero => simp
      | succ k ihk =>
        rw [List.range_succ, List.flatMap_append, List.map_append, ihk, List.flatMap_singleton,
          hblock, Nat.succ_mul, List.range_add]
    rw [size_cons]
    exact hblocks n

/-- Different index vectors have different places. -/
theorem InRange.linear_inj {shape idx other : List Nat} (h : InRange shape idx)
    (hother : InRange shape other) (heq : linear shape idx = linear shape other) : idx = other :=
  List.inj_on_of_nodup_map (map_linear_enumerate shape ▸ List.nodup_range)
    (mem_enumerate_iff.mpr h) (mem_enumerate_iff.mpr hother) heq

/-- The index vector at a place in the row-major order. -/
theorem linear_getElem_enumerate {shape : List Nat} {i : Nat} (hi : i < (enumerate shape).length) :
    linear shape (enumerate shape)[i] = i := by
  have hplace : ((enumerate shape).map (linear shape))[i]? = some (linear shape (enumerate shape)[i]) := by
    rw [List.getElem?_map, List.getElem?_eq_getElem hi]
    rfl
  rw [map_linear_enumerate, List.getElem?_range (length_enumerate shape ▸ hi)] at hplace
  exact (Option.some.inj hplace).symm

theorem InRange.getElem?_enumerate {shape idx : List Nat} (h : InRange shape idx) :
    (enumerate shape)[linear shape idx]? = some idx := by
  have hlt : linear shape idx < (enumerate shape).length := length_enumerate shape ▸ h.linear_lt
  have hmem := List.getElem_mem hlt
  rw [List.getElem?_eq_getElem hlt]
  exact congrArg some (InRange.linear_inj (inRange_of_mem_enumerate hmem) h
    (linear_getElem_enumerate hlt))

/-- In a list that was filled in the order, what belongs to an index vector is at its place. -/
theorem InRange.exists_getElem? {α : Type} {R : List Nat → α → Prop} {data : List α}
    {shape idx : List Nat} (h : InRange shape idx) (hdata : List.Forall₂ R (enumerate shape) data) :
    ∃ a, data[linear shape idx]? = some a ∧ R idx a := by
  obtain ⟨hlt, hget⟩ := List.getElem?_eq_some_iff.mp h.getElem?_enumerate
  have hlt' : linear shape idx < data.length := hdata.length_eq ▸ hlt
  have hfilled := hdata.get hlt hlt'
  rw [List.get_eq_getElem, List.get_eq_getElem, hget] at hfilled
  exact ⟨_, List.getElem?_eq_getElem hlt', hfilled⟩

/-! ## Broadcasting -/

/-- Sizes by which an operand can be read along the axes of a result: the same ones, or ones. -/
def FitsAlong (ns ms : List Nat) : Prop :=
  List.Forall₂ (fun n m => n = m ∨ n = 1) ns ms

/-- An operand that is aligned at the last axes of a result is read at its own elements. -/
theorem inRange_broadcast {ns ms idx : List Nat} (hle : ns.length ≤ ms.length)
    (hfits : FitsAlong ns (ms.drop (ms.length - ns.length))) (h : InRange ms idx) :
    InRange ns (broadcast ns idx) := by
  have hlead : ns.length - idx.length = 0 := by rw [← h.length_eq]; omega
  have haligned : InRange (ms.drop (ms.length - ns.length)) (idx.drop (idx.length - ns.length)) := by
    rw [← h.length_eq]
    exact List.forall₂_drop _ h
  unfold broadcast
  dsimp only
  rw [hlead, List.replicate_zero, List.nil_append]
  generalize ms.drop (ms.length - ns.length) = ms' at hfits haligned
  generalize idx.drop (idx.length - ns.length) = idx' at haligned
  clear hle h hlead
  induction hfits generalizing idx' with
  | nil => exact .nil
  | @cons n m ns ms hnm _ ih =>
    cases haligned with
    | cons hi hrest =>
      refine .cons ?_ (ih _ hrest)
      dsimp only
      split
      · omega
      · exact hnm.elim (fun h => h ▸ hi) fun h => absurd h ‹_›

/-- An operand that has the shape of the result is read at the same index vector. -/
theorem InRange.broadcast_eq {shape idx : List Nat} (h : InRange shape idx) :
    broadcast shape idx = idx := by
  unfold broadcast
  dsimp only
  rw [h.length_eq, Nat.sub_self, List.replicate_zero, List.drop_zero, List.nil_append]
  induction h with
  | nil => rfl
  | @cons n i shape idx hi _ ih =>
    rw [List.zip_cons_cons, List.map_cons, ih]
    dsimp only
    split
    · rw [show i = 0 by omega]
    · rfl

end Index

namespace Shape

/-- An operand that fits has at most the dimensions of its space, to the last of which it is aligned. -/
theorem Fits.forall₂ {operand space : Shape} (h : operand.Fits space) :
    operand.length ≤ space.length ∧ List.Forall₂ (fun d e => d = e ∨ d.isOne = true) operand
      (space.drop (space.length - operand.length)) := by
  have haligned : ∀ {ds es : List Dim}, alignedFits ds es → ds.length ≤ es.length ∧
      List.Forall₂ (fun d e => d = e ∨ d.isOne = true) ds (es.take ds.length) := by
    intro ds
    induction ds with
    | nil => exact fun _ => ⟨Nat.zero_le _, .nil⟩
    | cons d ds ih =>
      intro es h
      cases es with
      | nil => exact h.elim
      | cons e es =>
        obtain ⟨hle, hrest⟩ := ih h.2
        exact ⟨Nat.succ_le_succ hle, .cons h.1 hrest⟩
  obtain ⟨hle, hdims⟩ := haligned h
  rw [List.length_reverse, List.length_reverse] at hle
  rw [List.length_reverse, List.take_reverse, List.forall₂_reverse_iff] at hdims
  exact ⟨hle, hdims⟩

end Shape

/-! ## Places in words -/

namespace Word

variable {size : Nat}

/-- A word is inside of an axis. -/
def Inside (v : Int64) (size : Nat) : Prop :=
  0 ≤ v ∧ v < Int64.ofNat size

theorem Inside.bounds {v : Int64} (h : Inside v size) : 0 ≤ v.toInt ∧ v.toInt < size := by
  have hlow := Int64.le_iff_toInt_le.mp h.1
  have hhigh := Int64.lt_iff_toInt_lt.mp h.2
  rw [Int64.toInt_ofNat'] at hhigh
  -- What a word keeps of the size of an axis is never more than the size.
  have hle : (size : Int).bmod Int64.size ≤ size := by
    have hmod : (size : Int) % Int64.size ≤ size := by
      exact_mod_cast Nat.mod_le size Int64.size
    rw [Int.bmod_def]
    split
    · exact hmod
    · omega
  have hzero : (0 : Int64).toInt = 0 := rfl
  omega

end Word

/-! ## Sizes and index vectors of operators -/

namespace Meaning

open Index (InRange FitsAlong)

variable {ctx : EvalContext} {val : Valuation}

/-- The sizes of a shape belong to its dimensions. -/
theorem forall₂_of_dims {shape : Shape} {ns : List Nat} (h : dims ctx val shape = .ok ns) :
    List.Forall₂ (fun d n => dim ctx val d = .ok n) shape ns :=
  forall₂_of_mapM h

/-- An operand that fits into the dimensions of a result fits into its sizes. -/
theorem fitsAlong_of_fits {operand space : Shape} (hfits : operand.Fits space) {ns ms : List Nat}
    (hns : dims ctx val operand = .ok ns) (hms : dims ctx val space = .ok ms) :
    ns.length ≤ ms.length ∧ FitsAlong ns (ms.drop (ms.length - ns.length)) := by
  obtain ⟨hle, hdims⟩ := hfits.forall₂
  have hsizes := forall₂_of_dims hns
  have hspace := List.forall₂_drop (space.length - operand.length) (forall₂_of_dims hms)
  have hnlength := hsizes.length_eq
  have hmlength := (forall₂_of_dims hms).length_eq
  refine ⟨by omega, ?_⟩
  rw [← hnlength, ← hmlength]
  generalize space.drop (space.length - operand.length) = space' at hdims hspace
  generalize ms.drop (space.length - operand.length) = ms' at hspace
  clear hns hms hfits hle hnlength hmlength
  induction hdims generalizing ns ms' with
  | nil =>
    cases hsizes
    cases hspace
    exact .nil
  | cons hd _ ih =>
    cases hsizes with
    | cons hn hns =>
      cases hspace with
      | cons hm hms =>
        refine .cons ?_ (ih hns _ hms)
        rcases hd with rfl | hone
        · exact Or.inl (Except.ok.inj (hn.symm.trans hm))
        · rw [Dim.isOne, beq_iff_eq] at hone
          subst hone
          exact Or.inr (Except.ok.inj hn).symm

/-- Computed indices are checked against the axes they are for. -/
theorem inRange_of_indices {ids : List NodeId} : ∀ {sizes idx : List Nat},
    ids.length = sizes.length → indices val ids sizes = .ok idx → InRange sizes idx := by
  induction ids with
  | nil =>
    intro sizes idx hlength h
    obtain rfl := List.length_eq_zero_iff.mp hlength.symm
    obtain rfl := Except.ok.inj h
    exact .nil
  | cons id ids ih =>
    intro sizes idx hlength h
    cases sizes with
    | nil => cases hlength
    | cons size sizes =>
      obtain ⟨i, hi, h⟩ := exists_of_bind_ok h
      obtain ⟨rest, hrest, h⟩ := exists_of_bind_ok h
      obtain rfl := Except.ok.inj h
      refine .cons ?_ (ih (Nat.succ.inj hlength) hrest)
      obtain ⟨v, -, hi⟩ := exists_of_bind_ok hi
      dsimp only at hi
      split at hi
      · obtain rfl := Except.ok.inj hi
        omega
      · cases hi

/-- A slice has one start and step for each axis. -/
theorem length_starts {selected : List SliceIndex} : ∀ {sizes : List Nat}
    {steps : List (Int64 × Int64)}, starts val selected sizes = .ok steps →
      steps.length = sizes.length := by
  -- Axes behind the selected ones are taken whole, and have a start and a step as well.
  induction selected with
  | nil =>
    intro sizes
    induction sizes with
    | nil =>
      intro steps h
      obtain rfl := Except.ok.inj h
      rfl
    | cons size sizes ih =>
      intro steps h
      obtain ⟨rest, hrest, h⟩ := exists_of_bind_ok h
      obtain rfl := Except.ok.inj h
      exact congrArg Nat.succ (ih hrest)
  | cons i selected ih =>
    intro sizes steps h
    cases sizes with
    | nil =>
      obtain rfl := Except.ok.inj h
      rfl
    | cons size sizes =>
      cases i with
      | element id =>
        obtain ⟨start, -, h⟩ := exists_of_bind_ok h
        obtain ⟨rest, hrest, h⟩ := exists_of_bind_ok h
        obtain rfl := Except.ok.inj h
        exact congrArg Nat.succ (ih hrest)
      | range lower upper step =>
        obtain ⟨start, -, h⟩ := exists_of_bind_ok h
        obtain ⟨stride, -, h⟩ := exists_of_bind_ok h
        obtain ⟨rest, hrest, h⟩ := exists_of_bind_ok h
        obtain rfl := Except.ok.inj h
        exact congrArg Nat.succ (ih hrest)

variable {steps : List (Int64 × Int64)} {sizes idx source : List Nat}

/-- A place is computed by a word along each axis. -/
theorem sourceIndex_cons {size i : Nat} {start step : Int64} :
    sourceIndex (i :: idx) ((start, step) :: steps) (size :: sizes) = .ok source ↔
      Word.Inside (start + Int64.ofNat i * step) size ∧ ∃ rest,
        sourceIndex idx steps sizes = .ok rest ∧
        source = (start + Int64.ofNat i * step).toInt.toNat :: rest := by
  rw [sourceIndex]
  split
  · next hinside =>
    constructor
    · intro h
      obtain ⟨rest, hrest, h⟩ := exists_of_bind_ok h
      exact ⟨hinside, rest, hrest, (Except.ok.inj h).symm⟩
    · rintro ⟨-, rest, hrest, rfl⟩
      exact bind_of_ok hrest rfl
  · next houtside =>
    constructor
    · intro h
      cases h
    · exact fun h => absurd h.1 houtside

/-- The steps of a slice are checked against the axes of its source. -/
theorem inRange_of_sourceIndex (hidx : idx.length = sizes.length) (hsteps : steps.length = sizes.length)
    (h : sourceIndex idx steps sizes = .ok source) : InRange sizes source := by
  induction sizes generalizing steps idx source with
  | nil =>
    obtain rfl := List.length_eq_zero_iff.mp hidx
    obtain rfl := Except.ok.inj h
    exact .nil
  | cons size sizes ih =>
    cases idx with
    | nil => cases hidx
    | cons i idx =>
      cases steps with
      | nil => cases hsteps
      | cons step steps =>
        obtain ⟨hinside, rest, hrest, rfl⟩ := sourceIndex_cons.mp h
        have hbounds := hinside.bounds
        exact .cons (by omega) (ih (Nat.succ.inj hidx) (Nat.succ.inj hsteps) hrest)

end Meaning

end TensorKernel
