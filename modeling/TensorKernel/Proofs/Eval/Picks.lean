import TensorKernel.Proofs.Eval.Index

/-!
# The places that a slice reads

Along each axis a slice reads the places `start + i * step`.  `Index.pick?` gives the index vector
that is made of one such place for each axis, by numbers without bounds.

Evaluation computes each place in a word, and checks only that the word is inside of the axis.  The
word is the place nevertheless: the places before it were checked as well, and a step from inside of
an axis that leaves the words ends at a negative one.
-/

namespace TensorKernel

/-! ## Words -/

namespace Word

variable {start step : Int64} {size n i : Nat}

/-- A place as it is kept by a word with a sign. -/
theorem toInt_stepped (start step : Int64) (i : Nat) :
    (start + Int64.ofNat i * step).toInt = (start.toInt + i * step.toInt).bmod (2 ^ 64) := by
  rw [Int64.toInt_add, Int64.toInt_mul, Int64.toInt_ofNat']
  simp [Int64.size]

/-- A place inside of an axis that words can count is kept. -/
theorem inside_of_bounds {v : Int64} {p : Int} (hsize : size < 2 ^ 63) (hv : v.toInt = p.bmod (2 ^ 64))
    (hlow : 0 ≤ p) (hhigh : p < size) : v.toInt = p ∧ Inside v size := by
  have hp : v.toInt = p := hv.trans (Int.bmod_eq_of_le (by omega) (by omega))
  refine ⟨hp, Int64.le_iff_toInt_le.mpr ?_, Int64.lt_iff_toInt_lt.mpr ?_⟩
  · rw [hp]
    exact hlow
  · rw [hp, Int64.toInt_ofNat', show Int64.size = 2 ^ 64 from rfl,
      Int.bmod_eq_of_le (by omega) (by omega)]
    exact hhigh

/-- Places that are checked one after another are kept by words. -/
theorem toInt_stepped_of_inside (h : ∀ i < n, Inside (start + Int64.ofNat i * step) size) :
    ∀ i < n, (start + Int64.ofNat i * step).toInt = start.toInt + i * step.toInt := by
  intro i
  induction i with
  | zero =>
    intro _
    rw [toInt_stepped, Int.natCast_zero, Int.zero_mul, Int.add_zero]
    exact Int.bmod_eq_of_le (Int64.le_toInt start) (Int64.toInt_lt start)
  | succ i ih =>
    intro hi
    have hexact := ih (by omega)
    have hcast : ((i + 1 : Nat) : Int) * step.toInt = i * step.toInt + step.toInt := by
      rw [Int.natCast_succ, Int.add_mul, Int.one_mul]
    have hbefore := (h i (by omega)).bounds
    have hlt := Int64.toInt_lt (start + Int64.ofNat i * step)
    have hlow := (h (i + 1) hi).bounds.1
    have hstepLow := Int64.le_toInt step
    have hstepHigh := Int64.toInt_lt step
    rw [toInt_stepped, hcast] at hlow ⊢
    -- A place above the words would be kept as a negative number.
    by_cases hfits : start.toInt + (i * step.toInt + step.toInt) < 2 ^ 63
    · exact Int.bmod_eq_of_le (by omega) (by omega)
    · have hwrapped : (start.toInt + (i * step.toInt + step.toInt)).bmod (2 ^ 64) =
          start.toInt + (i * step.toInt + step.toInt) - 2 ^ 64 := by
        rw [← Int.sub_bmod_right _ (2 ^ 64)]
        exact Int.bmod_eq_of_le (by omega) (by omega)
      omega

end Word

/-! ## Index vectors in the source -/

/--
The index vector in the source of a slice that has the place `start + i * step` along each axis, if
these places are inside of the source.
-/
def Index.pick? : List Nat → List (Int × Int) → List Nat → Option (List Nat)
  | size :: shape, (start, step) :: steps, i :: idx =>
    if 0 ≤ start + i * step ∧ start + i * step < size then
      (pick? shape steps idx).map ((start + i * step).toNat :: ·)
    else none
  | [], [], [] => some []
  | _, _, _ => none

/-- The first places and the steps along the axes as numbers. -/
def Index.numbers (steps : List (Int64 × Int64)) : List (Int × Int) :=
  steps.map fun step => (step.1.toInt, step.2.toInt)

namespace Meaning

variable {shape ns idx source : List Nat} {steps : List (Int64 × Int64)}

/-- A slice all of whose index vectors pass the checks of evaluation reads the places themselves. -/
theorem pick?_of_sourceIndex (hns : ns.length = shape.length) (hsteps : steps.length = shape.length)
    (hall : ∀ idx ∈ Index.enumerate ns, ∃ source, sourceIndex idx steps shape = .ok source)
    (hidx : idx ∈ Index.enumerate ns) (h : sourceIndex idx steps shape = .ok source) :
    Index.pick? shape (Index.numbers steps) idx = some source := by
  induction ns generalizing shape steps idx source with
  | nil =>
    obtain rfl := List.length_eq_zero_iff.mp hns.symm
    obtain rfl := List.length_eq_zero_iff.mp hsteps
    obtain rfl := List.mem_singleton.mp hidx
    obtain rfl := Except.ok.inj h
    rfl
  | cons n ns ih =>
    cases shape with
    | nil => cases hns
    | cons size shape =>
      cases steps with
      | nil => cases hsteps
      | cons step steps =>
        obtain ⟨start, step⟩ := step
        obtain ⟨i, hi, hidx⟩ := List.mem_flatMap.mp hidx
        obtain ⟨rest, hrest, rfl⟩ := List.mem_map.mp hidx
        have hmem : ∀ j < n, ∀ others ∈ Index.enumerate ns,
            j :: others ∈ Index.enumerate (n :: ns) := fun j hj others hothers =>
          List.mem_flatMap.mpr ⟨j, List.mem_range.mpr hj, List.mem_map_of_mem hothers⟩
        -- The other indices are there for every first one, so the first axis is checked in full.
        have hinside : ∀ j < n, Word.Inside (start + Int64.ofNat j * step) size := fun j hj =>
          (sourceIndex_cons.mp (hall _ (hmem j hj rest hrest)).choose_spec).1
        have htail : ∀ others ∈ Index.enumerate ns,
            ∃ source, sourceIndex others steps shape = .ok source := by
          intro others hothers
          obtain ⟨source, hsource⟩ := hall _ (hmem i (List.mem_range.mp hi) others hothers)
          obtain ⟨-, source', hsource', -⟩ := sourceIndex_cons.mp hsource
          exact ⟨source', hsource'⟩
        obtain ⟨hbounds, source', hsource', rfl⟩ := sourceIndex_cons.mp h
        have hplace := Word.toInt_stepped_of_inside hinside i (List.mem_range.mp hi)
        have hrestPick := ih (Nat.succ.inj hns) (Nat.succ.inj hsteps) htail hrest hsource'
        have hbounds := hbounds.bounds
        rw [hplace] at hbounds ⊢
        rw [Index.numbers, List.map_cons, Index.pick?, if_pos hbounds]
        exact congrArg (Option.map _) hrestPick

/-- Places that are inside of the source pass the checks of evaluation. -/
theorem sourceIndex_of_pick? (hfits : ∀ size ∈ shape, size < 2 ^ 63)
    (h : Index.pick? shape (Index.numbers steps) idx = some source) :
    sourceIndex idx steps shape = .ok source := by
  induction shape generalizing steps idx source with
  | nil =>
    cases steps with
    | nil =>
      cases idx with
      | nil =>
        obtain rfl := Option.some.inj h
        rfl
      | cons i idx => cases h
    | cons step steps => cases h
  | cons size shape ih =>
    obtain ⟨hsize, hfits⟩ := List.forall_mem_cons.mp hfits
    cases steps with
    | nil => cases h
    | cons step steps =>
      obtain ⟨start, step⟩ := step
      cases idx with
      | nil => cases h
      | cons i idx =>
        rw [Index.numbers, List.map_cons, Index.pick?] at h
        split at h
        · next hbounds =>
          obtain ⟨rest, hrest, rfl⟩ := Option.map_eq_some_iff.mp h
          obtain ⟨hplace, hinside⟩ := Word.inside_of_bounds hsize (Word.toInt_stepped start step i)
            hbounds.1 hbounds.2
          exact sourceIndex_cons.mpr ⟨hinside, rest, ih hfits hrest, by rw [hplace]⟩
        · cases h

end Meaning

/-! ## The elements of a slice -/

/--
The elements of a source at the places that a slice picks, in row-major order of the index vectors of
the slice.
-/
def Index.Reads (shape : List Nat) (data : Array Literal) (steps : List (Int × Int)) (ns : List Nat)
    (out : List Literal) : Prop :=
  List.Forall₂ (fun idx v => ∃ source, pick? shape steps idx = some source ∧
    data[linear shape source]? = some v) (enumerate ns) out

/-- No axis is longer than there are elements. -/
theorem Index.InRange.le_size {shape idx : List Nat} (h : InRange shape idx) :
    ∀ n ∈ shape, n ≤ size shape := by
  induction h with
  | nil => exact fun _ hn => absurd hn (List.not_mem_nil)
  | @cons n i shape idx hi hrest ih =>
    have hpos : 0 < size shape := Nat.lt_of_le_of_lt (Nat.zero_le _) (InRange.linear_lt hrest)
    rw [size_cons]
    refine List.forall_mem_cons.mpr ⟨Nat.le_mul_of_pos_right n hpos, fun m hm => ?_⟩
    exact (ih m hm).trans (Nat.le_mul_of_pos_left _ (Nat.lt_of_le_of_lt (Nat.zero_le i) hi))

/-- The places that are picked are inside of the source. -/
theorem Index.inRange_of_pick? {shape : List Nat} : ∀ {steps : List (Int × Int)}
    {idx source : List Nat}, pick? shape steps idx = some source → InRange shape source := by
  induction shape with
  | nil =>
    intro steps idx source h
    unfold pick? at h
    split at h
    · contradiction
    · obtain rfl := Option.some.inj h
      exact .nil
    · cases h
  | cons size shape ih =>
    intro steps idx source h
    unfold pick? at h
    split at h
    · next hshape =>
      obtain ⟨rfl, rfl⟩ := List.cons.inj hshape
      split at h
      · obtain ⟨rest, hrest, rfl⟩ := Option.map_eq_some_iff.mp h
        exact .cons (by omega) (ih hrest)
      · cases h
    · contradiction
    · cases h

namespace Meaning

variable {ctx : EvalContext} {val : Valuation} {target dst : NodeId} {selected : List SliceIndex}
  {sizes : Shape} {shape ns ms : List Nat} {data : Array Literal} {steps : List (Int64 × Int64)}

theorem element_eq_ok {i : Nat} {v : Literal} : element data i = .ok v ↔ data[i]? = some v := by
  unfold element
  split
  · next w hw =>
    rw [hw]
    exact ⟨fun h => congrArg some (Except.ok.inj h), fun h => congrArg Except.ok (Option.some.inj h)⟩
  · next hnone =>
    rw [hnone]
    exact ⟨nofun, nofun⟩

/-- An element of a slice is the one at its place, where words can count the elements. -/
theorem sliceElement_eq_ok (hsize : data.size = Index.size shape) (hfits : data.size < Word.count)
    {idx source : List Nat} (hsource : sourceIndex idx steps shape = .ok source)
    (hrange : Index.InRange shape source) {v : Literal} :
    sliceElement steps shape data idx = .ok v ↔ data[Index.linear shape source]? = some v := by
  have hplace : Index.place shape source = Index.linear shape source :=
    Word.wrap_of_lt (hrange.linear_lt.trans (hsize ▸ hfits))
  have helement : sliceElement steps shape data idx = element data (Index.place shape source) :=
    bind_of_ok hsource rfl
  rw [helement, hplace, element_eq_ok]

/-- The sizes of a shape without the ones in front are those of the axes that are left. -/
theorem dims_of_trims {shape : Shape} (htrims : sizes.Trims shape) (hns : dims ctx val sizes = .ok ns) :
    ∃ k, k < ns.length ∧ shape.length = ns.length - k ∧ (∀ n ∈ ns.take k, n = 1) ∧
      dims ctx val shape = .ok (ns.drop k) := by
  obtain ⟨k, rfl, hk, hones⟩ := htrims
  have hall := forall₂_of_mapM hns
  have hlength : sizes.length = ns.length := hall.length_eq
  refine ⟨k, hlength ▸ hk, by rw [List.length_drop, hlength], fun n hn => ?_,
    mapM_of_forall₂ (List.forall₂_drop k hall)⟩
  obtain ⟨d, hd, hdim⟩ := exists_of_mem_mapM (mapM_of_forall₂ (List.forall₂_take k hall)) n hn
  obtain rfl : d = .const 1 := by simpa [Dim.isOne] using hones d hd
  exact (Except.ok.inj hdim).symm

/-- A slice that has a value reads the places that it picks. -/
theorem reads_of_slice {v : Value} (h : slice ctx val target selected sizes dst = .ok v)
    (htarget : tensor val target = .ok (shape, data)) (hrank : sizes.length = shape.length)
    (hsize : data.size = Index.size shape) (hfits : data.size < Word.count) :
    ∃ ns steps ms out, dims ctx val sizes = .ok ns ∧ starts val selected shape = .ok steps ∧
      dims ctx val (ctx.graph.shape dst) = .ok ms ∧ v = .tensor ms out.toArray ∧
      Index.Reads shape data (Index.numbers steps) ns out := by
  obtain ⟨source, hsource, h⟩ := exists_of_bind_ok h
  obtain rfl := Except.ok.inj (hsource.symm.trans htarget)
  obtain ⟨ns, hns, h⟩ := exists_of_bind_ok h
  obtain ⟨steps, hsteps, h⟩ := exists_of_bind_ok h
  obtain ⟨out, hout, h⟩ := exists_of_bind_ok h
  obtain ⟨ms, hms, h⟩ := exists_of_bind_ok h
  refine ⟨ns, steps, ms, out, hns, hsteps, hms, (Except.ok.inj h).symm, ?_⟩
  have hlength : ns.length = shape.length := (length_of_mapM_ok hns).trans hrank
  rw [Index.rowMajor_eq_enumerate] at hout
  have hall : ∀ idx ∈ Index.enumerate ns, ∃ source, sourceIndex idx steps shape = .ok source := by
    intro idx hidx
    obtain ⟨v, -, hv⟩ := exists_ok_of_mem hout idx hidx
    obtain ⟨source, hsource, -⟩ := exists_of_bind_ok hv
    exact ⟨source, hsource⟩
  refine ((List.forall₂_and_left _ _).mpr ⟨fun _ h => h, forall₂_of_mapM hout⟩).imp
    fun idx v ⟨hidx, hv⟩ => ?_
  obtain ⟨source, hsource⟩ := hall idx hidx
  have hpick := pick?_of_sourceIndex hlength (length_starts hsteps) hall hidx hsource
  exact ⟨source, hpick, (sliceElement_eq_ok hsize hfits hsource (Index.inRange_of_pick? hpick)).mp hv⟩

/-- A slice that picks places inside of its source has a value. -/
theorem exists_slice (htarget : tensor val target = .ok (shape, data))
    (hsizes : dims ctx val sizes = .ok ns) (hsteps : starts val selected shape = .ok steps)
    (hdst : dims ctx val (ctx.graph.shape dst) = .ok ms) (hsize : data.size = Index.size shape)
    (hfits : data.size < 2 ^ 63)
    (hpicks : ∀ idx ∈ Index.enumerate ns, (Index.pick? shape (Index.numbers steps) idx).isSome) :
    ∃ out, slice ctx val target selected sizes dst = .ok (.tensor ms out.toArray) ∧
      Index.Reads shape data (Index.numbers steps) ns out := by
  -- Every element is there, since its place is inside of the source and places fit into a word.
  have hread : ∀ idx ∈ Index.enumerate ns, ∃ v, (∃ source,
      Index.pick? shape (Index.numbers steps) idx = some source ∧
      data[Index.linear shape source]? = some v) ∧ sliceElement steps shape data idx = .ok v := by
    intro idx hidx
    obtain ⟨source, hpick⟩ := Option.isSome_iff_exists.mp (hpicks idx hidx)
    have hrange := Index.inRange_of_pick? hpick
    have hlt : Index.linear shape source < data.size := hsize ▸ hrange.linear_lt
    have haxes : ∀ size ∈ shape, size < 2 ^ 63 := fun size hmem =>
      Nat.lt_of_le_of_lt (hrange.le_size size hmem) (hsize ▸ hfits)
    have hv := Array.getElem?_eq_getElem hlt
    exact ⟨_, ⟨source, hpick, hv⟩, (sliceElement_eq_ok hsize (hfits.trans (by decide))
      (sourceIndex_of_pick? haxes hpick) hrange).mpr hv⟩
  obtain ⟨out, hout⟩ : ∃ out, (Index.enumerate ns).mapM (sliceElement steps shape data) = .ok out :=
    exists_mapM_ok fun idx hidx => (hread idx hidx).imp fun _ h => h.2
  refine ⟨out, ?_, ?_⟩
  · rw [← Index.rowMajor_eq_enumerate] at hout
    exact bind_of_ok htarget (bind_of_ok hsizes (bind_of_ok hsteps (bind_of_ok hout
      (bind_of_ok hdst rfl))))
  · refine ((List.forall₂_and_left _ _).mpr ⟨fun _ h => h, forall₂_of_mapM hout⟩).imp
      fun idx v ⟨hidx, hv⟩ => ?_
    obtain ⟨w, hw, hw'⟩ := hread idx hidx
    obtain rfl := Except.ok.inj (hv.symm.trans hw')
    exact hw

end Meaning

end TensorKernel
