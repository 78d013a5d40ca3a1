import TensorKernel.Proofs.Emission.Operator
import TensorKernel.Proofs.Execution.Sizes

/-!
# What slices compute

The statements of a slice make a view of the region of the source, allocate a buffer, copy the view to
the buffer, and merge the first axes of the buffer if axes of length one are dropped.  Run by
`Buffer.Machine` they leave the elements that the slice reads under the name of its result.

The numbers that these statements take are those of evaluation: the first places and the steps are
`Meaning.starts`, and the sizes are the sizes of the slice.
-/

namespace TensorKernel

open Buffer (Machine Memory Operand View)

/-! ## Merged axes of length one -/

/-- Some of the sizes in a row, taken by their axes. -/
theorem map_getD_range (ns : List Nat) {k m : Nat} (h : k + m ≤ ns.length) :
    ((List.range m).map fun i => ns.getD (k + i) 0) = (ns.drop k).take m := by
  have hlength : ((ns.drop k).take m).length = m := by
    rw [List.length_take, List.length_drop]
    omega
  refine List.ext_getElem (by rw [hlength, List.length_map, List.length_range]) fun i hi _ => ?_
  rw [List.length_map, List.length_range] at hi
  simp [List.getD_eq_getElem?_getD, show k + i < ns.length by omega]

/-- Axes of length one do not change the number of elements. -/
theorem Index.size_append_singleton {ns : List Nat} (h : ∀ n ∈ ns, n = 1) (m : Nat) :
    size (ns ++ [m]) = m := by
  induction ns with
  | nil => exact (size_cons m []).trans (Nat.mul_one m)
  | cons n ns ih =>
    obtain ⟨hn, hns⟩ := List.forall_mem_cons.mp h
    rw [List.cons_append, size_cons, ih hns, hn, Nat.one_mul]

/-- The first axes are merged into one if all but the last of them have length one. -/
theorem Buffer.View.sizes_collapse {v : View} {k : Nat} (hk : k < v.sizes.length)
    (hones : ∀ n ∈ v.sizes.take k, n = 1) :
    (v.collapse (LowerM.collapsedAxes k v.sizes.length)).sizes = v.sizes.drop k := by
  have hfirst : ((List.range (k + 1)).map fun axis => v.sizes.getD axis 0) =
      v.sizes.take k ++ [v.sizes[k]] := by
    have hmap := map_getD_range v.sizes (show 0 + (k + 1) ≤ v.sizes.length by omega)
    simp only [Nat.zero_add, List.drop_zero] at hmap
    rw [hmap, List.take_append_getElem]
  have hrest : ((List.range (v.sizes.length - (k + 1))).map fun i =>
      Index.size [v.sizes.getD (k + 1 + i) 0]) = v.sizes.drop (k + 1) := by
    have hmap := map_getD_range v.sizes
      (show k + 1 + (v.sizes.length - (k + 1)) ≤ v.sizes.length by omega)
    rw [List.take_of_length_le (by rw [List.length_drop])] at hmap
    rw [← hmap]
    exact List.map_congr_left fun i _ => Index.size_append_singleton (List.forall_mem_nil _) _
  show ((LowerM.collapsedAxes k v.sizes.length).map _).map Index.size = _
  rw [LowerM.collapsedAxes, List.map_cons, List.map_cons, hfirst, Index.size_append_singleton hones,
    List.map_map, List.map_map, List.drop_eq_getElem_cons hk]
  exact congrArg _ hrest

/-- An index that was checked is the number of its scalar. -/
theorem Meaning.scalar_of_index {val : Valuation} {id : NodeId} {n i : Nat}
    (h : index val id n = .ok i) : ∃ v, scalar val id = .ok v ∧ v.asInt.toInt = (Int64.ofNat i).toInt := by
  obtain ⟨v, hv, h⟩ := exists_of_bind_ok h
  dsimp only at h
  split at h
  · next hbounds =>
    obtain rfl := Except.ok.inj h
    have hlt := Int64.toInt_lt v.asInt
    refine ⟨v, hv, ?_⟩
    rw [Int64.toInt_ofNat', Int.toNat_of_nonneg hbounds.1, show Int64.size = 2 ^ 64 from rfl]
    exact (Int.bmod_eq_of_le (by omega) (by omega)).symm
  · cases h

/-- Where a slice begins along each axis, the scalars that this is read from have values. -/
theorem Meaning.scalar_of_starts {val : Valuation} {selected : List SliceIndex} {shape : List Nat}
    {steps : List (Int64 × Int64)} (h : starts val selected shape = .ok steps)
    (hle : selected.length ≤ shape.length) {i : SliceIndex} (hi : i ∈ selected) {id : NodeId}
    (hid : id ∈ i.starts) : ∃ w, scalar val id = .ok w := by
  induction selected generalizing shape steps with
  | nil => cases hi
  | cons first selected ih =>
    cases shape with
    | nil => cases hle
    | cons n shape =>
      have hrestLe : selected.length ≤ shape.length := Nat.le_of_succ_le_succ hle
      cases first with
      | element index =>
        obtain ⟨place, hplace, h⟩ := exists_of_bind_ok h
        obtain ⟨rest, hrest, -⟩ := exists_of_bind_ok h
        rcases List.mem_cons.mp hi with rfl | hi
        · obtain rfl := List.mem_singleton.mp hid
          obtain ⟨w, hw, -⟩ := scalar_of_index hplace
          exact ⟨w, hw⟩
        · exact ih hrest hrestLe hi
      | range lower upper step =>
        obtain ⟨l, hl, h⟩ := exists_of_bind_ok h
        obtain ⟨s, hs, h⟩ := exists_of_bind_ok h
        obtain ⟨rest, hrest, -⟩ := exists_of_bind_ok h
        rcases List.mem_cons.mp hi with rfl | hi
        · rcases List.mem_pair.mp hid with rfl | rfl
          · exact ⟨l, hl⟩
          · exact ⟨s, hs⟩
        · exact ih hrest hrestLe hi

namespace LowerM

variable {ctx : EvalContext} {val : Valuation} {s s' : LowerState} {M : Buffer.Store} {V : Memory}

/-! ## Numbers -/

/-- The name of a scalar holds its number. -/
theorem HoldsSize.number?_node {id : NodeId} {name : Name} (h : HoldsSize ctx val M (.node id) name)
    {v : Literal} (hv : Meaning.scalar val id = .ok v) : M.number? name = some v.asInt.toInt := by
  obtain ⟨size, hsize, hkey⟩ := h
  have hnumber : Meaning.dimNumber ctx val (.node id) = .ok v.asInt.toInt := bind_of_ok hv rfl
  obtain rfl := Except.ok.inj (hsize.symm.trans hnumber)
  exact Buffer.Store.number?_of_eq hkey

/-- The offsets and the strides of a view are the first places and the steps of evaluation. -/
theorem HoldsViews.starts {selected : List SliceIndex} {sizes : Shape} {views : List AxisView}
    (h : HoldsViews ctx val M selected sizes views) : ∀ {shape : List Nat} {steps : List (Int64 × Int64)},
    sizes.length = shape.length → Meaning.starts val selected shape = .ok steps →
    (views.map AxisView.offset).mapM M.number? = some ((Index.numbers steps).map Prod.fst) ∧
      (views.map AxisView.stride).mapM M.number? = some ((Index.numbers steps).map Prod.snd) := by
  induction h with
  | nil =>
    intro shape steps hlength hsteps
    obtain rfl := List.length_eq_zero_iff.mp hlength.symm
    unfold Meaning.starts at hsteps
    obtain rfl := Except.ok.inj hsteps
    exact ⟨rfl, rfl⟩
  | @cons selected d sizes view views start _ _ ih =>
    intro shape steps hlength hsteps
    cases shape with
    | nil => cases hlength
    | cons n shape =>
      have hlength := Nat.succ.inj hlength
      -- One axis at a time, and past the selected ones every axis starts at zero.
      suffices hhead : ∃ first rest, steps = first :: rest ∧
          Meaning.starts val selected.tail shape = .ok rest ∧
          M.number? view.offset = some first.1.toInt ∧ M.number? view.stride = some first.2.toInt by
        obtain ⟨first, rest, rfl, hrest, hoffset, hstride⟩ := hhead
        obtain ⟨hoffsets, hstrides⟩ := ih hlength hrest
        rw [List.map_cons, List.map_cons, List.mapM_cons, List.mapM_cons, hoffset, hstride, hoffsets,
          hstrides]
        exact ⟨rfl, rfl⟩
      cases selected with
      | nil =>
        obtain ⟨rest, hrest, hsteps⟩ := exists_of_bind_ok hsteps
        obtain rfl := Except.ok.inj hsteps
        exact ⟨_, rest, rfl, hrest, Buffer.Store.number?_of_eq start.1,
          Buffer.Store.number?_of_eq start.2⟩
      | cons i selected =>
        cases i with
        | element id =>
          obtain ⟨first, hfirst, hsteps⟩ := exists_of_bind_ok hsteps
          obtain ⟨rest, hrest, hsteps⟩ := exists_of_bind_ok hsteps
          obtain rfl := Except.ok.inj hsteps
          obtain ⟨v, hv, hplace⟩ := Meaning.scalar_of_index hfirst
          refine ⟨_, rest, rfl, hrest, ?_, Buffer.Store.number?_of_eq start.2⟩
          rw [start.1.number?_node hv, hplace]
        | range lower upper step =>
          obtain ⟨first, hfirst, hsteps⟩ := exists_of_bind_ok hsteps
          obtain ⟨stride, hstride, hsteps⟩ := exists_of_bind_ok hsteps
          obtain ⟨rest, hrest, hsteps⟩ := exists_of_bind_ok hsteps
          obtain rfl := Except.ok.inj hsteps
          exact ⟨_, rest, rfl, hrest, start.1.number?_node hfirst, start.2.number?_node hstride⟩

/-- The names of sizes hold the sizes of evaluation. -/
theorem mapM_index?_sizes {sizes : Shape} {names : List Name}
    (h : List.Forall₂ (HoldsSize ctx val M) sizes names) (hsized : ∀ d ∈ sizes, Meaning.Sized val d) :
    ∀ {ns : List Nat}, Meaning.dims ctx val sizes = .ok ns → names.mapM M.index? = some ns := by
  induction h with
  | nil =>
    intro ns hns
    obtain rfl := Except.ok.inj hns
    rfl
  | @cons d name sizes names hname _ ih =>
    intro ns hns
    rw [Meaning.dims, List.mapM_cons] at hns
    obtain ⟨n, hn, hns⟩ := exists_of_bind_ok hns
    obtain ⟨rest, hrest, hns⟩ := exists_of_bind_ok hns
    obtain rfl := Except.ok.inj hns
    obtain ⟨hd, hsized⟩ := List.forall_mem_cons.mp hsized
    rw [List.mapM_cons, hname.index? hd hn, ih hsized hrest]
    rfl

/-! ## Statements -/

variable {src : Name} {target dst : NodeId} {selected : List SliceIndex} {sizes : Shape}
  {shape ns : List Nat} {data : Array Literal} {k : Nat}

/-- Dropping the axes of length one in front keeps the elements. -/
theorem SliceEnds.exec {lo hi : Nat} {buffer : Operand} {name : Name} {after : List Buffer.Stmt}
    (h : SliceEnds ctx.graph target dst lo hi buffer name after) (M : Buffer.Store)
    (hholds : V.Holds buffer.name ns data) (hfree : ∀ l : Nat, lo ≤ l → V.views (.numbered l) = none)
    (hk : k < ns.length) (hones : ∀ n ∈ ns.take k, n = 1)
    (htarget : (ctx.graph.shape target).length = ns.length)
    (hdst : (ctx.graph.shape dst).length = ns.length - k) :
    ∃ V', Machine.execAll after ⟨M, V⟩ = some ⟨M, V'⟩ ∧ V.Extends V' ∧
      V'.Holds name (ns.drop k) data := by
  cases h with
  | same hrank hname =>
    have hzero : k = 0 := by omega
    rw [hzero, hname]
    exact ⟨V, rfl, .refl V, hholds⟩
  | @merged l ty hrank hname hlo hhi =>
    obtain ⟨v, hv, rfl, hshows⟩ := hholds
    have hdropped : (ctx.graph.shape target).length - (ctx.graph.shape dst).length = k := by omega
    have hflatten := flatten_collapsedAxes hk
    have hnew : V.views name.key = none := hname ▸ hfree l hlo
    let merged := v.collapse (collapsedAxes k v.sizes.length)
    have hvalid : merged.block < V.blocks :=
      show v.block < V.blocks from V.valid hv
    refine ⟨V.bind name merged hvalid, ?_, Memory.extends_bind hnew hvalid, merged, if_pos rfl,
      View.sizes_collapse hk hones, (Memory.shows_collapse hshows hflatten).congr rfl⟩
    rw [hdropped, htarget]
    exact Machine.execAll_cons (Machine.exec_collapseShape hv hflatten)

/-- The view and the copy of it hold what the slice reads. -/
theorem SliceEmits.exec {stmts : List Buffer.Stmt}
    (h : SliceEmits ctx val src target selected sizes dst s s' M stmts)
    (hfree : ∀ l : Nat, s.counter ≤ l → V.views (.numbered l) = none)
    (hsrc : V.Holds src shape data) {steps : List (Int64 × Int64)} {out : List Literal}
    (hrank : sizes.length = shape.length) (hsteps : Meaning.starts val selected shape = .ok steps)
    (hns : Meaning.dims ctx val sizes = .ok ns) (hsized : ∀ d ∈ sizes, Meaning.Sized val d)
    (hreads : Index.Reads shape data (Index.numbers steps) ns out)
    (hk : k < ns.length) (hones : ∀ n ∈ ns.take k, n = 1)
    (htarget : (ctx.graph.shape target).length = ns.length)
    (hdst : (ctx.graph.shape dst).length = ns.length - k) :
    ∃ M' V' n, Machine.execAll stmts ⟨M, V⟩ = some ⟨M', V'⟩ ∧ s'.lookup dst = some n ∧
      V'.Holds n (ns.drop k) out.toArray ∧ V.Extends V' := by
  cases h with
  | @intro before between after i j name views bufferSizes sz viewType M₁ M₂ hbefore hbeforeNumeric
      hviews hbetween hbetweenNumeric hbuffer hview hbufferNew hend hname =>
    obtain ⟨v, hv, rfl, hshows⟩ := hsrc
    -- The view of the region.
    obtain ⟨hoffsets, hstrides⟩ := hviews.starts hrank hsteps
    have hviewSizes := mapM_index?_sizes hviews.sizes hsized hns
    let view : Name := .numbered "view" i
    let buffer : Name := .numbered "buf" j
    let region := v.region (Index.numbers steps) ns
    have hvalid : region.block < V.blocks :=
      show v.block < V.blocks from V.valid hv
    let V₁ := V.bind view region hvalid
    have hext₁ : V.Extends V₁ := Memory.extends_bind (hfree i hview) hvalid
    have hregion : V₁.views view.key = some region := if_pos rfl
    have hfree₁ : ∀ l : Nat, i < l → V₁.views (.numbered l) = none := fun l hl =>
      (if_neg (NameKey.numbered_ne (Nat.ne_of_gt hl))).trans (hfree l (by omega))
    have hreads₁ : V₁.Shows region out := (Memory.shows_region hshows hreads).congr rfl
    -- The buffer and the copy.
    obtain ⟨sizes', hsizes', hextents⟩ := exists_extents hns hsized hbuffer
    have hnew : V₁.views buffer.key = none := hfree₁ j hbufferNew
    obtain ⟨V₂, hcopy, hext₂, hviews₂, -, hshows₂⟩ :=
      Memory.exists_copy hreads₁ (V₁.valid hregion) hnew
    have hholds₂ : V₂.Holds buffer ns out.toArray := by
      refine ⟨.whole V₁.blocks region.sizes, ?_, rfl, hshows₂⟩
      rw [hviews₂]
      exact if_pos rfl
    have hfree₂ : ∀ l : Nat, j + 1 ≤ l → V₂.views (.numbered l) = none := fun l hl => by
      rw [hviews₂]
      exact (if_neg (NameKey.numbered_ne (by omega))).trans (hfree₁ l (by omega))
    obtain ⟨V₃, hafter, hext₃, hholds₃⟩ := hend.exec M₂ hholds₂ hfree₂ hk hones htarget hdst
    refine ⟨M₂, V₃, name, ?_, hname, hholds₃, (hext₁.trans hext₂).trans hext₃⟩
    have hallocated : (V₁.alloc buffer ns).views buffer.key = some (.whole V₁.blocks ns) := if_pos rfl
    have hkept : (V₁.alloc buffer ns).views view.key = some region :=
      (if_neg (NameKey.numbered_ne (Nat.ne_of_lt hbufferNew))).trans hregion
    calc Machine.execAll _ ⟨M, V⟩
        = Machine.execAll _ ⟨M₁, V⟩ :=
          Machine.execAll_append (Machine.execAll_numeric hbeforeNumeric hbefore V)
      _ = Machine.execAll _ ⟨M₁, V₁⟩ :=
          Machine.execAll_cons (Machine.exec_subView hv hoffsets hstrides hviewSizes)
      _ = Machine.execAll _ ⟨M₂, V₁⟩ :=
          Machine.execAll_append (Machine.execAll_numeric hbetweenNumeric hbetween V₁)
      _ = Machine.execAll _ ⟨M₂, V₁.alloc buffer ns⟩ :=
          Machine.execAll_cons (Machine.exec_alloc hsizes' hextents)
      _ = Machine.execAll after ⟨M₂, V₂⟩ :=
          Machine.execAll_cons (Machine.exec_copy hkept hallocated hcopy)
      _ = some ⟨M₂, V₃⟩ := hafter

end LowerM

end TensorKernel
