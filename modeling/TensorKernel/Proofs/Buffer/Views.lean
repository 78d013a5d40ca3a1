import TensorKernel.Proofs.Buffer.Cells
import TensorKernel.Proofs.Eval.Picks

/-!
# Views of memory

Every buffer has a block of memory, and a name stands for a view of a block: the sizes of the view, and
where in the block the element of an index vector is.  A view of a region picks the places of the
region, and a view with merged axes counts the index vectors of each group in row-major order.

`Buffer.Machine` has numbers and memory.  It runs the statements that make views and copy elements,
and those on numbers; others are not run.  Elements are kept as they are, so they may be of any type.
-/

namespace TensorKernel

namespace Index

/-! ## Merged axes -/

/-- The index vectors of a shape that is made of two. -/
theorem enumerate_append (shape rest : List Nat) : enumerate (shape ++ rest) =
    (enumerate shape).flatMap fun idx => (enumerate rest).map (idx ++ ·) := by
  induction shape with
  | nil => simp [enumerate]
  | cons n shape ih =>
    rw [List.cons_append, enumerate, enumerate, ih, List.flatMap_assoc]
    refine List.flatMap_congr fun i _ => ?_
    rw [List.map_flatMap, List.flatMap_map]
    refine List.flatMap_congr fun idx _ => ?_
    rw [List.map_map]
    rfl

/--
The index vector that stands for one along merged axes.  The axes are given in their groups, and the
index along a group counts the index vectors of the group in row-major order.
-/
def split? : List (List Nat) → List Nat → Option (List Nat)
  | group :: groups, i :: idx => do
    let part ← (enumerate group)[i]?
    let rest ← split? groups idx
    some (part ++ rest)
  | [], [] => some []
  | _, _ => none

/-- Merging axes keeps the row-major order. -/
theorem forall₂_split (groups : List (List Nat)) :
    List.Forall₂ (fun idx whole => split? groups idx = some whole) (enumerate (groups.map size))
      (enumerate groups.flatten) := by
  induction groups with
  | nil => exact .cons rfl .nil
  | cons group groups ih =>
    have hparts : List.Forall₂ (fun i part => (enumerate group)[i]? = some part)
        (List.range (size group)) (enumerate group) := by
      refine List.forall₂_iff_get.mpr ⟨by rw [List.length_range, length_enumerate], fun i _ hi => ?_⟩
      simp [List.getElem?_eq_getElem hi]
    rw [List.flatten_cons, enumerate_append]
    refine List.rel_flatMap hparts fun i part hpart => ?_
    rw [List.forall₂_map_left_iff, List.forall₂_map_right_iff]
    refine ih.imp fun idx rest hrest => ?_
    rw [split?, hpart, hrest]
    rfl

end Index

namespace Buffer

/-! ## Views -/

/-- A view of a block: its sizes, and where in the block the element of an index vector is. -/
structure View where
  block : Nat
  sizes : List Nat
  place : List Nat → Option (List Nat)

namespace View

/-- A block with its own index vectors. -/
def whole (block : Nat) (sizes : List Nat) : View :=
  ⟨block, sizes, fun idx => if (Index.enumerate sizes).contains idx then some idx else none⟩

theorem place_whole {block : Nat} {sizes idx : List Nat} (hidx : idx ∈ Index.enumerate sizes) :
    (whole block sizes).place idx = some idx :=
  if_pos (List.contains_iff_mem.mpr hidx)

/-- The region of a view that has the places `start + i * step` along each axis. -/
def region (v : View) (steps : List (Int × Int)) (sizes : List Nat) : View :=
  ⟨v.block, sizes, fun idx =>
    if (Index.enumerate sizes).contains idx then (Index.pick? v.sizes steps idx).bind v.place
    else none⟩

theorem place_region {v : View} {steps : List (Int × Int)} {sizes idx : List Nat}
    (hidx : idx ∈ Index.enumerate sizes) :
    (v.region steps sizes).place idx = (Index.pick? v.sizes steps idx).bind v.place :=
  if_pos (List.contains_iff_mem.mpr hidx)

@[simp]
theorem block_region (v : View) (steps : List (Int × Int)) (sizes : List Nat) :
    (v.region steps sizes).block = v.block := rfl

/-- The sizes of a view in groups of axes. -/
def groups (v : View) (axes : List (List Nat)) : List (List Nat) :=
  axes.map fun group => group.map fun axis => v.sizes.getD axis 0

/-- A view with merged axes. -/
def collapse (v : View) (axes : List (List Nat)) : View :=
  ⟨v.block, (v.groups axes).map Index.size, fun idx =>
    (Index.split? (v.groups axes) idx).bind v.place⟩

@[simp]
theorem block_collapse (v : View) (axes : List (List Nat)) : (v.collapse axes).block = v.block := rfl

end View

/-! ## Memory -/

/-- Blocks with the elements that were written to them, and the views of them that names stand for. -/
structure Memory where
  views : NameKey → Option View
  blocks : Nat
  cells : Nat → List Nat → Option Literal
  valid : ∀ {key v}, views key = some v → v.block < blocks

namespace Memory

/-- The memory with one block, which holds the elements of a tensor, and a name for it. -/
def ofTensor (n : Name) (shape : List Nat) (data : Array Literal) : Memory where
  views key := if key = n.key then some (.whole 0 shape) else none
  blocks := 1
  cells _ idx := data[Index.linear shape idx]?
  valid {key w} h := by
    split at h
    · obtain rfl := Option.some.inj h
      exact Nat.one_pos
    · cases h

/-- An element of a view. -/
def read? (V : Memory) (v : View) (idx : List Nat) : Option Literal :=
  (v.place idx).bind (V.cells v.block)

/-- The memory after an element of a view was written. -/
def write? (V : Memory) (v : View) (idx : List Nat) (x : Literal) : Option Memory := do
  let place ← v.place idx
  some { V with
    cells := fun block other =>
      if block = v.block ∧ other = place then some x else V.cells block other }

/-- The memory in which a name stands for a view of a block. -/
def bind (V : Memory) (n : Name) (v : View) (hv : v.block < V.blocks) : Memory where
  views key := if key = n.key then some v else V.views key
  blocks := V.blocks
  cells := V.cells
  valid {key w} h := by
    split at h
    · obtain rfl := Option.some.inj h
      exact hv
    · exact V.valid h

/-- The memory with one more block, nothing of which is written, and a name for it. -/
def alloc (V : Memory) (n : Name) (sizes : List Nat) : Memory where
  views key := if key = n.key then some (.whole V.blocks sizes) else V.views key
  blocks := V.blocks + 1
  cells block := if block = V.blocks then fun _ => none else V.cells block
  valid {key w} h := by
    split at h
    · obtain rfl := Option.some.inj h
      exact Nat.lt_succ_self V.blocks
    · exact Nat.lt_succ_of_lt (V.valid h)

/-- The memory in which a name stands for a view of the block that another name stands for. -/
def derive? (V : Memory) (dst src : Name) (f : View → View) (hf : ∀ v, (f v).block = v.block) :
    Option Memory :=
  match h : V.views src.key with
  | some v => some (V.bind dst (f v) (by rw [hf]; exact V.valid h))
  | none => none

/-- The memory after the elements of a view were copied to another one, one after another. -/
def copy? (V : Memory) (src dst : View) : Option Memory :=
  if src.sizes = dst.sizes then
    (Index.enumerate src.sizes).foldlM (fun V idx => do
      let x ← V.read? src idx
      V.write? dst idx x) V
  else none

end Memory

/-! ## Statements -/

/-- The numbers that names hold, and the memory. -/
structure Machine where
  numbers : Store
  memory : Memory

namespace Machine

/-- The machine after a statement on numbers or on views. -/
def exec : Stmt → Machine → Option Machine
  | .alloc dst sizes (.memref _ shape), X => do
    let sizes ← sizes.mapM X.numbers.index?
    let sizes ← extents shape sizes
    some { X with memory := X.memory.alloc dst sizes }
  | .copy src dst, X => do
    let v ← X.memory.views src.name.key
    let w ← X.memory.views dst.name.key
    let V ← X.memory.copy? v w
    some { X with memory := V }
  | .subView dst src offsets sizes strides _, X => do
    let offsets ← offsets.mapM X.numbers.number?
    let sizes ← sizes.mapM X.numbers.index?
    let strides ← strides.mapM X.numbers.number?
    let V ← X.memory.derive? dst src.name (fun v => v.region (offsets.zip strides) sizes)
      fun v => v.block_region _ _
    some { X with memory := V }
  | .collapseShape dst src axes _, X => do
    let v ← X.memory.views src.name.key
    if axes.flatten = List.range v.sizes.length then do
      let V ← X.memory.derive? dst src.name (fun v => v.collapse axes) fun v => v.block_collapse axes
      some { X with memory := V }
    else none
  | s, X =>
    if s.isNumeric then (s.exec X.numbers).map fun M => { X with numbers := M } else none

/-- The machine after some statements. -/
def execAll (stmts : List Stmt) (X : Machine) : Option Machine :=
  stmts.foldlM (fun X s => exec s X) X

theorem execAll_append {stmts stmts' : List Stmt} {X X' : Machine} (h : execAll stmts X = some X') :
    execAll (stmts ++ stmts') X = execAll stmts' X' := by
  unfold execAll at h ⊢
  rw [List.foldlM_append, h]
  rfl

theorem execAll_cons {s : Stmt} {stmts : List Stmt} {X X' : Machine} (h : exec s X = some X') :
    execAll (s :: stmts) X = execAll stmts X' := by
  show (exec s X >>= fun X => execAll stmts X) = _
  rw [h]
  rfl

theorem exec_numeric {s : Stmt} (hs : s.isNumeric = true) (M : Store) (V : Memory) :
    exec s ⟨M, V⟩ = (s.exec M).map fun M' => ⟨M', V⟩ := by
  cases s with
  | constant | arith | compare | select | cast => rfl
  | _ => cases hs

/-- Statements on numbers leave the memory as it is. -/
theorem execAll_numeric {stmts : List Stmt} {M M' : Store} (hstmts : ∀ s ∈ stmts, s.isNumeric = true)
    (h : Buffer.execAll stmts M = some M') (V : Memory) : execAll stmts ⟨M, V⟩ = some ⟨M', V⟩ := by
  induction stmts generalizing M with
  | nil =>
    obtain rfl := Option.some.inj h
    rfl
  | cons s stmts ih =>
    obtain ⟨hs, hstmts⟩ := List.forall_mem_cons.mp hstmts
    obtain ⟨M₁, hexec, h⟩ := Option.bind_eq_some_iff.mp
      (show (s.exec M).bind (fun M => Buffer.execAll stmts M) = some M' from h)
    have hstep : exec s ⟨M, V⟩ = some ⟨M₁, V⟩ := by
      rw [exec_numeric hs, hexec]
      rfl
    rw [execAll_cons hstep]
    exact ih hstmts h

end Machine

/-! ## What views show -/

namespace Memory

variable {V V' : Memory} {v : View} {n : Name} {shape : List Nat} {data : Array Literal}
  {out : List Literal}

/-- The elements of a view in row-major order. -/
def Shows (V : Memory) (v : View) (out : List Literal) : Prop :=
  List.Forall₂ (fun idx x => V.read? v idx = some x) (Index.enumerate v.sizes) out

/-- A name stands for a view that has the sizes of a tensor and its elements in row-major order. -/
def Holds (V : Memory) (n : Name) (shape : List Nat) (data : Array Literal) : Prop :=
  ∃ v, V.views n.key = some v ∧ v.sizes = shape ∧ V.Shows v data.toList

/-- The second memory has the views of the first one, and the same elements in its blocks. -/
structure Extends (V V' : Memory) : Prop where
  views : ∀ {key v}, V.views key = some v → V'.views key = some v
  blocks : V.blocks ≤ V'.blocks
  cells : ∀ {block}, block < V.blocks → V'.cells block = V.cells block

theorem Extends.refl (V : Memory) : V.Extends V :=
  ⟨fun hv => hv, Nat.le_refl _, fun _ => rfl⟩

theorem Extends.trans {V'' : Memory} (h : V.Extends V') (h' : V'.Extends V'') : V.Extends V'' where
  views hv := h'.views (h.views hv)
  blocks := h.blocks.trans h'.blocks
  cells hblock := (h'.cells (Nat.lt_of_lt_of_le hblock h.blocks)).trans (h.cells hblock)

theorem Shows.congr (h : V.Shows v out) (hcells : V'.cells v.block = V.cells v.block) :
    V'.Shows v out := by
  refine List.Forall₂.imp (fun idx x hx => ?_) h
  rw [read?, hcells]
  exact hx

/-- A new name for a view changes no other name. -/
theorem extends_bind (hfree : V.views n.key = none) (hv : v.block < V.blocks) :
    V.Extends (V.bind n v hv) where
  views {key w} hw := by
    have hne : key ≠ n.key := by
      rintro rfl
      rw [hfree] at hw
      cases hw
    exact (if_neg hne).trans hw
  blocks := Nat.le_refl _
  cells _ := rfl

theorem derive?_eq {dst src : Name} {f : View → View} {hf : ∀ v, (f v).block = v.block}
    (h : V.views src.key = some v) :
    V.derive? dst src f hf = some (V.bind dst (f v) (by rw [hf]; exact V.valid h)) := by
  unfold derive?
  split
  · next w hw =>
    obtain rfl := Option.some.inj (h.symm.trans hw)
    rfl
  · next hnone =>
    rw [h] at hnone
    cases hnone

/-- The element of an index vector is the one at its place. -/
theorem Shows.read (h : V.Shows v out) {idx : List Nat} (hidx : Index.InRange v.sizes idx) :
    V.read? v idx = out[Index.linear v.sizes idx]? := by
  obtain ⟨x, hx, hread⟩ := hidx.exists_getElem? h
  rw [hread, hx]

/-- A tensor that has all its elements is held by its own memory. -/
theorem holds_ofTensor (n : Name) (hsize : data.size = Index.size shape) :
    (ofTensor n shape data).Holds n shape data := by
  have hlength : (Index.enumerate shape).length = data.toList.length := by
    rw [Index.length_enumerate, Array.length_toList, hsize]
  have hread : List.Forall₂ (fun idx x => (ofTensor n shape data).read? (.whole 0 shape) idx = some x)
      (Index.enumerate shape) data.toList := by
    refine List.forall₂_iff_get.mpr ⟨hlength, fun i hi hi' => ?_⟩
    have hcell : data[Index.linear shape (Index.enumerate shape)[i]]? = some data.toList[i] := by
      rw [Index.linear_getElem_enumerate hi]
      exact Array.getElem?_eq_getElem hi'
    show ((View.whole 0 shape).place (Index.enumerate shape)[i]).bind _ = _
    rw [View.place_whole (List.getElem_mem hi)]
    exact hcell
  exact ⟨.whole 0 shape, if_pos rfl, rfl, hread⟩

/-- A region shows the elements that it picks. -/
theorem shows_region (h : V.Shows v data.toList) {steps : List (Int × Int)} {ns : List Nat}
    (hreads : Index.Reads v.sizes data steps ns out) : V.Shows (v.region steps ns) out := by
  refine List.Forall₂.imp (fun idx x ⟨hidx, source, hpick, hx⟩ => ?_)
    ((List.forall₂_and_left _ _).mpr ⟨fun _ h => h, hreads⟩)
  have hplace : (v.region steps ns).place idx = v.place source :=
    (View.place_region hidx).trans (by rw [hpick]; rfl)
  have hread : V.read? v source = data.toList[Index.linear v.sizes source]? :=
    h.read (Index.inRange_of_pick? hpick)
  rw [Array.getElem?_toList, hx] at hread
  rw [read?, hplace]
  exact hread

/-- Merging axes keeps the elements in their order. -/
theorem shows_collapse (h : V.Shows v out) {axes : List (List Nat)}
    (haxes : axes.flatten = List.range v.sizes.length) : V.Shows (v.collapse axes) out := by
  have hflatten : (v.groups axes).flatten = v.sizes := by
    have hmap : (v.groups axes).flatten = axes.flatten.map fun axis => v.sizes.getD axis 0 :=
      List.map_flatten.symm
    rw [hmap, haxes]
    refine List.ext_getElem (by simp) fun i hi hi' => ?_
    simp [hi']
  have hsplit : List.Forall₂ (fun idx whole => Index.split? (v.groups axes) idx = some whole)
      (Index.enumerate (v.collapse axes).sizes) (Index.enumerate v.sizes) := by
    rw [← hflatten]
    exact Index.forall₂_split (v.groups axes)
  obtain ⟨hlength, hget⟩ := List.forall₂_iff_get.mp hsplit
  obtain ⟨hlength', hget'⟩ := List.forall₂_iff_get.mp h
  refine List.forall₂_iff_get.mpr ⟨hlength.trans hlength', fun i hi hi' => ?_⟩
  have hplace : (v.collapse axes).place ((Index.enumerate (v.collapse axes).sizes).get ⟨i, hi⟩) =
      v.place ((Index.enumerate v.sizes).get ⟨i, hlength ▸ hi⟩) :=
    congrArg (Option.bind · v.place) (hget i hi (hlength ▸ hi))
  rw [read?, hplace]
  exact hget' i (hlength ▸ hi) hi'

/-- Elements that can be read are copied to another block, one after another. -/
theorem exists_foldlM_copy {block : Nat} (hne : v.block ≠ block) {sizes : List Nat}
    {idxs : List (List Nat)} : ∀ {V : Memory}, (∀ idx ∈ idxs, idx ∈ Index.enumerate sizes) →
    (∀ idx ∈ idxs, (V.read? v idx).isSome) →
    ∃ V', idxs.foldlM (fun V idx => do
        let x ← V.read? v idx
        V.write? (.whole block sizes) idx x) V = some V' ∧ V'.views = V.views ∧
      V'.blocks = V.blocks ∧ (∀ other ≠ block, V'.cells other = V.cells other) ∧
      ∀ idx, V'.cells block idx = if idx ∈ idxs then V.read? v idx else V.cells block idx := by
  induction idxs with
  | nil => exact fun _ _ => ⟨_, rfl, rfl, rfl, fun _ _ => rfl, fun _ => rfl⟩
  | cons idx idxs ih =>
    intro V hlisted hread
    obtain ⟨hidx, hlisted⟩ := List.forall_mem_cons.mp hlisted
    obtain ⟨hfirst, hread⟩ := List.forall_mem_cons.mp hread
    obtain ⟨x, hx⟩ := Option.isSome_iff_exists.mp hfirst
    let next : Memory := { V with
      cells := fun b other => if b = block ∧ other = idx then some x else V.cells b other }
    have hwrite : V.write? (.whole block sizes) idx x = some next := by
      show ((View.whole block sizes).place idx).bind _ = _
      rw [View.place_whole hidx]
      rfl
    have hcells : ∀ other ≠ block, next.cells other = V.cells other := fun other hother =>
      funext fun _ => if_neg fun h => hother h.1
    -- The source is in another block, so it is read as before.
    have hsame : next.read? v = V.read? v := funext fun idx => by
      rw [read?, read?, hcells _ hne]
    obtain ⟨V', hrun, hviews, hblocks, hothers, hcopied⟩ :=
      @ih next hlisted (by rw [hsame]; exact hread)
    refine ⟨V', ?_, hviews, hblocks, fun other h => (hothers other h).trans (hcells other h),
      fun other => ?_⟩
    · rw [List.foldlM_cons, hx]
      show (V.write? _ _ _ >>= _) = _
      rw [hwrite]
      exact hrun
    · rw [hcopied, hsame]
      by_cases hlater : other ∈ idxs
      · rw [if_pos hlater, if_pos (List.mem_cons_of_mem idx hlater)]
      · by_cases heq : other = idx
        · subst heq
          rw [if_neg hlater, if_pos (List.mem_cons_self ..), hx]
          exact if_pos ⟨rfl, rfl⟩
        · rw [if_neg hlater, if_neg (by simp [heq, hlater])]
          exact if_neg fun h => heq h.2

/-- Copying a view to a new block gives the block its elements. -/
theorem exists_copy (h : V.Shows v out) (hv : v.block < V.blocks) (hfree : V.views n.key = none) :
    ∃ V', (V.alloc n v.sizes).copy? v (.whole V.blocks v.sizes) = some V' ∧ V.Extends V' ∧
      V'.views = (V.alloc n v.sizes).views ∧ V'.blocks = V.blocks + 1 ∧
      V'.Shows (.whole V.blocks v.sizes) out := by
  -- The new block lies behind all others, so writing to it leaves what is read alone.
  have hne : v.block ≠ V.blocks := Nat.ne_of_lt hv
  have hcells : ∀ block, block < V.blocks → (V.alloc n v.sizes).cells block = V.cells block :=
    fun block hblock => if_neg (Nat.ne_of_lt hblock)
  have hshows : (V.alloc n v.sizes).Shows v out := h.congr (hcells _ hv)
  have hread : ∀ idx ∈ Index.enumerate v.sizes, ((V.alloc n v.sizes).read? v idx).isSome := by
    intro idx hidx
    obtain ⟨i, hi, rfl⟩ := List.getElem_of_mem hidx
    obtain ⟨hlength, hget⟩ := List.forall₂_iff_get.mp hshows
    exact Option.isSome_iff_exists.mpr ⟨_, hget i hi (hlength ▸ hi)⟩
  obtain ⟨V', hrun, hviews, hblocks, hothers, hcopied⟩ :=
    exists_foldlM_copy hne (fun _ hidx => hidx) hread
  refine ⟨V', (if_pos rfl).trans hrun, ⟨fun {key w} hw => ?_, ?_, fun {block} hblock => ?_⟩, hviews,
    hblocks, ?_⟩
  · rw [hviews]
    refine (if_neg ?_).trans hw
    rintro rfl
    rw [hfree] at hw
    cases hw
  · rw [hblocks]
    exact Nat.le_succ _
  · exact (hothers block (Nat.ne_of_lt hblock)).trans (hcells block hblock)
  · refine List.Forall₂.imp (fun idx x ⟨hidx, hx⟩ => ?_)
      ((List.forall₂_and_left _ _).mpr ⟨fun _ h => h, hshows⟩)
    have hplace : (View.whole V.blocks v.sizes).place idx = some idx := View.place_whole hidx
    rw [read?, hplace]
    exact (hcopied idx).trans ((if_pos hidx).trans hx)

end Memory

/-! ## Statements on views -/

namespace Machine

variable {M : Store} {V : Memory} {v : View} {dst : Name} {src : Operand} {ty : Ty}

theorem exec_subView {offsets sizes strides : List Name} {steps : List (Int × Int)} {ns : List Nat}
    (hsrc : V.views src.name.key = some v)
    (hoffsets : offsets.mapM M.number? = some (steps.map Prod.fst))
    (hstrides : strides.mapM M.number? = some (steps.map Prod.snd))
    (hsizes : sizes.mapM M.index? = some ns) :
    exec (.subView dst src offsets sizes strides ty) ⟨M, V⟩ =
      some ⟨M, V.bind dst (v.region steps ns) (V.valid hsrc : v.block < V.blocks)⟩ := by
  have hsteps : (steps.map Prod.fst).zip (steps.map Prod.snd) = steps := by
    rw [List.zip_map', List.map_id']
  simp only [exec, hoffsets, hstrides, hsizes, hsteps, Memory.derive?_eq hsrc, Option.bind_eq_bind,
    Option.bind_some]

theorem exec_alloc {names : List Name} {sz : ElemSize} {shape : List (Option Int)} {sizes ns : List Nat}
    (hsizes : names.mapM M.index? = some sizes) (hextents : extents shape sizes = some ns) :
    exec (.alloc dst names (.memref sz shape)) ⟨M, V⟩ = some ⟨M, V.alloc dst ns⟩ := by
  simp only [exec, hsizes, hextents, Option.bind_eq_bind, Option.bind_some]

theorem exec_copy {dst : Operand} {w : View} {V' : Memory} (hsrc : V.views src.name.key = some v)
    (hdst : V.views dst.name.key = some w) (hcopy : V.copy? v w = some V') :
    exec (.copy src dst) ⟨M, V⟩ = some ⟨M, V'⟩ := by
  simp only [exec, hsrc, hdst, hcopy, Option.bind_eq_bind, Option.bind_some]

theorem exec_collapseShape {axes : List (List Nat)} (hsrc : V.views src.name.key = some v)
    (haxes : axes.flatten = List.range v.sizes.length) :
    exec (.collapseShape dst src axes ty) ⟨M, V⟩ =
      some ⟨M, V.bind dst (v.collapse axes) (V.valid hsrc : v.block < V.blocks)⟩ := by
  simp only [exec, hsrc, haxes, Memory.derive?_eq hsrc, Option.bind_eq_bind, Option.bind_some, if_true]

end Machine

end Buffer

end TensorKernel
