import TensorKernel.Proofs.Buffer.Cells
import TensorKernel.Proofs.Eval.Folding
import TensorKernel.Proofs.Execution.Region

/-!
# What reductions compute

The statements of a reduction fill a cell for every index vector of the result with the neutral
element and combine every element of the source with its cell.  What the cells hold in the end is the
tensor that evaluation gives, or the scalar if all axes are folded.

The cells change between the statements, so the steps from their allocation up to the loop are taken
as one: `LowerState.Filled` says what holds in between.
-/

namespace TensorKernel

open Buffer (Datum Operand)

/-! ## Names that are set aside -/

namespace LowerState.Agrees

variable {ctx : EvalContext} {val : Valuation} {s : LowerState} {M : Buffer.Store}

/-- Writing to a number that was taken but not used changes nothing that is known. -/
theorem set_reserved (h : s.Agrees ctx val M) (base : String) {j : Nat} (hj : j < s.counter)
    (hfree : M (.numbered j) = none) (d : Datum) : s.Agrees ctx val (M.set (.numbered base j) d) := by
  refine h.congr rfl h.blocks rfl (fun k hk => ?_) fun key d' hkey => ?_
  · rw [Buffer.Store.set_numbered_of_ne (by omega), h.unset k hk]
  · rw [Buffer.Store.set_of_ne, hkey]
    rintro rfl
    rw [show (Name.numbered base j).key = .numbered j from rfl, hfree] at hkey
    cases hkey

/-- Taking numbers changes nothing that is known, whatever was done. -/
theorem reserve (h : s.Agrees ctx val M) {n : Nat} (hn : s.counter ≤ n)
    (done : Array LowerAction) :
    ({ s with counter := n, history := done } : LowerState).Agrees ctx val M :=
  h.congr rfl h.blocks rfl (fun k hk => h.unset k (Nat.le_trans hn hk)) fun _ _ h => h

/-- Emitting a statement changes nothing that is known. -/
theorem push (h : s.Agrees ctx val M) (stmt : Buffer.Stmt) : (s.push stmt).Agrees ctx val M :=
  h.congr (push_scopes s stmt) (push_open h.blocks stmt) (push_symbols s stmt)
    (fun k hk => h.unset k (by rwa [push_counter] at hk)) fun _ _ h => h

/-- The cell and the two arguments of a region are written to numbers that were set aside. -/
theorem set_arguments (h : s.Agrees ctx val M) {j : Nat} (hj : j < s.counter)
    (hfree : M (.numbered j) = none) (base xBase accBase : String) (d x acc : Datum) :
    ({ s with counter := s.counter + 2 } : LowerState).Agrees ctx val
      (((M.set (.numbered base j) d).set (.numbered xBase s.counter) x).set
        (.numbered accBase (s.counter + 1 : Nat)) acc) := by
  have htaken := h.reserve (Nat.le_add_right _ 2) s.history
  have hxFree : (M.set (.numbered base j) d) (.numbered s.counter) = none := by
    rw [Buffer.Store.set_numbered_of_ne (by omega), h.unset _ (Nat.le_refl _)]
  have haccFree : ((M.set (.numbered base j) d).set (.numbered xBase s.counter) x)
      (.numbered (s.counter + 1 : Nat)) = none := by
    rw [Buffer.Store.set_numbered_of_ne (by omega), Buffer.Store.set_numbered_of_ne (by omega),
      h.unset _ (Nat.le_succ _)]
  have hcell := htaken.set_reserved base (Nat.lt_of_lt_of_le hj (Nat.le_add_right _ 2)) hfree d
  have hx := hcell.set_reserved xBase (show s.counter < s.counter + 2 by omega) hxFree x
  exact hx.set_reserved accBase (show s.counter + 1 < s.counter + 2 by omega) haccFree acc

end LowerState.Agrees

/--
Statements fill a new cell.  The first store and the second one are those before and after them, but
the second one is without the cell.
-/
structure LowerState.Filled (ctx : EvalContext) (val : Valuation) (stmts : List Buffer.Stmt)
    (s s' : LowerState) (M M' : Buffer.Store) (base : String) (j : Nat) (d : Datum) : Prop where
  block : s'.block = s.block ++ stmts
  exec : Buffer.execAll stmts M = some (M'.set (.numbered base j) d)
  taken : s.counter ≤ j ∧ j < s'.counter
  free : M' (.numbered j) = none
  keeps : Buffer.Store.Keeps s.counter M M'
  agrees : s'.Agrees ctx val M'

namespace LowerState.Filled

variable {ctx : EvalContext} {val : Valuation} {stmts : List Buffer.Stmt} {s s' : LowerState}
  {M M' : Buffer.Store} {base : String} {j : Nat} {d : Datum}

/-- A new cell is allocated and filled. -/
theorem new (hs : s.Agrees ctx val M) {base : String} {alloc fill : Buffer.Stmt} {d d' : Datum}
    (halloc : alloc.exec M = some (M.set (.numbered base s.counter) d))
    (hfill : fill.exec (M.set (.numbered base s.counter) d) =
      some (M.set (.numbered base s.counter) d')) :
    Filled ctx val [alloc, fill] s
      ((({ s with counter := s.counter + 1 } : LowerState).push alloc).push fill) M M base s.counter
        d' := by
  have hpushed := hs.fresh.push alloc
  refine ⟨?_, ?_, ⟨Nat.le_refl _, ?_⟩, hs.unset _ (Nat.le_refl _), .refl _ _, hpushed.push fill⟩
  · rw [block_push hpushed.blocks, block_push hs.fresh.blocks, List.append_assoc]
    rfl
  · show (alloc.exec M >>= fun M => fill.exec M >>= fun M => some M) = _
    rw [halloc]
    show (fill.exec _ >>= fun M => some M) = _
    rw [hfill]
    rfl
  · rw [push_counter, push_counter]
    exact Nat.lt_succ_self _

/-- Statements may come before the allocation. -/
theorem after {before : List Buffer.Stmt} {s₁ : LowerState} {M₁ : Buffer.Store}
    (hbefore : Executed ctx val before s s₁ M M₁) (h : Filled ctx val stmts s₁ s' M₁ M' base j d) :
    Filled ctx val (before ++ stmts) s s' M M' base j d where
  block := by rw [h.block, hbefore.block, List.append_assoc]
  exec := by rw [Buffer.execAll_append hbefore.exec, h.exec]
  taken := ⟨Nat.le_trans hbefore.counter h.taken.1, h.taken.2⟩
  free := h.free
  keeps := hbefore.keeps.trans hbefore.counter h.keeps
  agrees := h.agrees

/-- A last statement that fills the cell with something else makes the steps complete. -/
theorem executed (h : Filled ctx val stmts s s' M M' base j d) {s'' : LowerState}
    {stmt : Buffer.Stmt} {d' : Datum} (hblock : s''.block = s'.block ++ [stmt])
    (hcounter : s'.counter ≤ s''.counter) (hagrees : s''.Agrees ctx val M')
    (hexec : stmt.exec (M'.set (.numbered base j) d) = some (M'.set (.numbered base j) d')) :
    Executed ctx val (stmts ++ [stmt]) s s'' M (M'.set (.numbered base j) d') where
  block := by rw [hblock, h.block, List.append_assoc]
  exec := by
    rw [Buffer.execAll_append h.exec]
    show (stmt.exec _ >>= fun M => some M) = _
    rw [hexec]
    rfl
  counter := Nat.le_trans (Nat.le_trans h.taken.1 (Nat.le_of_lt h.taken.2)) hcounter
  keeps := h.keeps.trans (Nat.le_refl _) (Buffer.Store.keeps_set h.taken.1 base d')
  agrees := hagrees.set_reserved base (Nat.lt_of_lt_of_le h.taken.2 hcounter) h.free d'

end LowerState.Filled

/-! ## Cells -/

/-- Folding has a result if elements can be combined with cells. -/
theorem Meaning.exists_fold {combine : Literal → Literal → Except EvalFault Literal}
    (hcombine : ∀ v cell, ∃ w, combine v cell = .ok w) (axes out : List Nat) (data : Array Literal)
    (idxs : List (List Nat)) : ∀ (i : Nat) (cells : Array Literal), i + idxs.length ≤ data.size →
      (∀ idx ∈ idxs, Index.place out (Graph.withoutAxes axes idx) < cells.size) →
      ∃ result, fold combine axes out data idxs i cells = .ok result ∧ result.size = cells.size := by
  induction idxs with
  | nil => exact fun _ _ _ _ => ⟨_, rfl, rfl⟩
  | cons idx idxs ih =>
    intro i cells hcount hplaces
    rw [List.length_cons] at hcount
    obtain ⟨hplace, hplaces⟩ := List.forall_mem_cons.mp hplaces
    have hlt : i < data.size := by omega
    obtain ⟨w, hw⟩ := hcombine data[i] cells[Index.place out (Graph.withoutAxes axes idx)]
    let next := cells.setIfInBounds (Index.place out (Graph.withoutAxes axes idx)) w
    have hnext : next.size = cells.size := Array.size_setIfInBounds ..
    obtain ⟨result, hfold, hsize⟩ := ih (i + 1) next (by omega)
      fun idx' hidx' => hnext ▸ hplaces idx' hidx'
    have helement : element data i = .ok data[i] := by
      rw [element, Array.getElem?_eq_getElem hlt]
    have hcell : element cells (Index.place out (Graph.withoutAxes axes idx)) =
        .ok cells[Index.place out (Graph.withoutAxes axes idx)] := by
      rw [element, Array.getElem?_eq_getElem hplace]
    refine ⟨result, ?_, hsize.trans hnext⟩
    exact bind_of_ok helement (bind_of_ok hcell (bind_of_ok hw hfold))

namespace LowerM

open LowerState (Executed Filled Grows)

variable {ctx : EvalContext} {val : Valuation} {s : LowerState} {M : Buffer.Store} {k : Nat}

/-- The datum of a tensor with the same element everywhere. -/
theorem ofTensor_replicate (sz : ElemSize) (shape : List Nat) (w : Literal) :
    Datum.buffer shape (fun idx => if idx ∈ Index.enumerate shape then some (sz.number w) else none) =
      .ofTensor sz shape (Array.replicate (Index.size shape) w) :=
  congrArg (Datum.buffer shape) (Datum.cells_replicate w)

theorem grows_pushTwo (g : Graph) (s : LowerState) (stmt stmt' : Buffer.Stmt) :
    Grows g s ((({ s with counter := s.counter + 1 } : LowerState).push stmt).push stmt') :=
  (grows_emit g s stmt).trans (.push _ stmt')

section Cells

variable {start : Name} {w : Literal}

/-- Another name is written than one that holds something already. -/
theorem number?_of_new (hs : s.Agrees ctx val M) {n : Int} (hstart : M start.key = some (.number n))
    (base : String) (d : Datum) : (M.set (.numbered base s.counter) d).number? start = some n := by
  refine Buffer.Store.number?_of_eq ((Buffer.Store.set_of_ne fun h => ?_).trans hstart)
  have hfree : M (.numbered s.counter) = none := hs.unset _ (Nat.le_refl _)
  rw [h, show (Name.numbered base s.counter).key = .numbered s.counter from rfl, hfree] at hstart
  cases hstart

/-- The cell of a reduction over all axes holds the initial value. -/
theorem exists_scalarCell (hs : s.Agrees ctx val M) {sz : ElemSize}
    (hstart : M start.key = some (.number (sz.number w))) :
    ∃ (base : String) (j : Nat) (ty : Buffer.Ty) (s' : LowerState) (stmts : List Buffer.Stmt),
      scalarCell sz start s = .ok (⟨.numbered base j, ty⟩, s') ∧ Grows ctx.graph s s' ∧
      Filled ctx val stmts s s' M M base j
        (.ofTensor sz [] (Array.replicate (Index.size []) w)) := by
  refine ⟨"acc", s.counter, .memref sz [], _, _, rfl, grows_pushTwo _ _ _ _,
    Filled.new hs (d := .buffer [] fun _ => none) rfl ?_⟩
  have hempty : (M.set (.numbered "acc" s.counter) (.buffer [] fun _ => none)).buffer?
      (.numbered "acc" s.counter) = some ([], fun _ => none) := by
    rw [Buffer.Store.buffer?, Buffer.Store.set_self]
  simp only [Buffer.Stmt.exec, number?_of_new hs hstart, Option.bind_eq_bind, Option.bind_some,
    List.mapM_nil, Option.pure_def, Buffer.Store.store?, hempty, Buffer.Store.set_set,
    ← ofTensor_replicate, Index.enumerate, List.mem_singleton, if_true]

/-- The cells of a reduction over some axes hold the initial value. -/
theorem exists_tensorCell (k : Nat) (hs : s.Agrees ctx val M) {dst : NodeId}
    (hstart : M start.key = some (.number ((ctx.graph.elemSize dst).number w)))
    (hnamed : ∀ d ∈ ctx.graph.shape dst, s.Named d)
    (hcounts : ∀ id, .node id ∈ ctx.graph.shape dst → Meaning.Counts ctx val id)
    (hsized : ∀ d ∈ ctx.graph.shape dst, Meaning.Sized val d) {out : List Nat}
    (hout : Meaning.dims ctx val (ctx.graph.shape dst) = .ok out) :
    ∃ (base : String) (j : Nat) (ty : Buffer.Ty) (s' : LowerState) (stmts : List Buffer.Stmt)
      (M' : Buffer.Store), tensorCell ctx.graph (node ctx.graph (k + 1)) dst start s =
        .ok (⟨.numbered base j, ty⟩, s') ∧ Grows ctx.graph s s' ∧
      Filled ctx val stmts s s' M M' base j
        (.ofTensor (ctx.graph.elemSize dst) out (Array.replicate (Index.size out) w)) := by
  have hdims : ∀ d ∈ ctx.graph.shape dst, SuppliesDim ctx val (node ctx.graph (k + 1)) s d :=
    fun d hd => suppliesDim_of_named (hnamed d hd)
  obtain ⟨names, s₁, before, M₁, hrun, hgrows, hbefore, -, hnames⟩ :=
    performs_dynamicSizes hcounts hdims hs
  obtain ⟨sizes, hsizes, hextents⟩ := exists_extents hout hsized hnames
  have hstart₁ := hs.extends_of_keeps hbefore.keeps hstart
  -- Two statements: the buffer is allocated, and every cell of it is filled.
  let cell : Operand := ⟨.numbered "buf" s₁.counter,
    bufferType (ctx.graph.elemSize dst) (ctx.graph.shape dst)⟩
  let alloc : Buffer.Stmt := .alloc cell.name names cell.type
  let fill : Buffer.Stmt := .fill ⟨start, .scalar (ctx.graph.elemSize dst)⟩ cell
  have halloc : alloc.exec M₁ = some (M₁.set cell.name (.buffer out fun _ => none)) := by
    simp only [alloc, cell, bufferType_eq, Buffer.Stmt.exec, hsizes, hextents, Option.bind_eq_bind,
      Option.bind_some]
  have hempty : (M₁.set cell.name (.buffer out fun _ => none)).buffer? cell.name =
      some (out, fun _ => none) := by
    rw [Buffer.Store.buffer?, Buffer.Store.set_self]
  have hfill : fill.exec (M₁.set cell.name (.buffer out fun _ => none)) = some (M₁.set cell.name
      (.ofTensor (ctx.graph.elemSize dst) out (Array.replicate (Index.size out) w))) := by
    simp only [fill, Buffer.Stmt.exec, cell, number?_of_new hbefore.agrees hstart₁,
      Option.bind_eq_bind, Option.bind_some, Buffer.Store.fill?] at hempty ⊢
    rw [hempty, Option.bind_some, Buffer.Store.set_set, ofTensor_replicate]
  have hrun' : tensorCell ctx.graph (node ctx.graph (k + 1)) dst start s =
      .ok (cell, (({ s₁ with counter := s₁.counter + 1 } : LowerState).push alloc).push fill) := by
    have hcell : allocNode ctx.graph (node ctx.graph (k + 1)) dst s =
        .ok (cell, ({ s₁ with counter := s₁.counter + 1 } : LowerState).push alloc) := run_bind hrun
    exact run_bind hcell
  exact ⟨"buf", s₁.counter, _, _, _, M₁, hrun', hgrows.trans (grows_pushTwo _ _ _ _),
    .after hbefore (.new hbefore.agrees halloc hfill)⟩

end Cells

/-! ## Loops -/

section Loop

variable {e : Entry} {b : BinOp} {x acc inner dst arg : NodeId} {p : OpId}

/-- The loop of a reduction with the region that it runs. -/
def foldCells (g : Graph) (need : NodeId → LowerM Name) (pairs : List (NodeId × NodeId))
    (inner dst x acc arg : NodeId) (axes : List Nat) (src cell : Operand) : LowerM Unit := do
  let xName ← nodeName g x "in"
  let accName ← fresh "acc"
  let xArg : Operand := ⟨xName, .scalar (g.elemSize arg)⟩
  let accArg : Operand := ⟨accName, .scalar (g.elemSize dst)⟩
  let block ← bodyRegion g need ⟨pairs, [(inner, dst)]⟩ [(x, xArg), (acc, accArg)]
  emit (.reduce [src] [cell] axes [xArg, accArg] block)

theorem exists_nodeName (g : Graph) (id : NodeId) (use : String) (s : LowerState) :
    ∃ base, nodeName g id use s =
      .ok (.numbered base s.counter, { s with counter := s.counter + 1 }) := by
  unfold nodeName
  cases (g.node id).name with
  | some name => exact ⟨sanitize name, rfl⟩
  | none => exact ⟨use, rfl⟩

/-- The loop of a reduction leaves in its cells what evaluation computes. -/
theorem exists_foldCells (hbody : ctx.graph.FoldBody e b x acc inner dst p) (hc : ctx.graph.Coherent)
    (he : ctx.graph.EntryValid e) (k : Nat) (hs : s.Agrees ctx val M)
    (hfresh : s.lookup inner = none) (hvisited : s.isVisited p = false)
    (pairs : List (NodeId × NodeId)) (axes : List Nat) (base : String) (ty : Buffer.Ty) {j : Nat}
    (hj : j < s.counter) (hfree : M (.numbered j) = none) {src : Operand}
    (hsize : ctx.graph.elemSize x = ctx.graph.elemSize arg) {shape : List Nat} {data : Array Literal}
    (hsrc : M src.name.key = some (.ofTensor (ctx.graph.elemSize arg) shape data))
    (hholds : ∀ v ∈ data, (ctx.graph.elemSize arg).Holds v) (hexact : data.size = Index.size shape)
    (hfits : Index.size (Graph.withoutAxes axes shape) < Word.count) {start : Literal}
    (hstart : (ctx.graph.elemSize dst).Holds start) :
    ∃ s' stmt cells, foldCells ctx.graph (node ctx.graph (k + 2)) pairs inner dst x acc arg axes src
        ⟨.numbered base j, ty⟩ s = .ok ((), s') ∧ Grows ctx.graph s s' ∧ s.counter ≤ s'.counter ∧
      s'.block = s.block ++ [stmt] ∧ s'.Agrees ctx val M ∧
      Meaning.fold (fun v cell => Meaning.body ctx val [x, acc] inner dst [v, cell]) axes
        (Graph.withoutAxes axes shape) data (Index.rowMajor shape) 0
        (Array.replicate (Index.count (Graph.withoutAxes axes shape)) start) = .ok cells ∧
      cells.size = Index.size (Graph.withoutAxes axes shape) ∧
      stmt.exec (M.set (.numbered base j) (.ofTensor (ctx.graph.elemSize dst)
        (Graph.withoutAxes axes shape)
        (Array.replicate (Index.size (Graph.withoutAxes axes shape)) start))) =
        some (M.set (.numbered base j) (.ofTensor (ctx.graph.elemSize dst)
          (Graph.withoutAxes axes shape) cells)) := by
  obtain ⟨xBase, hxName⟩ := exists_nodeName ctx.graph x "in" s
  let xName : Name := .numbered xBase s.counter
  let accName : Name := .numbered "acc" (s.counter + 1 : Nat)
  let taken : LowerState := { s with counter := s.counter + 2 }
  have htaken : taken.Agrees ctx val M := hs.reserve (by omega) s.history
  obtain ⟨block, s₁, hregion, hs₁, hcounter, hblock⟩ := @exists_bodyRegion _ val _ taken _ _ _ _ _ _
    hbody hc he k htaken.scopes htaken.blocks hfresh hvisited pairs xName accName
  have hcombines : Buffer.Combines M (ctx.graph.elemSize arg) (ctx.graph.elemSize dst)
      (.numbered base j) xName accName
      (fun v cell => Meaning.body ctx val [x, acc] inner dst [v, cell])
      fun M => Buffer.run block M := by
    intro v cell hv hcell
    obtain ⟨w, hw, hvalue⟩ := hbody.exists_innerValue val v cell
    refine ⟨_, hvalue, Literal.holds_convert w _, fun d => ?_⟩
    rw [← hsize, ← hbody.cellSize] at *
    have hinside := hs.set_arguments hj hfree base xBase "acc" d
      (.number ((ctx.graph.elemSize x).number v)) (.number ((ctx.graph.elemSize acc).number cell))
    refine hblock hinside ?_ (Buffer.Store.set_self _ accName _) hv hcell hw
    exact (Buffer.Store.set_numbered_of_ne (by omega) _ _).trans (Buffer.Store.set_self _ xName _)
  have hne : src.name.key ≠ (Name.numbered base j).key := fun h => by
    rw [h, show (Name.numbered base j).key = .numbered j from rfl, hfree] at hsrc
    cases hsrc
  -- From here on the loop over the buffer is the fold over the index vectors.
  obtain ⟨cells, hfold, hcells, -, hloop⟩ := Buffer.reduce_tensor_agrees hcombines hsrc
    hne hholds hfits hexact hstart
  let stmt : Buffer.Stmt := .reduce [src] [⟨.numbered base j, ty⟩] axes
    [⟨xName, .scalar (ctx.graph.elemSize arg)⟩, ⟨accName, .scalar (ctx.graph.elemSize dst)⟩] block
  have hagrees : s₁.Agrees ctx val M := hs₁ ▸ htaken.reserve hcounter s₁.history
  refine ⟨s₁.push stmt, stmt, cells, ?_, ?_, ?_, ?_, hagrees.push stmt, hfold, hcells, ?_⟩
  · have haccName : fresh "acc" { s with counter := s.counter + 1 } = .ok (accName, taken) := rfl
    rw [hsize, hbody.cellSize] at hregion
    exact (run_bind hxName).trans ((run_bind haccName).trans (run_bind hregion))
  · refine .of_scopes_eq ?_ fun h => ?_
    · rw [LowerState.push_scopes, hs₁]
    · rwa [LowerState.Known, LowerState.push_symbols, hs₁]
  · rw [LowerState.push_counter]
    exact Nat.le_trans (Nat.le_add_right _ 2) hcounter
  · rw [LowerState.block_push hagrees.blocks, LowerState.block, hs₁]
    rfl
  · have hread := Buffer.Store.buffer?_ofTensor
      ((Buffer.Store.set_of_ne (d := .ofTensor (ctx.graph.elemSize dst) (Graph.withoutAxes axes shape)
        (Array.replicate (Index.size (Graph.withoutAxes axes shape)) start)) hne).trans hsrc)
    simp only [stmt, Buffer.Stmt.exec, hread, Option.bind_eq_bind, Option.bind_some]
    exact hloop

end Loop

/-! ## Reductions -/

/-- An operator stays unvisited as long as its result has no value. -/
theorem not_isVisited_of_grows {s' : LowerState} {M' : Buffer.Store} {inner : NodeId} {p : OpId}
    (hproducer : (ctx.graph.node inner).producer = some p) (hinner : ∀ v, val inner ≠ .ok v)
    (hgrows : Grows ctx.graph s s') (hagrees : s'.Agrees ctx val M') (hvisited : s.isVisited p = false) :
    s'.lookup inner = none ∧ s'.isVisited p = false := by
  have hnone : s'.lookup inner = none := Option.eq_none_iff_forall_ne_some.mpr fun n hn => by
    obtain ⟨v, hv, -⟩ := hagrees.node hn
    exact hinner v hv
  refine ⟨hnone, Bool.eq_false_iff.mpr fun h => ?_⟩
  rcases hgrows.visited h with h | h
  · rw [hvisited] at h
    cases h
  · have hbound := h inner hproducer
    rw [LowerState.Bound, hnone] at hbound
    cases hbound

section Reduction

variable {e : Entry} {b : BinOp} {axes : List Nat} {arg init x acc inner dst : NodeId} {p : OpId}
  {shape : List Nat} {data : Array Literal}
  (hbody : ctx.graph.FoldBody e b x acc inner dst p) (hc : ctx.graph.Coherent)
  (he : ctx.graph.EntryValid e) (hinner : ∀ v, val inner ≠ .ok v)
  (hsize : ctx.graph.elemSize x = ctx.graph.elemSize arg)
  (hholds : ∀ v ∈ data, (ctx.graph.elemSize arg).Holds v) (hexact : data.size = Index.size shape)
  (hfits : Index.size (Graph.withoutAxes axes shape) < Word.count)
include hbody hc he hinner hsize hholds hexact hfits

/-- New cells are filled with the initial value, and the loop leaves the result in them. -/
theorem performs_cells {steps : LowerM Operand} {start : Literal}
    (hcell : s.Agrees ctx val M → ∃ (base : String) (j : Nat) (ty : Buffer.Ty) (s₁ : LowerState)
      (stmts : List Buffer.Stmt) (M₁ : Buffer.Store), steps s = .ok (⟨.numbered base j, ty⟩, s₁) ∧
        Grows ctx.graph s s₁ ∧ Filled ctx val stmts s s₁ M M₁ base j
          (.ofTensor (ctx.graph.elemSize dst) (Graph.withoutAxes axes shape)
            (Array.replicate (Index.size (Graph.withoutAxes axes shape)) start)))
    (hstart : (ctx.graph.elemSize dst).Holds start) (hvisited : s.isVisited p = false) {src : Operand}
    (hsrc : M src.name.key = some (.ofTensor (ctx.graph.elemSize arg) shape data))
    (pairs : List (NodeId × NodeId)) :
    Performs (fun _ => True) ctx val (do
      let cell ← steps
      foldCells ctx.graph (node ctx.graph (k + 2)) pairs inner dst x acc arg axes src cell
      pure cell) s M fun _ M' cell => ∃ cells,
        Meaning.fold (fun v cell => Meaning.body ctx val [x, acc] inner dst [v, cell]) axes
          (Graph.withoutAxes axes shape) data (Index.rowMajor shape) 0
          (Array.replicate (Index.count (Graph.withoutAxes axes shape)) start) = .ok cells ∧
        cells.size = Index.size (Graph.withoutAxes axes shape) ∧
        M' cell.name.key = some (.ofTensor (ctx.graph.elemSize dst) (Graph.withoutAxes axes shape)
          cells) := by
  intro hs
  obtain ⟨base, j, ty, s₁, stmts, M₁, hrun, hgrows, hfilled⟩ := hcell hs
  obtain ⟨hfresh, hunvisited⟩ := not_isVisited_of_grows hbody.producer hinner hgrows hfilled.agrees
    hvisited
  obtain ⟨s₂, stmt, cells, hloop, hgrows₂, hcounter, hblock, hagrees, hfold, hcells, hexec⟩ :=
    exists_foldCells hbody hc he k hfilled.agrees hfresh hunvisited pairs axes base ty
      hfilled.taken.2 hfilled.free hsize (hs.extends_of_keeps hfilled.keeps hsrc) hholds hexact hfits
      hstart
  refine ⟨⟨.numbered base j, ty⟩, s₂, stmts ++ [stmt], _, ?_, hgrows.trans hgrows₂,
    hfilled.executed hblock hcounter hagrees hexec, fun _ _ => trivial, cells, hfold, hcells, ?_⟩
  · exact (run_bind hrun).trans (run_bind hloop)
  · exact Buffer.Store.set_self M₁ (.numbered base j) _

omit hbody hc he hinner hsize hholds hexact hfits in
/-- The steps of a reduction: cells are filled, the loop combines them, and the result is named. -/
theorem operator_reduction (g : Graph) (need : NodeId → LowerM Name) :
    operator g need ⟨.reduction axes ⟨[(arg, x), (init, acc)], [(inner, dst)]⟩ [init], [arg, init],
      [dst]⟩ = (do
        let src ← operand g need arg
        let start ← need init
        if g.isScalar dst then do
          let cell ← (do
            let cell ← scalarCell (g.elemSize dst) start
            foldCells g need [(arg, x), (init, acc)] inner dst x acc arg axes src cell
            pure cell)
          let v ← (do
            let v ← fresh "t"
            emit (.load v cell [])
            pure v)
          bind dst v
        else do
          let cell ← (do
            let cell ← tensorCell g need dst start
            foldCells g need [(arg, x), (init, acc)] inner dst x acc arg axes src cell
            pure cell)
          bind dst cell.name) := by
  unfold operator reduction
  cases hscalar : g.isScalar dst <;>
    simp only [hscalar, foldCells, bind_assoc, pure_bind, Bool.false_eq_true, if_false, if_true]

/-- A reduction computes what it evaluates to, and its result has a name. -/
theorem performs_reduction (harg : val arg = .ok (.tensor shape data))
    (hdims : Meaning.dims ctx val (ctx.graph.shape arg) = .ok shape) {c : Literal}
    (hconstant : (ctx.graph.node init).constant? = some c)
    (hinit : val init = .ok (.scalar (c.convert (ctx.graph.elemSize init))))
    (hinitSize : ctx.graph.elemSize init = ctx.graph.elemSize dst)
    (full : ctx.graph.isScalar dst = true → Graph.withoutAxes axes (ctx.graph.shape arg) = [])
    (partly : ctx.graph.isScalar dst = false →
      ctx.graph.shape dst = Graph.withoutAxes axes (ctx.graph.shape arg))
    (hdst : val dst = Meaning.reduction ctx val axes arg init [x, acc] inner dst)
    (hbound : s.Bound arg) (hvisited : s.isVisited p = false)
    (hnamed : ∀ d ∈ ctx.graph.shape dst, s.Named d)
    (hcounts : ∀ id, .node id ∈ ctx.graph.shape dst → Meaning.Counts ctx val id)
    (hsized : ∀ d ∈ ctx.graph.shape dst, Meaning.Sized val d) :
    Performs (fun _ => True) ctx val (operator ctx.graph (node ctx.graph (k + 2))
      ⟨.reduction axes ⟨[(arg, x), (init, acc)], [(inner, dst)]⟩ [init], [arg, init], [dst]⟩) s M
      fun s' M' _ => ∃ n v, s'.lookup dst = some n ∧ val dst = .ok v ∧
        M' n.key = some (.ofValue (ctx.graph.elemSize dst) v) := by
  have hfloat : (ctx.graph.elemSize dst).isFloatingPoint = false :=
    ElemSize.isFloatingPoint_of_isSignedInteger hbody.signed
  have hstart := Literal.holds_convert c (ctx.graph.elemSize dst)
  rw [hinitSize] at hinit
  rw [operator_reduction]
  refine (performs_operand hbound).bind fun src s₁ M₁ h₁ _ ⟨v, hv, hsrc⟩ => ?_
  obtain rfl := Except.ok.inj (hv.symm.trans harg)
  refine ((performs_constant hconstant (by rw [hinit, hinitSize])
    (hinitSize ▸ hfloat)).weaken fun _ _ => trivial).bind fun start s₂ M₂ h₂ hext₂ hinitial => ?_
  rw [hinitSize] at hinitial
  have hsrc₂ := hext₂ hsrc
  intro hs₂
  have hunvisited := (not_isVisited_of_grows hbody.producer hinner (h₁.trans h₂) hs₂ hvisited).2
  refine (?_ : Performs _ ctx val _ s₂ M₂ _) hs₂
  have hout : Meaning.dims ctx val (Graph.withoutAxes axes (ctx.graph.shape arg)) =
      .ok (Graph.withoutAxes axes shape) :=
    mapM_filterMap_zipIdx (fun i => !axes.contains i) hdims
  -- With axes left the buffer is the result; without any, its one cell is loaded.
  cases hscalar : ctx.graph.isScalar dst with
  | false =>
    simp only [Bool.false_eq_true, if_false]
    have hcell := fun hs : s₂.Agrees ctx val M₂ => exists_tensorCell (k + 1) hs hinitial
      (fun d hd => (hnamed d hd).grow (h₁.trans h₂)) hcounts hsized (partly hscalar ▸ hout)
    refine (performs_cells hbody hc he hinner hsize hholds hexact hfits hcell hstart hunvisited hsrc₂
      _).bind fun cell s₃ M₃ _ _ ⟨cells, hfold, _, hcells⟩ => ?_
    have hvalue : val dst = .ok (.tensor (Graph.withoutAxes axes shape) cells) := by
      rw [hdst, Meaning.reduction_of_fold harg hinit hfold, hscalar]
      rfl
    exact (performs_name hvalue hcells).mono fun _ _ _ _ _ h => ⟨_, _, h.1, hvalue, h.2⟩
  | true =>
    simp only [if_true]
    have hnone := forall₂_withoutAxes axes (Meaning.forall₂_of_dims hdims)
    rw [full hscalar, List.forall₂_nil_left_iff] at hnone
    refine (performs_cells hbody hc he hinner hsize hholds hexact hfits (fun hs => ?_) hstart
      hunvisited hsrc₂ _).bind fun cell s₃ M₃ _ _ ⟨cells, hfold, hcount, hcells⟩ => ?_
    · obtain ⟨base, j, ty, s', stmts, hrun, hgrows, hfilled⟩ := exists_scalarCell hs hinitial
      exact ⟨base, j, ty, s', stmts, M₂, hrun, hgrows, hnone ▸ hfilled⟩
    rw [hnone] at hcount hcells
    have hlt : 0 < cells.size := hcount ▸ Nat.one_pos
    have hvalue : val dst = .ok (.scalar cells[0]) := by
      rw [hdst, Meaning.reduction_of_fold harg hinit hfold, hscalar, if_pos rfl, Meaning.element,
        Array.getElem?_eq_getElem hlt]
      rfl
    have hload : Performs (fun _ => True) ctx val (do
        let v ← fresh "t"
        emit (.load v cell [])
        pure v) s₃ M₃ fun _ M' v => M' v.key =
          some (.ofValue (ctx.graph.elemSize dst) (.scalar cells[0])) := by
      refine performs_definition (fun _ => trivial) fun n => ?_
      have hread : M₃.load? cell.name [] = some ((ctx.graph.elemSize dst).number cells[0]) := by
        rw [Buffer.Store.load?, Buffer.Store.buffer?_ofTensor hcells]
        exact Datum.cells_of_inRange .nil (Array.getElem?_eq_getElem hlt)
      simp only [Buffer.Stmt.exec, List.mapM_nil, Option.pure_def, Option.bind_eq_bind,
        Option.bind_some, hread]
      rfl
    refine hload.bind fun v s₄ M₄ _ _ hv => ?_
    exact (performs_name hvalue hv).mono fun _ _ _ _ _ h => ⟨_, _, h.1, hvalue, h.2⟩

end Reduction

end LowerM

end TensorKernel
