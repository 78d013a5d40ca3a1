import TensorKernel.Proofs.Emission.Function
import TensorKernel.Proofs.Execution.Function
import TensorKernel.Proofs.Execution.Sizes
import TensorKernel.Proofs.Lower.Function

/-!
# The region of a reduction

The body of a reduction is an operator on an element and on the cell that it is combined with.  Its
region is lowered once and run for every element, so what is said of it holds for all stores: where
the arguments of the region hold the numbers of an element and a cell, the region ends with the
number of what they are combined to.
-/

namespace TensorKernel

open Buffer (Datum Operand)

/-! ## Bodies -/

/--
The body of a reduction by a sum, a product, a maximum or a minimum of integers.  Elements may be
booleans, but cells are not: as a number of the machine a true boolean is minus one.
-/
structure Graph.FoldBody (g : Graph) (e : Entry) (b : BinOp) (x acc inner dst : NodeId) (p : OpId) :
    Prop where
  element : g.Hole e x
  cell : g.Hole e acc
  ne : x ≠ acc
  producer : (g.node inner).producer = some p
  constant : (g.node inner).constant? = none
  op : g.op p = ⟨.binary b, [x, acc], [inner]⟩
  known : b = .add ∨ b = .mul ∨ b = .max ∨ b = .min
  scalar : g.isScalar x = true ∧ g.isScalar acc = true ∧ g.isScalar inner = true
  typed : b.Typed (g.elemSize x) (g.elemSize acc) (g.elemSize inner)
  elementSize : (g.elemSize x).isFloatingPoint = false
  cellSize : g.elemSize acc = g.elemSize dst
  innerSize : g.elemSize inner = g.elemSize dst
  signed : (g.elemSize dst).isSignedInteger = true

/-- Sums, products, maxima and minima of integers always exist. -/
theorem Literal.exists_fold {b : BinOp} (h : b = .add ∨ b = .mul ∨ b = .max ∨ b = .min) (v cell : Literal)
    {sz : ElemSize} (hsz : sz.isFloatingPoint = false) : ∃ w, v.binary b cell sz = .ok w := by
  have hint : v.binary b cell sz = (intBinary b v.asInt cell.asInt).map fun n => (int n).convert sz := by
    rw [binary, hsz]
    rcases h with rfl | rfl | rfl | rfl <;> rfl
  rcases h with rfl | rfl | rfl | rfl <;> exact ⟨_, hint⟩

namespace Graph.FoldBody

variable {ctx : EvalContext} {e : Entry} {b : BinOp} {x acc inner dst : NodeId} {p : OpId}
  (h : ctx.graph.FoldBody e b x acc inner dst p) (val : Valuation) (v cell : Literal)
include h

theorem inner_ne : inner ≠ x ∧ inner ≠ acc := by
  refine ⟨?_, ?_⟩ <;> rintro rfl
  · exact absurd (h.element.producer.symm.trans h.producer) (Option.some_ne_none p).symm
  · exact absurd (h.cell.producer.symm.trans h.producer) (Option.some_ne_none p).symm

/-- The body reads its placeholders. -/
theorem scalarOp {ok : NodeId → Prop} (hx : ok x) (hacc : ok acc) :
    ctx.graph.ScalarOp ok (ctx.graph.op p) inner := by
  rw [h.op]
  exact .binary hx hacc h.scalar.1 h.scalar.2.1 h.scalar.2.2 h.typed

theorem inside_element : Meaning.inside val [x, acc] [v, cell] x = .ok (.scalar v) := by
  have hget : (Scope.ofList ([x, acc].zip [v, cell])).get? x = some v := by
    show (if x = acc then some cell else if x = x then some v else none) = some v
    rw [if_neg h.ne, if_pos rfl]
  rw [Meaning.inside, hget]

omit h in
theorem inside_cell : Meaning.inside val [x, acc] [v, cell] acc = .ok (.scalar cell) := by
  have hget : (Scope.ofList ([x, acc].zip [v, cell])).get? acc = some cell := if_pos rfl
  rw [Meaning.inside, hget]

/-- An element and a cell are combined by the operator. -/
theorem innerValue_eq : Meaning.innerValue ctx val [x, acc] inner [v, cell] =
    Meaning.ofArithmetic (v.binary b cell (ctx.graph.elemSize inner)) := by
  rw [Meaning.innerValue, h.constant, h.producer]
  dsimp only
  rw [h.op, Meaning.scalarOp_binary, Meaning.scalar, h.inside_element, Meaning.scalar, inside_cell]
  rfl

theorem exists_innerValue : ∃ w, v.binary b cell (ctx.graph.elemSize inner) = .ok w ∧
    Meaning.body ctx val [x, acc] inner dst [v, cell] =
      .ok (w.convert (ctx.graph.elemSize dst)) := by
  have hsize : (ctx.graph.elemSize inner).isFloatingPoint = false :=
    h.innerSize ▸ ElemSize.isFloatingPoint_of_isSignedInteger h.signed
  obtain ⟨w, hw⟩ := Literal.exists_fold h.known v cell hsize
  refine ⟨w, hw, ?_⟩
  rw [Meaning.body, h.innerValue_eq, hw]
  rfl

end Graph.FoldBody

/-! ## Regions -/

/-- What a state knows are finitely many names. -/
theorem LowerState.exists_knows (g : Graph) {s : LowerState} (hscopes : s.scopes ≠ [])
    (hblocks : s.blocks ≠ []) : ∃ known, s.Knows g known := by
  refine ⟨(s.scopes.flatMap fun scope => scope.names.bindings.map fun p => ⟨p.2, g.valueType p.1⟩) ++
    (s.scopes.flatMap fun scope => scope.indexConstants.bindings.map fun p => ⟨p.2, .index⟩) ++
    s.symbols.entries.map fun p => ⟨p.2, .index⟩, hscopes, hblocks, ?_, ?_, ?_⟩
  · intro id n hn
    obtain ⟨scope, hscope, hn⟩ := List.exists_of_findSome?_eq_some hn
    refine List.mem_append_left _ (List.mem_append_left _ (List.mem_flatMap.mpr ⟨scope, hscope, ?_⟩))
    exact List.mem_map_of_mem (f := fun p : NodeId × Name => (⟨p.2, g.valueType p.1⟩ : Operand))
      (Table.mem_of_lookup hn)
  · intro k n hn
    obtain ⟨scope, hscope, hn⟩ := List.exists_of_findSome?_eq_some hn
    refine List.mem_append_left _ (List.mem_append_right _ (List.mem_flatMap.mpr ⟨scope, hscope, ?_⟩))
    exact List.mem_map_of_mem (f := fun p : Int × Name => (⟨p.2, .index⟩ : Operand))
      (Table.mem_of_lookup hn)
  · intro symbol n hn
    exact List.mem_append_right _ (List.mem_map_of_mem
      (f := fun p : String × Name => (⟨p.2, .index⟩ : Operand)) (Table.mem_of_lookup hn))

namespace LowerState

variable {s : LowerState} {x acc : NodeId} {xName accName : Name}

/-- The state inside a region, where two placeholders are bound to its arguments. -/
def placed (s : LowerState) (x acc : NodeId) (xName accName : Name) : LowerState :=
  (s.enter.name x xName).name acc accName

theorem placed_open : (s.placed x acc xName accName).scopes ≠ [] := by
  refine name_open (name_open ?_ _ _) _ _
  simp [enter]

/-- Inside the region the placeholders have the names of the arguments, and other nodes keep theirs. -/
theorem lookup_placed (id : NodeId) : (s.placed x acc xName accName).lookup id =
    if id = acc then some accName else if id = x then some xName else s.lookup id := by
  have hopen : s.enter.scopes ≠ [] := by simp [enter]
  have hopen' : (s.enter.name x xName).scopes ≠ [] := name_open hopen _ _
  rw [placed, lookup_name hopen', lookup_name hopen]
  rfl

theorem isVisited_placed (o : OpId) : (s.placed x acc xName accName).isVisited o = s.isVisited o := by
  rw [placed, isVisited_name, isVisited_name]
  simp [isVisited, enter, LowerScope.empty]

theorem bound_placed {id : NodeId} (h : id = x ∨ id = acc) :
    (s.placed x acc xName accName).Bound id := by
  rw [Bound, lookup_placed]
  split
  · rfl
  · next hacc => rw [if_pos (h.resolve_right hacc)]; rfl

end LowerState

namespace LowerM

open LowerState (Executed Grows)

variable {ctx : EvalContext} {val : Valuation} {e : Entry} {s : LowerState} {M : Buffer.Store}
  {b : BinOp} {x acc inner dst : NodeId} {p : OpId} {k : Nat}

/-- The region of a body that computes one value. -/
theorem bodyRegion_single (g : Graph) (need : NodeId → LowerM Name) (pairs : List (NodeId × NodeId))
    (args : List (NodeId × Operand)) : bodyRegion g need ⟨pairs, [(inner, dst)]⟩ args = region (do
      bindArgs args
      let v ← typedName g need inner
      let name ← cast v (g.elemSize dst)
      emit (.yield [⟨name, .scalar (g.elemSize dst)⟩])) := by
  simp [bodyRegion, yielded]

section Body

variable (hbody : ctx.graph.FoldBody e b x acc inner dst p)
include hbody

/-- The values inside the body, with that of the node that the body computes. -/
def foldValues (val : Valuation) (x acc inner : NodeId) (v cell w : Literal) : Valuation := fun id =>
  if id = inner then .ok (.scalar w) else Meaning.inside val [x, acc] [v, cell] id

theorem foldValues_element (v cell w : Literal) :
    foldValues val x acc inner v cell w x = .ok (.scalar v) := by
  rw [foldValues, if_neg hbody.inner_ne.1.symm, hbody.inside_element]

theorem foldValues_cell (v cell w : Literal) :
    foldValues val x acc inner v cell w acc = .ok (.scalar cell) := by
  rw [foldValues, if_neg hbody.inner_ne.2.symm, Graph.FoldBody.inside_cell]

/-- Placeholders are found where they are bound, and nowhere else. -/
theorem finds_holes {v cell w : Literal} (hv : (ctx.graph.elemSize x).Holds v)
    (hcell : (ctx.graph.elemSize acc).Holds cell) :
    Finds ctx (foldValues val x acc inner v cell w) (node ctx.graph (k + 1))
      fun id => id = x ∨ id = acc := by
  intro id u s M hid hu
  have hhole : ctx.graph.Hole e id := by
    rcases hid with rfl | rfl
    · exact hbody.element
    · exact hbody.cell
  have hshows : (ctx.graph.elemSize id).isFloatingPoint = false ∧ (ctx.graph.elemSize id).Holds u := by
    rcases hid with rfl | rfl
    · rw [foldValues_element hbody] at hu
      obtain rfl := Value.scalar.inj (Except.ok.inj hu)
      exact ⟨hbody.elementSize, hv⟩
    · rw [foldValues_cell hbody] at hu
      obtain rfl := Value.scalar.inj (Except.ok.inj hu)
      exact ⟨hbody.cellSize ▸ ElemSize.isFloatingPoint_of_isSignedInteger hbody.signed, hcell⟩
  show Executes ctx _ (nodeRule ctx.graph (node ctx.graph k) id) s M _
  refine executes_get_bind fun hs => ?_
  cases hfound : s.lookup id with
  | some n =>
    obtain ⟨u', hu', hn⟩ := hs.node hfound
    obtain rfl := Except.ok.inj (hu'.symm.trans hu)
    exact executes_pure ⟨hshows.1, hshows.2, hn⟩
  | none =>
    simp only [hhole.constant, hhole.producer]
    exact executes_throw

/-- In a block where the placeholders are bound, the statements compute what is combined. -/
theorem executes_combined {v cell w : Literal} (hv : (ctx.graph.elemSize x).Holds v)
    (hcell : (ctx.graph.elemSize acc).Holds cell)
    (hw : v.binary b cell (ctx.graph.elemSize inner) = .ok w) (hfresh : s.lookup inner = none)
    (hvisited : s.isVisited p = false) :
    Executes ctx (foldValues val x acc inner v cell w) (do
      let v ← typedName ctx.graph (node ctx.graph (k + 2)) inner
      cast v (ctx.graph.elemSize dst)) s M fun M' n => M' n.key = some (.number
        ((ctx.graph.elemSize dst).number (w.convert (ctx.graph.elemSize dst)))) := by
  have hsize : (ctx.graph.elemSize dst).isFloatingPoint = false :=
    ElemSize.isFloatingPoint_of_isSignedInteger hbody.signed
  have hinner : foldValues val x acc inner v cell w inner = .ok (.scalar w) := if_pos rfl
  have hvalue : Meaning.scalarOp (foldValues val x acc inner v cell w) (ctx.graph.op p)
      (ctx.graph.elemSize inner) = .ok w := by
    rw [hbody.op, Meaning.scalarOp_binary, Meaning.scalar, foldValues_element hbody, Meaning.scalar,
      foldValues_cell hbody]
    show Meaning.ofArithmetic (v.binary b cell (ctx.graph.elemSize inner)) = .ok w
    rw [hw]
    rfl
  have hop : ctx.graph.ScalarOp (fun id => id = x ∨ id = acc) (ctx.graph.op p) inner :=
    hbody.scalarOp (Or.inl rfl) (Or.inr rfl)
  have hinteger : ctx.graph.isIntegerOp (ctx.graph.op p) = true := by
    have hnot : ctx.graph.elemSize acc ≠ .bool := fun h => by
      have hsigned := hbody.signed
      rw [← hbody.cellSize, h] at hsigned
      cases hsigned
    rw [hbody.op]
    refine decide_eq_true ⟨?_, ?_, fun _ => Or.inr hnot⟩ <;>
      (rcases hbody.known with rfl | rfl | rfl | rfl <;> decide)
  -- The operator of the body was not visited before the region, so it is lowered inside of it.
  have hnode : Executes ctx (foldValues val x acc inner v cell w)
      (node ctx.graph (k + 2) inner) s M fun M' n =>
        M'.Shows ⟨n, ctx.graph.elemSize inner⟩ w := by
    show Executes ctx _ (nodeRule ctx.graph (node ctx.graph (k + 1)) inner) s M _
    refine executes_get_bind fun _ => ?_
    simp only [hfresh, hbody.constant, hbody.producer]
    refine executes_get_bind fun _ => ?_
    simp only [hvisited, Bool.false_eq_true, if_false]
    refine (executes_visit p).bind fun _ s₁ M₁ _ _ => ?_
    refine (executes_scalarOp (finds_holes hbody hv hcell) hop hvalue hinner hinteger
      fun op lhs rhs l r heq hdivides => ?_).bind fun _ s₂ M₂ _ _ => executes_get_bind fun hs => ?_
    · rw [hbody.op] at heq
      obtain rfl : op = b := by cases heq; rfl
      rcases hbody.known with rfl | rfl | rfl | rfl <;> simp at hdivides
    · cases hfound : s₂.lookup inner with
      | none => exact executes_throw
      | some n =>
        obtain ⟨u, hu, hn⟩ := hs.node hfound
        obtain rfl := Except.ok.inj (hu.symm.trans hinner)
        exact executes_pure ⟨hbody.innerSize ▸ hsize, Literal.holds_binary hw fun h => by
          rw [hbody.typed.result, BinOp.resultSize, if_pos h], hn⟩
  refine Executes.bind (R := fun M' (u : TypedName) => M'.Shows u w) (hnode.bind fun n _ _ _ hn =>
    executes_pure hn) fun u s₁ M₁ _ hu => ?_
  exact (executes_cast hu hsize).mono fun _ _ _ hn => hn.number

/-- Where the arguments hold an element and a cell, the state inside agrees with the values inside. -/
theorem agrees_placed (hs : s.Agrees ctx val M) (hfresh : s.lookup inner = none) {xName accName : Name}
    {v cell : Literal} (w : Literal)
    (hx : M xName.key = some (.number ((ctx.graph.elemSize x).number v)))
    (hacc : M accName.key = some (.number ((ctx.graph.elemSize acc).number cell))) :
    (s.placed x acc xName accName).Agrees ctx (foldValues val x acc inner v cell w) M where
  scopes := LowerState.placed_open
  blocks := by simp [LowerState.placed, LowerState.name, LowerState.enter]
  unset n hn := hs.unset n (by simpa [LowerState.placed, LowerState.name, LowerState.enter] using hn)
  node {id n} hn := by
    rw [LowerState.lookup_placed] at hn
    split at hn
    · next same =>
      subst same
      obtain rfl := Option.some.inj hn
      exact ⟨_, foldValues_cell hbody v cell w, hacc⟩
    · next hneAcc =>
      split at hn
      · next same =>
        subst same
        obtain rfl := Option.some.inj hn
        exact ⟨_, foldValues_element hbody v cell w, hx⟩
      · next hneX =>
        -- What is known outside is no placeholder, and the body has not been computed.
        have hneInner : id ≠ inner := by
          rintro rfl
          rw [hfresh] at hn
          cases hn
        have hget : (Scope.ofList ([x, acc].zip [v, cell])).get? id = none := by
          show (if id = acc then some cell else if id = x then some v else none) = none
          rw [if_neg hneAcc, if_neg hneX]
        obtain ⟨u, hu, hM⟩ := hs.node hn
        refine ⟨u, ?_, hM⟩
        rw [foldValues, if_neg hneInner, Meaning.inside, hget]
        exact hu
  index hn := by
    rw [LowerState.placed, LowerState.indexConstant?_name, LowerState.indexConstant?_name] at hn
    exact hs.index hn
  symbol hn := hs.symbol (by simpa [LowerState.placed, LowerState.name, LowerState.enter] using hn)

/-- The operator of a body is lowered where the placeholders are bound. -/
theorem lowers_combined (hc : ctx.graph.Coherent) (hvisited : s.isVisited p = false)
    (k : Nat) (xName accName : Name) :
    Lowers ctx.graph (do
      let v ← typedName ctx.graph (node ctx.graph (k + 2)) inner
      cast v (ctx.graph.elemSize dst)) (s.placed x acc xName accName) fun _ _ => True := by
  have hop : ctx.graph.ScalarOp (fun id => id = x ∨ id = acc) (ctx.graph.op p) inner :=
    hbody.scalarOp (Or.inl rfl) (Or.inr rfl)
  have hinner : Lowers ctx.graph (node ctx.graph (k + 2) inner) (s.placed x acc xName accName)
      fun _ s' => s'.Bound inner := by
    refine lowers_nodeRule_of_producer LowerState.placed_open hc hbody.constant hbody.producer
      (fun h => ?_) ?_
    · rw [LowerState.isVisited_placed, hvisited] at h
      cases h
    · refine lowers_scalarOp (LowerState.onScope_open LowerState.placed_open _) hop fun h hid => ?_
      have hbound := h.bound (LowerState.bound_visit (LowerState.bound_placed hid))
      exact (lowers_nodeRule_of_bound hbound).mono fun _ _ _ _ => trivial
  have hvalue : Lowers ctx.graph (typedName ctx.graph (node ctx.graph (k + 2)) inner)
      (s.placed x acc xName accName) fun _ _ => True :=
    hinner.bind fun _ _ _ _ => lowers_pure trivial
  exact hvalue.bind fun v _ _ _ => lowers_cast v _

/-- Lowering a body does nothing outside of its region but take numbers. -/
theorem reserves_combined (hc : ctx.graph.Coherent) (he : ctx.graph.EntryValid e)
    (hscopes : s.scopes ≠ []) (hblocks : s.blocks ≠ []) {k : Nat} {pairs : List (NodeId × NodeId)}
    {xName accName : Name} {block : List Buffer.Stmt} {s' : LowerState}
    (hrun : bodyRegion ctx.graph (node ctx.graph k) ⟨pairs, [(inner, dst)]⟩
      [(x, ⟨xName, .scalar (ctx.graph.elemSize x)⟩),
        (acc, ⟨accName, .scalar (ctx.graph.elemSize acc)⟩)] s = .ok (block, s')) :
    s' = { s with counter := s'.counter, history := s'.history } ∧ s.counter ≤ s'.counter := by
  obtain ⟨known, hknows⟩ := LowerState.exists_knows ctx.graph hscopes hblocks
  have hinner : ctx.graph.Lowerable e inner ∧ ctx.graph.isScalar inner = true :=
    ⟨Or.inr (Or.inr ⟨p, hbody.producer, hbody.scalarOp (Or.inl hbody.element) (Or.inl hbody.cell)⟩),
      hbody.scalar.2.2⟩
  have hgives : Gives ctx.graph (fun _ => True) (node ctx.graph k) (ctx.graph.Lowerable e) := by
    exact gives_node hc he (fun _ _ => trivial) k
  obtain ⟨hs', hcounter, -⟩ := @reserves_bodyRegion _ _ known _ _ _ hgives
    ⟨pairs, [(inner, dst)]⟩ (by simpa using hinner) _ (by
      simp [ctx.graph.valueType_scalar hbody.scalar.1, ctx.graph.valueType_scalar hbody.scalar.2.1])
    hknows block s' hrun
  exact ⟨hs', hcounter⟩

/--
A body is lowered once to a region.  Wherever the region is run on an element and a cell, it ends with
what they are combined to.
-/
theorem exists_bodyRegion (hc : ctx.graph.Coherent) (he : ctx.graph.EntryValid e) (k : Nat)
    (hscopes : s.scopes ≠ []) (hblocks : s.blocks ≠ []) (hfresh : s.lookup inner = none)
    (hvisited : s.isVisited p = false) (pairs : List (NodeId × NodeId)) (xName accName : Name) :
    ∃ block s', bodyRegion ctx.graph (node ctx.graph (k + 2)) ⟨pairs, [(inner, dst)]⟩
        [(x, ⟨xName, .scalar (ctx.graph.elemSize x)⟩),
          (acc, ⟨accName, .scalar (ctx.graph.elemSize acc)⟩)] s = .ok (block, s') ∧
      s' = { s with counter := s'.counter, history := s'.history } ∧ s.counter ≤ s'.counter ∧
      ∀ {M v cell w}, s.Agrees ctx val M →
        M xName.key = some (.number ((ctx.graph.elemSize x).number v)) →
        M accName.key = some (.number ((ctx.graph.elemSize acc).number cell)) →
        (ctx.graph.elemSize x).Holds v → (ctx.graph.elemSize acc).Holds cell →
        v.binary b cell (ctx.graph.elemSize inner) = .ok w →
        Buffer.run block M = some [.number
          ((ctx.graph.elemSize dst).number (w.convert (ctx.graph.elemSize dst)))] := by
  obtain ⟨name, s₁, hrun, -, -⟩ := lowers_combined hbody hc hvisited k xName accName
  let yield : Buffer.Stmt := .yield [⟨name, .scalar (ctx.graph.elemSize dst)⟩]
  -- Lowering does not look at the values, so one block serves all elements and cells.
  have hregion : bodyRegion ctx.graph (node ctx.graph (k + 2)) ⟨pairs, [(inner, dst)]⟩
      [(x, ⟨xName, .scalar (ctx.graph.elemSize x)⟩),
        (acc, ⟨accName, .scalar (ctx.graph.elemSize acc)⟩)] s =
      .ok ((s₁.push yield).block, (s₁.push yield).leave) := by
    obtain ⟨v, s₂, hvalue, hcast⟩ := exists_of_bind hrun
    rw [bodyRegion_single]
    have hsteps : (do
        bindArgs [(x, ⟨xName, .scalar (ctx.graph.elemSize x)⟩),
          (acc, ⟨accName, .scalar (ctx.graph.elemSize acc)⟩)]
        let v ← typedName ctx.graph (node ctx.graph (k + 2)) inner
        let name ← cast v (ctx.graph.elemSize dst)
        emit (.yield [⟨name, .scalar (ctx.graph.elemSize dst)⟩])) s.enter =
          .ok ((), s₁.push yield) := by
      have hplaced : bindArgs [(x, ⟨xName, .scalar (ctx.graph.elemSize x)⟩),
          (acc, ⟨accName, .scalar (ctx.graph.elemSize acc)⟩)] s.enter =
            .ok ((), s.placed x acc xName accName) := rfl
      rw [run_bind hplaced, run_bind hvalue, run_bind hcast]
      rfl
    exact congrArg (fun r => r >>= fun p => Except.ok (p.2.block, p.2.leave)) hsteps
  obtain ⟨hs', hcounter⟩ := reserves_combined hbody hc he hscopes hblocks hregion
  refine ⟨_, _, hregion, hs', hcounter, fun {M v cell w} hs hx hacc hv hcell hw => ?_⟩
  have hinside := agrees_placed hbody hs hfresh w hx hacc
  have hnew : (s.placed x acc xName accName).lookup inner = none := by
    rw [LowerState.lookup_placed, if_neg hbody.inner_ne.2, if_neg hbody.inner_ne.1, hfresh]
  obtain ⟨stmts, M', hstmts, -, hname⟩ := executes_combined hbody hv hcell hw hnew
    ((LowerState.isVisited_placed p).trans hvisited) hinside name s₁ hrun
  have hblock : (s₁.push yield).block = stmts ++ [yield] := by
    rw [LowerState.block_push hstmts.agrees.blocks, hstmts.block]
    rfl
  rw [hblock, Buffer.run_append hstmts.exec]
  show ([⟨name, _⟩] : List Operand).mapM (fun v => M' v.name.key) = _
  simp [hname]

end Body

end LowerM

end TensorKernel
