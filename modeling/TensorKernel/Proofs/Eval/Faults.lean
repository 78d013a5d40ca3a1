import TensorKernel.Proofs.Eval.Given
import TensorKernel.Proofs.Eval.Index

/-!
# Why evaluation fails

A well-formed graph fails for reasons that lie in its arguments: they do not fit the parameters, an
index is out of bounds, a divisor is zero, or a power is negative.  All other faults concern graphs
that nobody builds, with one exception.  Elements are counted in a word, and a tensor whose sizes
multiply to more than a word holds has fewer elements than its sizes say, so an element may be
missing.

`Safe` says of a result that a failure is of an allowed kind and that a success has a property; it is
carried through the steps of each operator.
-/

namespace TensorKernel

/-! ## Faults of arithmetic -/

/-- A unary operator has a value on every operand of a type it is defined on. -/
theorem Literal.exists_unary {op : UnOp} {v : Literal} {arg dst : ElemSize} (hv : arg.Holds v)
    (typed : op.Typed arg dst) : ∃ w, v.unary op dst = .ok w := by
  cases op with
  | neg => cases v <;> exact ⟨_, rfl⟩
  | not => exact ⟨_, rfl⟩
  | bitNot =>
    cases v with
    | bool b => exact ⟨_, rfl⟩
    | int i => exact ⟨_, rfl⟩
    | float x =>
      have hfloat : arg.isFloatingPoint = true := hv
      rw [typed.bitNot rfl] at hfloat
      cases hfloat

/-- Comparisons, truth values and bits are not computed on doubles. -/
theorem Literal.op_of_floatBinary_error {op : BinOp} {l r : Float} {fault : ArithmeticFault}
    (h : floatBinary op l r = .error fault) :
    op.isComparison = true ∨ op.isBoolean = true ∨ op.isBitwise = true := by
  cases op <;> first
    | exact Or.inl rfl
    | exact Or.inr (Or.inl rfl)
    | exact Or.inr (Or.inr rfl)
    | cases h

/-- Comparisons, truth values and true quotients are not computed on integers. -/
theorem Literal.op_of_intBinary_error {op : BinOp} {l r : Int64} {fault : ArithmeticFault}
    (h : intBinary op l r = .error fault) : fault.kind = .runtimeError ∨
      op.isComparison = true ∨ op.isBoolean = true ∨ op = .div := by
  cases op <;> first
    | exact Or.inr (Or.inl rfl)
    | exact Or.inr (Or.inr (Or.inl rfl))
    | exact Or.inr (Or.inr (Or.inr rfl))
    | (simp only [intBinary] at h; split at h <;> cases h <;> exact Or.inl rfl)
    | cases h

/-- The type of a result on bits or of a true quotient. -/
theorem BinOp.Typed.isFloatingPoint {op : BinOp} {lhs rhs dst : ElemSize}
    (typed : op.Typed lhs rhs dst) :
    (op.isBitwise = true → dst.isFloatingPoint = false) ∧
      (op = .div → dst.isFloatingPoint = true) := by
  obtain ⟨rfl, hbitwise⟩ := typed
  constructor
  · intro hop
    obtain ⟨hlhs, hrhs⟩ := hbitwise hop
    cases op <;> cases hop <;> cases lhs <;> cases hlhs <;> cases rhs <;> cases hrhs <;> rfl
  · rintro rfl
    cases lhs <;> cases rhs <;> rfl

/-- A binary operator on types it is defined on fails on a divisor or an exponent only. -/
theorem Literal.kind_of_binary_error {op : BinOp} {l r : Literal} {lhs rhs dst : ElemSize}
    (typed : op.Typed lhs rhs dst) {fault : ArithmeticFault} (h : l.binary op r dst = .error fault) :
    fault.kind = .runtimeError := by
  obtain ⟨hbits, hquotient⟩ := typed.isFloatingPoint
  unfold binary at h
  split at h
  · cases h
  · next hcomparison =>
    split at h
    · cases h
    · next hboolean =>
      split at h
      · next hfloat =>
        cases hvalue : floatBinary op l.asFloat r.asFloat with
        | ok v =>
          rw [hvalue] at h
          cases h
        -- The types rule out that an operator is handed to the wrong kind of arithmetic.
        | error other =>
          rcases op_of_floatBinary_error hvalue with hop | hop | hop
          · exact absurd hop hcomparison
          · exact absurd hop hboolean
          · rw [hbits hop] at hfloat
            cases hfloat
      · next hinteger =>
        cases hvalue : intBinary op l.asInt r.asInt with
        | ok v =>
          rw [hvalue] at h
          cases h
        | error other =>
          rw [hvalue] at h
          obtain rfl := Except.error.inj h
          rcases op_of_intBinary_error hvalue with hkind | hop | hop | hop
          · exact hkind
          · exact absurd hop hcomparison
          · exact absurd hop hboolean
          · exact absurd (hquotient hop) hinteger

/-! ## Safe results -/

/-- A failure is of an allowed kind, and a success has a property. -/
def Safe {α : Type} (allowed : EvalFault → Prop) (x : Except EvalFault α) (R : α → Prop) : Prop :=
  (∀ fault, x = .error fault → allowed fault) ∧ ∀ a, x = .ok a → R a

namespace Safe

variable {α β : Type} {allowed : EvalFault → Prop} {x : Except EvalFault α} {R R' : α → Prop}
  {f : α → Except EvalFault β} {T : β → Prop}

theorem ok {a : α} (h : R a) : Safe allowed (.ok a) R :=
  ⟨fun _ h => (by cases h), fun _ h' => Except.ok.inj h' ▸ h⟩

theorem error {fault : EvalFault} (h : allowed fault) : Safe allowed (.error fault) R :=
  ⟨fun _ h' => Except.error.inj h' ▸ h, fun _ h => by cases h⟩

theorem mono (h : Safe allowed x R) (hR : ∀ a, x = .ok a → R a → R' a) : Safe allowed x R' :=
  ⟨h.1, fun a ha => hR a ha (h.2 a ha)⟩

theorem imp {allowed' : EvalFault → Prop} (h : Safe allowed x R)
    (hallowed : ∀ fault, allowed fault → allowed' fault) : Safe allowed' x R :=
  ⟨fun fault hfault => hallowed fault (h.1 fault hfault), h.2⟩

theorem bind (hx : Safe allowed x R) (hf : ∀ a, x = .ok a → R a → Safe allowed (f a) T) :
    Safe allowed (x >>= f) T := by
  cases x with
  | error fault => exact error (hx.1 fault rfl)
  | ok a => exact hf a rfl (hx.2 a rfl)

theorem mapM {f : β → Except EvalFault α} {R : β → α → Prop} {xs : List β}
    (h : ∀ b ∈ xs, Safe allowed (f b) (R b)) : Safe allowed (xs.mapM f) (List.Forall₂ R xs) := by
  induction xs with
  | nil => exact ok .nil
  | cons b xs ih =>
    rw [List.mapM_cons]
    refine (h b (List.mem_cons_self ..)).bind fun a _ ha => ?_
    refine (ih fun b' hb' => h b' (List.mem_cons_of_mem _ hb')).bind fun as _ has => ?_
    exact ok (.cons ha has)

end Safe

/--
Why a node may have no value: for a reason that lies in the arguments, or because an element is
missing, unless every tensor fits into a word.
-/
def EvalFault.Explained (fits : Prop) (fault : EvalFault) : Prop :=
  fault.kind = .runtimeError ∨ fault = .elementOutOfRange ∧ ¬ fits

/-- Whether a fault says that the arguments of a function do not fit its parameters. -/
def EvalFault.refusesArguments : EvalFault → Bool
  | argumentCount _ _ _ | argumentElements _ _ _ | argumentShape _ _ _ | argumentDimension _ _ _ =>
    true
  | _ => false

theorem EvalFault.kind_of_refusesArguments {fault : EvalFault}
    (h : fault.refusesArguments = true) : fault.kind = .runtimeError := by
  cases fault <;> first | rfl | cases h

/-- Why a node may have no value once the arguments are bound. -/
structure EvalFault.Arises (fits : Prop) (fault : EvalFault) : Prop where
  explained : fault.Explained fits
  bound : fault.refusesArguments = false

namespace Meaning

open Index (InRange)

/-- The sizes of every tensor of a graph multiply to a number that fits into a word. -/
def FitsWord (ctx : EvalContext) (val : Valuation) : Prop :=
  ∀ id ns, ctx.graph.isScalar id = false → dims ctx val (ctx.graph.shape id) = .ok ns →
    Index.size ns < Word.count

/-- A tensor with as many elements as its sizes say. -/
def Exact : Value → Prop
  | .scalar _ => True
  | .tensor shape data => data.size = Index.size shape

/-- A value of the type of a node, with all of its elements if tensors fit into a word. -/
structure Sound (ctx : EvalContext) (val : Valuation) (fits : Prop) (id : NodeId) (v : Value) :
    Prop where
  types : Types ctx val id v
  exact : fits → Exact v

section Steps

variable {ctx : EvalContext} {val : Valuation} {fits : Prop}

theorem safe_element {data : Array Literal} {i : Nat} (h : fits → i < data.size) :
    Safe (EvalFault.Arises fits) (element data i) (· ∈ data) := by
  unfold element
  cases hget : data[i]? with
  | some v => exact .ok (Array.mem_of_getElem? hget)
  | none =>
    exact .error ⟨Or.inr ⟨rfl, fun hfits =>
      absurd (Array.getElem?_eq_none_iff.mp hget) (Nat.not_le.mpr (h hfits))⟩, rfl⟩

/-- An operator on scalars fails for a reason that lies in the values of its operands. -/
theorem safe_scalarOp {ok : NodeId → Prop} {op : Op} {dst : NodeId} {val : Valuation}
    (hop : ctx.graph.ScalarOp ok op dst)
    (hval : ∀ id, ok id → ctx.graph.isScalar id = true →
      Safe (EvalFault.Arises fits) (scalar val id) (ctx.graph.elemSize id).Holds) :
    Safe (EvalFault.Arises fits) (scalarOp val op (ctx.graph.elemSize dst))
      (ctx.graph.elemSize dst).Holds := by
  refine ⟨?_, fun v h => holds_scalarOp hop h⟩
  suffices h : Safe (EvalFault.Arises fits) (scalarOp val op (ctx.graph.elemSize dst))
      fun _ => True from h.1
  cases hop with
  | @unary unop arg dst harg sarg sdst typed =>
    rw [scalarOp_unary]
    refine (hval arg harg sarg).bind fun v _ hv => ?_
    obtain ⟨w, hw⟩ := Literal.exists_unary hv typed
    rw [hw]
    exact .ok trivial
  | @binary binop lhs rhs dst hlhs hrhs slhs srhs sdst typed =>
    rw [scalarOp_binary]
    refine (hval lhs hlhs slhs).bind fun l _ _ => (hval rhs hrhs srhs).bind fun r _ _ => ?_
    cases hvalue : l.binary binop r (ctx.graph.elemSize dst) with
    | ok w => exact .ok trivial
    | error fault => exact .error ⟨Or.inl (Literal.kind_of_binary_error typed hvalue), rfl⟩

/-- An index vector of a slice is refused because it lies outside of the source. -/
theorem sourceIndex_error {idx : List Nat} : ∀ {steps : List (Int64 × Int64)}
    {sizes : List Nat} {fault : EvalFault}, sourceIndex idx steps sizes = .error fault →
      ∃ i n, fault = .sliceOutOfBounds i n := by
  induction idx with
  | nil => exact fun h => by cases h
  | cons i idx ih =>
    intro steps sizes fault h
    cases steps with
    | nil => cases h
    | cons step steps =>
      cases sizes with
      | nil => cases h
      | cons size sizes =>
        unfold sourceIndex at h
        dsimp only at h
        split at h
        · cases hrest : sourceIndex idx steps sizes with
          | ok source =>
            rw [hrest] at h
            cases h
          | error other =>
            rw [hrest] at h
            obtain rfl := Except.error.inj h
            exact ih hrest
        · exact ⟨_, _, (Except.error.inj h).symm⟩

end Steps

section Operators

variable {ctx : EvalContext} {val : Valuation} {e : Entry} {fits : Prop} {avail : NodeId → Prop}
  (hval : ∀ id, avail id → Safe (EvalFault.Arises fits) (val id) (Sound ctx val fits id))

section Reads

include hval

theorem safe_scalar {id : NodeId} (hid : avail id) (sid : ctx.graph.isScalar id = true) :
    Safe (EvalFault.Arises fits) (scalar val id) (ctx.graph.elemSize id).Holds := by
  refine (hval id hid).bind fun v _ hv => ?_
  cases v with
  | scalar w => exact .ok hv.types.2
  | tensor shape data =>
    have hnot := hv.types.1
    rw [sid] at hnot
    cases hnot

theorem safe_tensor {id : NodeId} (hid : avail id) (sid : ctx.graph.isScalar id = false) :
    Safe (EvalFault.Arises fits) (tensor val id) fun operand =>
      Sound ctx val fits id (.tensor operand.1 operand.2) := by
  refine (hval id hid).bind fun v _ hv => ?_
  cases v with
  | scalar w =>
    have hnot := hv.types.1
    rw [sid] at hnot
    cases hnot
  | tensor shape data => exact .ok hv

theorem safe_index {id : NodeId} (hid : ctx.graph.IsIndex avail id) (size : Nat) :
    Safe (EvalFault.Arises fits) (index val id size) fun _ => True := by
  refine (safe_scalar hval hid.avail hid.scalar).bind fun v _ _ => ?_
  dsimp only
  split
  · exact .ok trivial
  · exact .error ⟨Or.inl rfl, rfl⟩

theorem safe_indices {ids : List NodeId} (hids : ∀ id ∈ ids, ctx.graph.IsIndex avail id) :
    ∀ sizes, Safe (EvalFault.Arises fits) (indices val ids sizes) fun _ => True := by
  induction ids with
  | nil => exact fun _ => .ok trivial
  | cons id ids ih =>
    intro sizes
    cases sizes with
    | nil => exact .ok trivial
    | cons size sizes =>
      refine (safe_index hval (hids id (List.mem_cons_self ..)) size).bind fun i _ _ => ?_
      exact (ih (fun id hid => hids id (List.mem_cons_of_mem _ hid)) sizes).bind
        fun _ _ _ => .ok trivial

theorem safe_starts {selected : List SliceIndex}
    (hselected : ∀ i ∈ selected, ∀ id ∈ i.nodes, ctx.graph.IsIndex avail id) :
    ∀ sizes, Safe (EvalFault.Arises fits) (starts val selected sizes) fun _ => True := by
  induction selected with
  | nil =>
    intro sizes
    induction sizes with
    | nil => exact .ok trivial
    | cons size sizes ih => exact ih.bind fun _ _ _ => .ok trivial
  | cons i selected ih =>
    intro sizes
    have hhead := hselected i (List.mem_cons_self ..)
    have hrest := ih fun j hj => hselected j (List.mem_cons_of_mem _ hj)
    cases sizes with
    | nil => exact .ok trivial
    | cons size sizes =>
      cases i with
      | element id =>
        refine (safe_index hval (hhead id (by simp [SliceIndex.nodes])) size).bind
          fun start _ _ => ?_
        exact (hrest sizes).bind fun _ _ _ => .ok trivial
      | range lower upper step =>
        have hlower := hhead lower (by simp [SliceIndex.nodes])
        have hstep := hhead step (by simp [SliceIndex.nodes])
        refine (safe_scalar hval hlower.avail hlower.scalar).bind fun start _ _ => ?_
        refine (safe_scalar hval hstep.avail hstep.scalar).bind fun stride _ _ => ?_
        exact (hrest sizes).bind fun _ _ _ => .ok trivial

variable (hsymbol : ∀ name, e.symbol name → ∃ n, ctx.sizes.get? name = some n)
include hsymbol

theorem safe_dims {shape : Shape} (hdims : ∀ d ∈ shape, ctx.graph.DimValid e avail d) :
    Safe (EvalFault.Arises fits) (dims ctx val shape) fun _ => True := by
  refine (Safe.mapM (R := fun _ _ => True) fun d hd => ?_).mono fun _ _ _ => trivial
  have hvalid := hdims d hd
  cases d with
  | const n => exact .ok trivial
  | sym name =>
    obtain ⟨n, hn⟩ := hsymbol name hvalid
    simp only [dim, hn]
    exact .ok trivial
  | node id =>
    exact (safe_scalar hval hvalid.avail hvalid.scalar).bind fun _ _ _ => .ok trivial

end Reads

/-! ## Bodies -/

section Bodies

include hval

/-- A body computes a value if its elements are of the types of its operands. -/
theorem safe_body {outer : List NodeId} {pairs : List (NodeId × NodeId)} {inner dst : NodeId}
    (hbody : ctx.graph.BodyValid e avail outer pairs inner) {elems : List Literal}
    (helems : List.Forall₂ (fun p v => (ctx.graph.elemSize p.1).Holds v) pairs elems) :
    Safe (EvalFault.Arises fits) (body ctx val (pairs.map Prod.snd) inner dst elems)
      (ctx.graph.elemSize dst).Holds := by
  obtain ⟨hlength, hzip⟩ := List.forall₂_iff_zip.mp helems
  obtain ⟨o, hproducer, hop, -⟩ := hbody.inner
  refine Safe.bind (R := fun _ => True) ?_ fun v _ _ => .ok (Literal.holds_convert v _)
  unfold innerValue
  cases (ctx.graph.node inner).constant? with
  | some v => exact .ok trivial
  | none =>
    simp only [hproducer]
    refine (safe_scalarOp hop fun id hid sid => ?_).mono fun _ _ _ => trivial
    unfold scalar inside
    cases hfound : (Scope.ofList ((pairs.map Prod.snd).zip elems)).get? id with
    | some v =>
      refine .ok ?_
      have hmem := List.mem_reverse.mp (Table.mem_of_lookup hfound)
      rw [List.zip_map_left] at hmem
      obtain ⟨q, hq, heq⟩ := List.mem_map.mp hmem
      obtain ⟨rfl, rfl⟩ := Prod.mk.inj heq
      rw [hbody.size q.1 (List.of_mem_zip hq).1]
      exact hzip hq
    | none =>
      -- Every placeholder has an element, so what has none lies outside.
      have hmem : id ∉ pairs.map Prod.snd := fun hmem => by
        have hsome := (Scope.get?_ofList_zip (by simpa using hlength) id).mpr hmem
        rw [hfound] at hsome
        cases hsome
      exact safe_scalar hval (hid.resolve_left hmem).1 sid

end Bodies

/-! ## Operators -/

/-- The elements of the operands of a body are there for every index vector of the result. -/
theorem safe_elements {dst : NodeId} {shape : List Nat}
    (hshape : dims ctx val (ctx.graph.shape dst) = .ok shape) {idx : List Nat}
    (hidx : InRange shape idx) {pairs : List (NodeId × NodeId)}
    {operands : List (List Nat × Array Literal)} (hfits : fits → FitsWord ctx val)
    (hoperands : List.Forall₂ (fun p operand => (ctx.graph.shape p.1).Fits (ctx.graph.shape dst) ∧
      Sound ctx val fits p.1 (.tensor operand.1 operand.2)) pairs operands) :
    Safe (EvalFault.Arises fits) (elements operands idx)
      (List.Forall₂ (fun p v => (ctx.graph.elemSize p.1).Holds v) pairs) := by
  unfold elements
  induction hoperands with
  | nil => exact .ok .nil
  | @cons p operand pairs operands hhead _ ih =>
    obtain ⟨hfit, hsound⟩ := hhead
    obtain ⟨hscalar, hdims, -, hall⟩ := hsound.types
    rw [List.mapM_cons]
    refine (safe_element fun h => ?_).bind fun v _ hv => ih.bind fun vs _ hvs =>
      .ok (.cons (hall v hv) hvs)
    obtain ⟨hle, halong⟩ := fitsAlong_of_fits hfit hdims hshape
    rw [show operand.2.size = Index.size operand.1 from hsound.exact h]
    exact (Index.inRange_broadcast hle halong hidx).place_lt (hfits h _ _ hscalar hdims)

/-- Folding finds every element and every cell. -/
theorem safe_fold {combine : Literal → Literal → Except EvalFault Literal}
    {axes outShape : List Nat} {data : Array Literal} {P : Literal → Prop}
    (hcombine : ∀ v cell, v ∈ data → P cell → Safe (EvalFault.Arises fits) (combine v cell) P)
    {idxs : List (List Nat)} : ∀ {i : Nat} {cells : Array Literal},
    (fits → i + idxs.length ≤ data.size) →
    (fits → ∀ idx ∈ idxs, Index.place outShape (Graph.withoutAxes axes idx) < cells.size) →
    (∀ c ∈ cells, P c) → Safe (EvalFault.Arises fits)
      (fold combine axes outShape data idxs i cells) fun out => out.size = cells.size := by
  induction idxs with
  | nil => exact fun _ _ _ => .ok rfl
  | cons idx rest ih =>
    intro i cells hdata hplaces hcells
    refine (safe_element fun h => ?_).bind fun v _ hv => ?_
    · have hlength := hdata h
      rw [List.length_cons] at hlength
      omega
    refine (safe_element fun h => hplaces h idx (List.mem_cons_self ..)).bind fun cell _ hcell => ?_
    refine (hcombine v cell hv (hcells cell hcell)).bind fun next _ hnext => ?_
    refine (ih (fun h => ?_) (fun h idx' hidx' => ?_) fun c hc => ?_).mono fun out _ hout => by
      rw [hout, Array.size_setIfInBounds]
    · have hlength := hdata h
      rw [List.length_cons] at hlength
      omega
    · rw [Array.size_setIfInBounds]
      exact hplaces h idx' (List.mem_cons_of_mem _ hidx')
    · rcases Array.mem_or_eq_of_mem_setIfInBounds hc with hc | rfl
      · exact hcells c hc
      · exact hnext

section

variable (hfits : fits → FitsWord ctx val)
include hval hfits

variable (hsymbol : ∀ name, e.symbol name → ∃ n, ctx.sizes.get? name = some n)

include hsymbol in
theorem safe_elementwise {inputs : List NodeId} {pairs : List (NodeId × NodeId)}
    {inner dst : NodeId} (hinputs : ∀ id ∈ inputs, avail id)
    (houter : ∀ p ∈ pairs, p.1 ∈ inputs ∧ ctx.graph.isScalar p.1 = false ∧
      (ctx.graph.shape p.1).Fits (ctx.graph.shape dst))
    (hdims : ∀ d ∈ ctx.graph.shape dst, ctx.graph.DimValid e avail d)
    (hbody : ctx.graph.BodyValid e avail inputs pairs inner) :
    Safe (EvalFault.Arises fits) (elementwise ctx val inputs ⟨pairs, [(inner, dst)]⟩)
      fun v => fits → Exact v := by
  refine (Safe.mapM fun id hid => hval id (hinputs id hid)).bind fun _ _ _ => ?_
  refine (safe_dims hval hsymbol hdims).bind fun shape hshape _ => ?_
  have hoperands : Safe (EvalFault.Arises fits)
      (pairs.mapM fun pair => tensor val pair.1) (List.Forall₂ (fun p operand =>
        (ctx.graph.shape p.1).Fits (ctx.graph.shape dst) ∧
          Sound ctx val fits p.1 (.tensor operand.1 operand.2)) pairs) := by
    refine Safe.mapM fun p hp => ?_
    obtain ⟨hin, hscalar, hfit⟩ := houter p hp
    exact (safe_tensor hval (hinputs _ hin) hscalar).mono fun _ _ hsound => ⟨hfit, hsound⟩
  refine hoperands.bind fun operands _ hoperands => ?_
  refine (Safe.mapM (R := fun _ _ => True) fun idx hidx => ?_).bind fun data _ hdata =>
    .ok fun _ => ?_
  · have hrange := Index.inRange_of_mem_rowMajor hidx
    refine (safe_elements hshape hrange hfits hoperands).bind fun elems _ helems => ?_
    exact (safe_body hval hbody helems).mono fun _ _ _ => trivial
  · show data.toArray.size = Index.size shape
    rw [List.size_toArray, ← hdata.length_eq, Index.length_rowMajor]

theorem safe_reduction {axes : List Nat} {arg init x acc inner dst : NodeId}
    (harg : avail arg) (hinit : avail init) (sarg : ctx.graph.isScalar arg = false)
    (sinit : ctx.graph.isScalar init = true)
    (isize : ctx.graph.elemSize init = ctx.graph.elemSize dst)
    (full : ctx.graph.isScalar dst = true → Graph.withoutAxes axes (ctx.graph.shape arg) = [])
    (partly : ctx.graph.isScalar dst = false →
      ctx.graph.shape dst = Graph.withoutAxes axes (ctx.graph.shape arg))
    (hbody : ctx.graph.BodyValid e avail [] [(arg, x), (init, acc)] inner) :
    Safe (EvalFault.Arises fits) (reduction ctx val axes arg init [x, acc] inner dst)
      fun v => fits → Exact v := by
  refine (safe_tensor hval harg sarg).bind fun operand _ hsound => ?_
  refine (safe_scalar hval hinit sinit).bind fun start _ hstart => ?_
  obtain ⟨shape, data⟩ := operand
  obtain ⟨-, hdims, -, hall⟩ := hsound.types
  -- The cells are as many as the sizes of the result say.
  have hcount : fits → Index.size (Graph.withoutAxes axes shape) < Word.count := by
    intro h
    cases hscalar : ctx.graph.isScalar dst with
    | false =>
      refine hfits h dst _ hscalar ?_
      rw [partly hscalar]
      exact mapM_filterMap_zipIdx (fun i => !axes.contains i) hdims
    | true =>
      have hnone := forall₂_withoutAxes axes (forall₂_of_dims hdims)
      rw [full hscalar] at hnone
      rw [List.forall₂_nil_left_iff.mp hnone]
      decide
  have hcells : ∀ c ∈ Array.replicate (Index.count (Graph.withoutAxes axes shape)) start,
      (ctx.graph.elemSize init).Holds c := fun c hc => by
    rw [(Array.mem_replicate.mp hc).2]
    exact hstart
  have hfold : Safe (EvalFault.Arises fits)
      (fold (fun v cell => body ctx val [x, acc] inner dst [v, cell]) axes
        (Graph.withoutAxes axes shape) data (Index.rowMajor shape) 0
        (Array.replicate (Index.count (Graph.withoutAxes axes shape)) start))
      fun out => out.size = Index.count (Graph.withoutAxes axes shape) := by
    refine (safe_fold (fun v cell hv hcell => ?_) (fun h => ?_) (fun h idx hidx => ?_)
      hcells).mono fun out _ hout => by rw [hout, Array.size_replicate]
    · have hrow : Safe (EvalFault.Arises fits) (body ctx val [x, acc] inner dst [v, cell]) _ :=
        safe_body hval hbody (.cons (hall v hv) (.cons hcell .nil))
      rwa [isize]
    · rw [Index.length_rowMajor, Nat.zero_add]
      exact (hsound.exact h).ge
    · have hrange := forall₂_withoutAxes axes (Index.inRange_of_mem_rowMajor hidx)
      rw [Array.size_replicate, Index.count, Word.wrap_of_lt (hcount h)]
      exact Index.InRange.place_lt hrange (hcount h)
  refine hfold.bind fun cells _ hsize => ?_
  dsimp only
  split
  · next hscalar =>
    refine (safe_element fun _ => ?_).bind fun v _ _ => .ok fun _ => trivial
    have hnone := forall₂_withoutAxes axes (forall₂_of_dims hdims)
    rw [full hscalar] at hnone
    rw [hsize, List.forall₂_nil_left_iff.mp hnone]
    decide
  · refine .ok fun h => ?_
    show cells.size = Index.size _
    rw [hsize, Index.count, Word.wrap_of_lt (hcount h)]

theorem safe_getItem {target dst : NodeId} {indices : List NodeId} (htarget : avail target)
    (starget : ctx.graph.isScalar target = false)
    (hindices : ∀ id ∈ indices, ctx.graph.IsIndex avail id)
    (rank : indices.length = (ctx.graph.shape target).length) :
    Safe (EvalFault.Arises fits) (getItem ctx val target indices dst)
      fun v => fits → Exact v := by
  refine (safe_tensor hval htarget starget).bind fun operand _ hsound => ?_
  refine (safe_indices hval hindices operand.1).bind fun idx hidx _ => ?_
  obtain ⟨hscalar, hdims, -, -⟩ := hsound.types
  have hrank := (forall₂_of_dims hdims).length_eq
  refine (safe_element fun h => ?_).bind fun v _ _ => .ok fun _ => trivial
  rw [show operand.2.size = Index.size operand.1 from hsound.exact h]
  exact (inRange_of_indices (rank.trans hrank) hidx).place_lt (hfits h _ _ hscalar hdims)

theorem safe_setItem {target value dst : NodeId} {indices : List NodeId} (htarget : avail target)
    (starget : ctx.graph.isScalar target = false) (hvalue : avail value)
    (svalue : ctx.graph.isScalar value = true)
    (hindices : ∀ id ∈ indices, ctx.graph.IsIndex avail id)
    (rank : indices.length = (ctx.graph.shape target).length) :
    Safe (EvalFault.Arises fits) (setItem ctx val target value indices dst)
      fun v => fits → Exact v := by
  refine (safe_tensor hval htarget starget).bind fun operand _ hsound => ?_
  refine (safe_scalar hval hvalue svalue).bind fun w _ _ => ?_
  refine (safe_indices hval hindices operand.1).bind fun idx hidx _ => ?_
  obtain ⟨hscalar, hdims, -, -⟩ := hsound.types
  have hrank := (forall₂_of_dims hdims).length_eq
  refine (safe_element fun h => ?_).bind fun _ _ _ => .ok fun h => ?_
  · rw [show operand.2.size = Index.size operand.1 from hsound.exact h]
    exact (inRange_of_indices (rank.trans hrank) hidx).place_lt (hfits h _ _ hscalar hdims)
  · show (operand.2.setIfInBounds _ _).size = Index.size operand.1
    rw [Array.size_setIfInBounds]
    exact hsound.exact h

include hsymbol in
theorem safe_slice {target dst : NodeId} {selected : List SliceIndex} {sizes : Shape}
    (htarget : avail target) (starget : ctx.graph.isScalar target = false)
    (hselected : ∀ i ∈ selected, ∀ id ∈ i.nodes, ctx.graph.IsIndex avail id)
    (rank : sizes.length = (ctx.graph.shape target).length)
    (hsizes : ∀ d ∈ sizes, ctx.graph.DimValid e avail d)
    (hdims : ∀ d ∈ ctx.graph.shape dst, ctx.graph.DimValid e avail d)
    (trims : sizes.Trims (ctx.graph.shape dst)) :
    Safe (EvalFault.Arises fits) (slice ctx val target selected sizes dst)
      fun v => fits → Exact v := by
  refine (safe_tensor hval htarget starget).bind fun operand _ hsound => ?_
  refine (safe_dims hval hsymbol hsizes).bind fun ns hns _ => ?_
  refine (safe_starts hval hselected operand.1).bind fun steps hsteps _ => ?_
  obtain ⟨hscalar, hshape, -, -⟩ := hsound.types
  have hlength : ns.length = operand.1.length := by
    rw [← (forall₂_of_dims hns).length_eq, ← (forall₂_of_dims hshape).length_eq, rank]
  refine (Safe.mapM (R := fun _ _ => True) fun idx hidx => ?_).bind fun out _ hout => ?_
  · have hrange := Index.inRange_of_mem_rowMajor hidx
    have hsource : Safe (EvalFault.Arises fits) (sourceIndex idx steps operand.1) fun _ => True := by
      refine ⟨fun fault h => ?_, fun _ _ => trivial⟩
      obtain ⟨i, n, rfl⟩ := sourceIndex_error h
      exact ⟨Or.inl rfl, rfl⟩
    refine hsource.bind fun source hsource _ => (safe_element fun h => ?_).mono fun _ _ _ => trivial
    rw [show operand.2.size = Index.size operand.1 from hsound.exact h]
    exact (inRange_of_sourceIndex (hrange.length_eq.symm.trans hlength) (length_starts hsteps)
      hsource).place_lt (hfits h _ _ hscalar hshape)
  · refine (safe_dims hval hsymbol hdims).bind fun ms hms _ => .ok fun _ => ?_
    show out.toArray.size = Index.size ms
    rw [List.size_toArray, ← hout.length_eq, Index.length_rowMajor, dims_trims trims hns hms]

include hsymbol in
/-- An operator of a well-formed kind gives a sound value, or fails for a reason in the arguments. -/
theorem safe_operator {op : Op} {dst : NodeId} (hop : ctx.graph.Computes e avail op dst) :
    Safe (EvalFault.Arises fits) (operator ctx val op dst) (Sound ctx val fits dst) := by
  have htypes : ∀ v, operator ctx val op dst = .ok v → Types ctx val dst v := fun v =>
    types_operator (fun id hid v hv => ((hval id hid).2 v hv).types) hop
  suffices h : Safe (EvalFault.Arises fits) (operator ctx val op dst) fun v => fits → Exact v from
    h.mono fun v hv hexact => ⟨htypes v hv, hexact⟩
  obtain ⟨hdims, hvalid⟩ := hop
  cases hvalid with
  | scalar hop =>
    have hscalar : Safe (EvalFault.Arises fits) (scalarOp val op (ctx.graph.elemSize dst))
        (ctx.graph.elemSize dst).Holds := safe_scalarOp hop fun id hid sid => safe_scalar hval hid sid
    cases hop <;> exact hscalar.bind fun v _ _ => .ok fun _ => trivial
  | elementwise hinputs houter _ _ hbody =>
    exact safe_elementwise hval hfits hsymbol hinputs houter hdims hbody
  | reduction harg hinit sarg sinit isize full partly _ hbody =>
    exact safe_reduction hval hfits harg hinit sarg sinit isize full partly hbody
  | getItem htarget starget hindices rank _ _ =>
    exact safe_getItem hval hfits htarget starget hindices rank
  | setItem htarget starget hvalue svalue hindices rank _ =>
    exact safe_setItem hval hfits htarget starget hvalue svalue hindices rank
  | slice htarget starget hselected _ rank hsizes trims _ _ =>
    exact safe_slice hval hfits hsymbol htarget starget hselected rank hsizes hdims trims
  | @copy kind src dst hkind hsrc _ =>
    have hcopy : Safe (EvalFault.Arises fits) (do
        let w ← val src
        .ok (w.convert (ctx.graph.elemSize dst))) fun v => fits → Exact v := by
      refine (hval src hsrc).bind fun w _ hw => .ok fun h => ?_
      cases w with
      | scalar w => trivial
      | tensor shape data =>
        show (data.map _).size = Index.size shape
        rw [Array.size_map]
        exact hw.exact h
    rcases hkind with rfl | rfl <;> exact hcopy

end

end Operators

end Meaning

/-! ## Graphs -/

/-- An available node has a sound value, or fails for a reason that lies in the arguments. -/
theorem safe_meaning {ctx : EvalContext} {e : Entry} {given : GivenValues} {fits : Prop}
    (hc : ctx.graph.Coherent) (he : ctx.graph.EntryValid e) (hgiven : e.GivenBy given)
    (hsound : ∀ id v, given.get? id = some v →
      Meaning.Sound ctx (meaning ctx given) fits id v)
    (hsymbol : ∀ name, e.symbol name → ∃ n, ctx.sizes.get? name = some n)
    (hfits : fits → Meaning.FitsWord ctx (meaning ctx given)) {id : NodeId}
    (hid : ctx.graph.Available e id) :
    Safe (EvalFault.Arises fits) (meaning ctx given id)
      (Meaning.Sound ctx (meaning ctx given) fits id) := by
  refine hid.induction (P := fun id => Safe (EvalFault.Arises fits) (meaning ctx given id)
    (Meaning.Sound ctx (meaning ctx given) fits id)) (fun {id} hid => ?_)
    fun hall hid hnot hconstant hproducer hop => ?_
  · rcases hgiven.source_cases hid with ⟨w, hw⟩ | ⟨hnone, w, hw⟩
    · rw [meaning_of_given hw]
      exact .ok (hsound id w hw)
    · rw [meaning_of_constant hnone hw]
      exact .ok ⟨⟨Graph.isScalar_of_constant hw, Literal.holds_convert w _⟩, fun _ => trivial⟩
  · rw [meaning_of_producer hc he hgiven hid (hgiven.get?_eq_none hnot) hconstant hproducer]
    exact Meaning.safe_operator (fun id hid => (hall id hid).2) hfits hsymbol hop

namespace FunctionGraph

/-! ## Arguments -/

section Arguments

variable {g : Graph}

theorem refusesArguments_of_bindArgument {param : String} {id : NodeId} {v : Value}
    {fault : EvalFault} (h : bindArgument g param id v = .error fault) :
    fault.refusesArguments = true := by
  unfold bindArgument at h
  cases v with
  | scalar x =>
    dsimp only at h
    split at h
    · cases h
    · obtain rfl := Except.error.inj h
      rfl
  | tensor shape data =>
    dsimp only at h
    split at h
    · obtain rfl := Except.error.inj h
      rfl
    · split at h
      · obtain rfl := Except.error.inj h
        rfl
      · cases h

theorem safe_bindArguments {inputs : List (String × NodeId)} : ∀ {given : GivenValues}
    {args : List Value}, Safe (fun fault => fault.refusesArguments = true)
      (bindArguments g given inputs args) fun _ => True := by
  induction inputs with
  | nil => exact .ok trivial
  | cons input inputs ih =>
    intro given args
    cases args with
    | nil => exact .ok trivial
    | cons arg args =>
      have hfirst : Safe (fun fault => fault.refusesArguments = true)
          (bindArgument g input.1 input.2 arg) fun _ => True :=
        ⟨fun _ h => refusesArguments_of_bindArgument h, fun _ _ => trivial⟩
      exact hfirst.bind fun v _ _ => ih

theorem safe_checkDims (id : NodeId) (sizes : Table String Nat) (pairs : List (Dim × Nat)) :
    Safe (fun fault => fault.refusesArguments = true) (checkDims id sizes pairs) fun _ => True := by
  induction pairs with
  | nil => exact .ok trivial
  | cons q pairs ih =>
    obtain ⟨d, n⟩ := q
    rw [checkDims]
    split
    · split
      · exact ih
      · exact .error rfl
    · exact ih

theorem safe_checkSizes (sizes : Table String Nat) (values : List (NodeId × Value)) :
    Safe (fun fault => fault.refusesArguments = true) (checkSizes g sizes values) fun _ => True := by
  induction values with
  | nil => exact .ok trivial
  | cons p values ih => exact (safe_checkDims p.1 sizes _).bind fun _ _ _ => ih

/-- The axis that a shape symbol stands for is there once the parameters are bound. -/
theorem exists_axisSize_of_bindArguments {f : FunctionGraph} {sz : ElemSize}
    (hf : f.graph.Interface sz f.inputs f.symbols) {args : List Value} {given : GivenValues}
    (hlength : f.inputs.length = args.length)
    (h : bindArguments f.graph .empty f.inputs args = .ok given) :
    ∀ p ∈ f.symbols.entries, ∃ n, axisSize? given p.2 = some n := by
  intro p hp
  obtain ⟨hmem, haxis⟩ := hf.symbolArg p hp
  obtain ⟨q, hq, hid⟩ := exists_mem_zip hlength hmem
  obtain ⟨v, hv, hget⟩ :=
    (bindArguments_ok hlength (List.nodup_append.mp hf.nodup).1 h).1 q hq
  obtain ⟨hconvert, hrank, -⟩ := bindArgument_spec hv
  obtain ⟨hlt, -⟩ := List.getElem?_eq_some_iff.mp haxis
  rw [hid] at hget hrank
  have hlt' : p.2.axis < v.shape.length := by
    rw [hconvert, Value.shape_convert, hrank]
    exact hlt
  refine ⟨v.shape[p.2.axis], ?_⟩
  rw [axisSize?, hget, Option.bind_some, List.getElem?_eq_getElem hlt']

/-- Arguments are refused because they do not fit the parameters. -/
theorem safe_bindAll {f : FunctionGraph} {sz : ElemSize}
    (hf : f.graph.Interface sz f.inputs f.symbols) (args : List Value) :
    Safe (fun fault => fault.refusesArguments = true) (f.bindAll args) fun _ => True := by
  unfold bindAll
  split
  · exact .error rfl
  · next hlength =>
    have hlength : f.inputs.length = args.length := (not_not.mp hlength).symm
    refine safe_bindArguments.bind fun given hgiven _ => ?_
    obtain ⟨given', sizes, hsymbols, -⟩ := exists_bindSymbols (g := f.graph) .empty
      (exists_axisSize_of_bindArguments hf hlength hgiven) (symbolArg_not_symbol hf)
    rw [hsymbols]
    exact (safe_checkSizes sizes given'.entries).bind fun _ _ _ => .ok trivial

end Arguments

/-! ## Results -/

/-- The sizes of every tensor of a graph multiply to a number that fits into a word. -/
def FitsWord (f : FunctionGraph) (args : List Value) : Prop :=
  ∀ given sizes, f.bindAll args = .ok (given, sizes) →
    Meaning.FitsWord ⟨f.graph, sizes⟩ (meaning ⟨f.graph, sizes⟩ given)

/-- What a function is given has all of its elements. -/
theorem Admits.exact {f : FunctionGraph} {sz : ElemSize} {args : List Value} {given : GivenValues}
    {sizes : Table String Nat} (hf : f.Evaluable sz f.entry) (h : f.Admits args given sizes)
    {val : Valuation} (hfits : Meaning.FitsWord ⟨f.graph, sizes⟩ val) {id : NodeId} {v : Value}
    (hv : given.get? id = some v) : Meaning.Exact v := by
  have htypes := h.types hf val hv
  rcases (h.givenBy id).mp (by simp [Table.contains, hv]) with hin | ⟨p, hp, rfl⟩
  · obtain ⟨p, hp, rfl⟩ := exists_mem_zip h.length hin
    obtain ⟨w, hw, hget⟩ := h.input p hp
    obtain rfl := Option.some.inj (hget.symm.trans hv)
    obtain ⟨hconvert, -, hkind⟩ := bindArgument_spec hw
    generalize p.2 = arg at *
    subst hconvert
    cases arg with
    | scalar x => trivial
    | tensor shape data =>
      have hsize := Word.wrap_of_lt (hfits _ _ htypes.1 htypes.2.1)
      show (data.map _).size = Index.size shape
      rw [Array.size_map, ← hkind.2]
      exact hsize
  · obtain ⟨n, -, -, hvalue⟩ := h.symbol p hp
    obtain rfl := Option.some.inj (hvalue.symm.trans hv)
    trivial

/-- Once the arguments are bound, an available node has a sound value, or what it needs fails. -/
theorem WellFormed.safe_node {f : FunctionGraph} {sz : ElemSize} (hf : f.WellFormed sz)
    {args : List Value} {given : GivenValues} {sizes : Table String Nat}
    (hbound : f.bindAll args = .ok (given, sizes)) {id : NodeId}
    (hid : f.graph.Available f.entry id) :
    Safe (EvalFault.Arises (f.FitsWord args)) (meaning ⟨f.graph, sizes⟩ given id)
      (Meaning.Sound ⟨f.graph, sizes⟩ (meaning ⟨f.graph, sizes⟩ given) (f.FitsWord args) id) := by
  have heval := hf.evaluable
  have hadmits := admits_of_bindAll hf.interface hbound
  have hsymbol : ∀ name, f.entry.symbol name → ∃ n, sizes.get? name = some n := fun name h =>
    Table.get?_eq_some_of_contains ((hadmits.known name).mpr h)
  have hfits : f.FitsWord args → Meaning.FitsWord ⟨f.graph, sizes⟩ (meaning ⟨f.graph, sizes⟩ given) :=
    fun h => h given sizes hbound
  exact safe_meaning hf.valid.coherent hf.valid.entry (heval.givenBy hadmits)
    (fun id v hv => ⟨hadmits.types heval _ hv, fun h => hadmits.exact heval (hfits h) hv⟩) hsymbol
    hfits hid

/-- Once the arguments are bound, the results have sound values, or what they need fails. -/
theorem WellFormed.safe_results {f : FunctionGraph} {sz : ElemSize} (hf : f.WellFormed sz)
    {args : List Value} {given : GivenValues} {sizes : Table String Nat}
    (hbound : f.bindAll args = .ok (given, sizes)) :
    Safe (EvalFault.Arises (f.FitsWord args)) (f.outputs.mapM (meaning ⟨f.graph, sizes⟩ given))
      (List.Forall₂ (Meaning.Sound ⟨f.graph, sizes⟩ (meaning ⟨f.graph, sizes⟩ given)
        (f.FitsWord args)) f.outputs) :=
  Safe.mapM fun id hid => hf.safe_node hbound (hf.outputs id hid)

/-- Evaluation gives sound values, or fails for a reason that lies in the arguments. -/
theorem WellFormed.safe_eval {f : FunctionGraph} {sz : ElemSize} (hf : f.WellFormed sz)
    (args : List Value) :
    Safe (EvalFault.Explained (f.FitsWord args)) (f.eval args) fun values =>
      ∃ given sizes, f.bindAll args = .ok (given, sizes) ∧
        List.Forall₂ (Meaning.Sound ⟨f.graph, sizes⟩ (meaning ⟨f.graph, sizes⟩ given)
          (f.FitsWord args)) f.outputs values := by
  rw [hf.evaluable.eval_eq hf.outputs]
  have hbind : Safe (EvalFault.Explained (f.FitsWord args)) (f.bindAll args) fun _ => True :=
    (safe_bindAll hf.interface args).imp fun fault h =>
      Or.inl (EvalFault.kind_of_refusesArguments h)
  refine hbind.bind fun bound hbound _ => ?_
  obtain ⟨given, sizes⟩ := bound
  exact ((hf.safe_results hbound).imp fun _ h => h.explained).mono fun values _ hvalues =>
    ⟨given, sizes, hbound, hvalues⟩

end FunctionGraph

end TensorKernel
