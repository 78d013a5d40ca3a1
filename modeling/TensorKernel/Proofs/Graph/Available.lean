import TensorKernel.Proofs.Graph.Growth
import TensorKernel.Graph.Splice

/-!
# Available nodes

Which nodes of a graph have a value once the parameters and shape symbols are given.  A node is
available if it is given, if it is a constant, or if its producer is an operator of a well-formed
kind on available nodes.  `Graph.AvailableAt` counts the operators on the way, which is the measure
that evaluation and lowering descend along.

`Graph.OpValid` is the rule of each kind of operator: how many operands it reads, their types, and
the type of the node that it computes.  The placeholders of a body have no value of their own and
are never available.
-/

namespace TensorKernel

/-! ## What a graph is given -/

/--
What a graph is given from outside: the nodes of parameters and shape symbols, the names of these
symbols, and the nodes that are set apart for a declared result.
-/
structure Entry where
  node : NodeId → Prop
  symbol : String → Prop
  result : NodeId → Prop

namespace Graph

/-- Given nodes are computed by nothing, and their dimensions are constants or known symbols. -/
structure EntryValid (g : Graph) (e : Entry) : Prop where
  lt : ∀ {id}, e.node id → id.index < g.nodes.size
  producer : ∀ {id}, e.node id → (g.node id).producer = none
  constant : ∀ {id}, e.node id → (g.node id).constant? = none
  dims : ∀ {id}, e.node id → ∀ d ∈ g.shape id,
    (∃ n, d = .const n) ∨ ∃ name, d = .sym name ∧ e.symbol name
  result : ∀ {id}, e.result id →
    id.index < g.nodes.size ∧ ¬ e.node id ∧ (g.node id).constant? = none

/-- The operator that a node records as its producer exists, and computes this node only. -/
def Coherent (g : Graph) : Prop :=
  ∀ id o, (g.node id).producer = some o → o.index < g.ops.size ∧ (g.op o).outputs = [id]

/-- A placeholder stands for an element in a body: nothing computes it and nothing gives it. -/
structure Hole (g : Graph) (e : Entry) (id : NodeId) : Prop where
  lt : id.index < g.nodes.size
  notGiven : ¬ e.node id
  notResult : ¬ e.result id
  producer : (g.node id).producer = none
  constant : (g.node id).constant? = none

/-- A scalar of a signed integer type. -/
structure IsIndex (g : Graph) (avail : NodeId → Prop) (id : NodeId) : Prop where
  avail : avail id
  scalar : g.isScalar id = true
  size : (g.elemSize id).isSignedInteger = true

/-- A dimension whose size is known. -/
def DimValid (g : Graph) (e : Entry) (avail : NodeId → Prop) : Dim → Prop
  | .const _ => True
  | .sym name => e.symbol name
  | .node id => g.IsIndex avail id

end Graph

/-! ## Typing rules -/

/-- The element sizes of a unary operator's operand and result. -/
structure UnOp.Typed (op : UnOp) (arg dst : ElemSize) : Prop where
  result : dst = if op = .not then .bool else arg
  neg : op = .neg → arg.isBoolean = false
  bitNot : op = .bitNot → arg.isFloatingPoint = false

/-- The element sizes of a binary operator's operands and result. -/
structure BinOp.Typed (op : BinOp) (lhs rhs dst : ElemSize) : Prop where
  result : dst = op.resultSize lhs rhs
  bitwise : op.isBitwise = true → lhs.isFloatingPoint = false ∧ rhs.isFloatingPoint = false

/-- Operands that are not refused have sizes that the operator is defined on. -/
theorem BinOp.Typed.of_accepted {op : BinOp} {lhs rhs : ElemSize}
    (h : ¬ (op.isBitwise && (lhs.isFloatingPoint || rhs.isFloatingPoint)) = true) :
    op.Typed lhs rhs (op.resultSize lhs rhs) :=
  ⟨rfl, fun hop => by simpa [hop] using h⟩

namespace Shape

/-- Each dimension of the first list is one or that of the second list at the same position. -/
def alignedFits : List Dim → List Dim → Prop
  | [], _ => True
  | _ :: _, [] => False
  | d :: ds, e :: es => (d = e ∨ d.isOne = true) ∧ alignedFits ds es

/-- An operand of the first shape can be read along the axes of the second one. -/
def Fits (operand space : Shape) : Prop :=
  alignedFits operand.reverse space.reverse

/-- The second shape is the first one without some ones in front, of which the last is kept. -/
def Trims (sizes shape : Shape) : Prop :=
  ∃ k, shape = sizes.drop k ∧ k < sizes.length ∧ ∀ d ∈ sizes.take k, d.isOne = true

end Shape

namespace Graph

/-- An operator on scalars that satisfy a condition. -/
inductive ScalarOp (g : Graph) (ok : NodeId → Prop) : Op → NodeId → Prop
  | unary {op : UnOp} {arg dst : NodeId} (harg : ok arg) (sarg : g.isScalar arg = true)
      (sdst : g.isScalar dst = true) (typed : op.Typed (g.elemSize arg) (g.elemSize dst)) :
      ScalarOp g ok ⟨.unary op, [arg], [dst]⟩ dst
  | binary {op : BinOp} {lhs rhs dst : NodeId} (hlhs : ok lhs) (hrhs : ok rhs)
      (slhs : g.isScalar lhs = true) (srhs : g.isScalar rhs = true)
      (sdst : g.isScalar dst = true)
      (typed : op.Typed (g.elemSize lhs) (g.elemSize rhs) (g.elemSize dst)) :
      ScalarOp g ok ⟨.binary op, [lhs, rhs], [dst]⟩ dst

/--
The computation of one element: an operator on scalars reads at least one placeholder, and besides
placeholders only operands of the operator that the body belongs to.
-/
structure BodyValid (g : Graph) (e : Entry) (avail : NodeId → Prop) (outer : List NodeId)
    (pairs : List (NodeId × NodeId)) (result : NodeId) : Prop where
  hole : ∀ p ∈ pairs, g.Hole e p.2
  scalar : ∀ p ∈ pairs, g.isScalar p.2 = true
  size : ∀ p ∈ pairs, g.elemSize p.2 = g.elemSize p.1
  inner : ∃ o, (g.node result).producer = some o ∧
    g.ScalarOp (fun id => id ∈ pairs.map Prod.snd ∨ avail id ∧ id ∈ outer) (g.op o) result ∧
    ∃ id ∈ (g.op o).inputs, id ∈ pairs.map Prod.snd

/-- The rules for the operators of a graph that may only read nodes satisfying a condition. -/
inductive OpValid (g : Graph) (e : Entry) (avail : NodeId → Prop) : Op → NodeId → Prop
  | scalar {op : Op} {dst : NodeId} (h : g.ScalarOp avail op dst) : OpValid g e avail op dst
  | elementwise {inputs : List NodeId} {pairs : List (NodeId × NodeId)} {inner dst : NodeId}
      (hinputs : ∀ id ∈ inputs, avail id)
      (houter : ∀ p ∈ pairs, p.1 ∈ inputs ∧ g.isScalar p.1 = false ∧
        (g.shape p.1).Fits (g.shape dst))
      (sdst : g.isScalar dst = false) (size : g.elemSize inner = g.elemSize dst)
      (body : g.BodyValid e avail inputs pairs inner) :
      OpValid g e avail ⟨.elementwise ⟨pairs, [(inner, dst)]⟩, inputs, [dst]⟩ dst
  | reduction {axes : List Nat} {arg init x acc inner dst : NodeId}
      (harg : avail arg) (hinit : avail init) (sarg : g.isScalar arg = false)
      (sinit : g.isScalar init = true) (isize : g.elemSize init = g.elemSize dst)
      (full : g.isScalar dst = true → withoutAxes axes (g.shape arg) = [])
      (partly : g.isScalar dst = false → g.shape dst = withoutAxes axes (g.shape arg))
      (size : g.elemSize inner = g.elemSize dst)
      (body : g.BodyValid e avail [] [(arg, x), (init, acc)] inner) :
      OpValid g e avail
        ⟨.reduction axes ⟨[(arg, x), (init, acc)], [(inner, dst)]⟩ [init], [arg, init], [dst]⟩ dst
  | getItem {target dst : NodeId} {indices : List NodeId}
      (htarget : avail target) (starget : g.isScalar target = false)
      (hindices : ∀ id ∈ indices, g.IsIndex avail id)
      (rank : indices.length = (g.shape target).length) (sdst : g.isScalar dst = true)
      (size : g.elemSize dst = g.elemSize target) :
      OpValid g e avail ⟨.getItem, target :: indices, [dst]⟩ dst
  | setItem {target value dst : NodeId} {indices : List NodeId}
      (htarget : avail target) (starget : g.isScalar target = false)
      (hvalue : avail value) (svalue : g.isScalar value = true)
      (hindices : ∀ id ∈ indices, g.IsIndex avail id)
      (rank : indices.length = (g.shape target).length)
      (type : g.type dst = g.type target) :
      OpValid g e avail ⟨.setItem, target :: value :: indices, [dst]⟩ dst
  | slice {target dst : NodeId} {selected : List SliceIndex} {sizes : Shape}
      (htarget : avail target) (starget : g.isScalar target = false)
      (hselected : ∀ i ∈ selected, ∀ id ∈ i.nodes, g.IsIndex avail id)
      (selectedLe : selected.length ≤ (g.shape target).length)
      (rank : sizes.length = (g.shape target).length)
      (hsizes : ∀ d ∈ sizes, g.DimValid e avail d)
      (trims : sizes.Trims (g.shape dst)) (sdst : g.isScalar dst = false)
      (size : g.elemSize dst = g.elemSize target) :
      OpValid g e avail
        ⟨.slice selected sizes, target :: selected.flatMap SliceIndex.nodes, [dst]⟩ dst
  | copy {kind : OpKind} {src dst : NodeId} (hkind : kind = .copy ∨ kind = .deepCopy)
      (hsrc : avail src) (same : (g.type dst).sameShape (g.type src) = true) :
      OpValid g e avail ⟨kind, [src], [dst]⟩ dst

/-- An operator of a well-formed kind whose result has known dimensions. -/
structure Computes (g : Graph) (e : Entry) (avail : NodeId → Prop) (op : Op) (dst : NodeId) :
    Prop where
  dims : ∀ d ∈ g.shape dst, g.DimValid e avail d
  valid : g.OpValid e avail op dst

/-! ## Availability -/

/-- A node that has a value before anything is computed. -/
def Source (g : Graph) (e : Entry) (id : NodeId) : Prop :=
  e.node id ∨ ∃ v, (g.node id).constant? = some v

/-- A node that has a value after at most the given number of operators in a row. -/
def AvailableAt (g : Graph) (e : Entry) : Nat → NodeId → Prop
  | 0, id => g.Source e id
  | n + 1, id => g.Source e id ∨
    ∃ o, (g.node id).producer = some o ∧ g.Computes e (g.AvailableAt e n) (g.op o) id

/-- A node that has a value. -/
def Available (g : Graph) (e : Entry) (id : NodeId) : Prop :=
  ∃ n, g.AvailableAt e n id

variable {g : Graph} {e : Entry} {avail avail' : NodeId → Prop}

/-- A constant is a scalar. -/
theorem isScalar_of_constant {id : NodeId} {v : Literal} (h : (g.node id).constant? = some v) :
    g.isScalar id = true := by
  unfold Node.constant? at h
  unfold isScalar Node.isScalar Node.type
  split at h
  · next hkind => rw [hkind]; rfl
  · cases h

/-- An operator on scalars computes a scalar. -/
theorem ScalarOp.isScalar {op : Op} {dst : NodeId} (h : g.ScalarOp avail op dst) :
    g.isScalar dst = true := by
  cases h <;> assumption

theorem IsIndex.mono (h : ∀ id, avail id → avail' id) {id : NodeId} (hid : g.IsIndex avail id) :
    g.IsIndex avail' id :=
  ⟨h id hid.avail, hid.scalar, hid.size⟩

theorem DimValid.mono (h : ∀ id, avail id → avail' id) {d : Dim} (hd : g.DimValid e avail d) :
    g.DimValid e avail' d := by
  cases d with
  | const n => trivial
  | sym name => exact hd
  | node id => exact IsIndex.mono h hd

theorem ScalarOp.mono (h : ∀ id, avail id → avail' id) {op : Op} {dst : NodeId}
    (hop : g.ScalarOp avail op dst) : g.ScalarOp avail' op dst := by
  cases hop with
  | unary harg sarg sdst typed => exact .unary (h _ harg) sarg sdst typed
  | binary hlhs hrhs slhs srhs sdst typed =>
    exact .binary (h _ hlhs) (h _ hrhs) slhs srhs sdst typed

theorem BodyValid.mono (h : ∀ id, avail id → avail' id) {outer : List NodeId}
    {pairs : List (NodeId × NodeId)} {result : NodeId}
    (hbody : g.BodyValid e avail outer pairs result) : g.BodyValid e avail' outer pairs result := by
  obtain ⟨hole, scalar, size, o, hproducer, hop, hreads⟩ := hbody
  refine ⟨hole, scalar, size, o, hproducer, hop.mono ?_, hreads⟩
  rintro id (hid | hid)
  · exact Or.inl hid
  · exact Or.inr ⟨h id hid.1, hid.2⟩

theorem OpValid.mono (h : ∀ id, avail id → avail' id) {op : Op} {dst : NodeId}
    (hop : g.OpValid e avail op dst) : g.OpValid e avail' op dst := by
  cases hop with
  | scalar hop => exact .scalar (hop.mono h)
  | elementwise hinputs houter sdst size body =>
    exact .elementwise (fun id hid => h id (hinputs id hid)) houter sdst size (body.mono h)
  | reduction harg hinit sarg sinit isize full partly size body =>
    exact .reduction (h _ harg) (h _ hinit) sarg sinit isize full partly size (body.mono h)
  | getItem htarget starget hindices rank sdst size =>
    exact .getItem (h _ htarget) starget (fun id hid => (hindices id hid).mono h) rank sdst size
  | setItem htarget starget hvalue svalue hindices rank type =>
    exact .setItem (h _ htarget) starget (h _ hvalue) svalue
      (fun id hid => (hindices id hid).mono h) rank type
  | slice htarget starget hselected selectedLe rank hsizes trims sdst size =>
    exact .slice (h _ htarget) starget (fun i hi id hid => (hselected i hi id hid).mono h)
      selectedLe rank (fun d hd => (hsizes d hd).mono h) trims sdst size
  | copy hkind hsrc same => exact .copy hkind (h _ hsrc) same

theorem Computes.mono (h : ∀ id, avail id → avail' id) {op : Op} {dst : NodeId}
    (hop : g.Computes e avail op dst) : g.Computes e avail' op dst :=
  ⟨fun d hd => (hop.dims d hd).mono h, hop.valid.mono h⟩

/-- What is available stays available if more operators in a row are allowed. -/
theorem AvailableAt.succ {n : Nat} : ∀ {id : NodeId}, g.AvailableAt e n id →
    g.AvailableAt e (n + 1) id := by
  induction n with
  | zero => exact fun h => Or.inl h
  | succ n ih =>
    rintro id (h | ⟨o, hproducer, hop⟩)
    · exact Or.inl h
    · exact Or.inr ⟨o, hproducer, hop.mono fun _ => ih⟩

theorem AvailableAt.mono {n m : Nat} (hnm : n ≤ m) {id : NodeId} (h : g.AvailableAt e n id) :
    g.AvailableAt e m id := by
  induction hnm with
  | refl => exact h
  | step _ ih => exact ih.succ

/-- A node that is available only through its operator is neither given nor a constant. -/
theorem AvailableAt.computed {n : Nat} {id : NodeId} (h : g.AvailableAt e (n + 1) id)
    (hsource : ¬ g.Source e id) : ¬ e.node id ∧ (g.node id).constant? = none ∧
      ∃ o, (g.node id).producer = some o ∧ g.Computes e (g.AvailableAt e n) (g.op o) id := by
  refine ⟨fun hid => hsource (Or.inl hid), ?_, h.resolve_left hsource⟩
  cases hconstant : (g.node id).constant? with
  | none => rfl
  | some v => exact absurd (Or.inr ⟨v, hconstant⟩) hsource

theorem Source.available {id : NodeId} (h : g.Source e id) : g.Available e id := ⟨0, h⟩

/--
What holds of the nodes that have values before anything is computed, and of a node whose operator is
checked against available nodes of which it holds, holds of every available node.
-/
theorem Available.induction {P : NodeId → Prop} (source : ∀ {id : NodeId}, g.Source e id → P id)
    (computed : ∀ {avail : NodeId → Prop} {id : NodeId} {o : OpId},
      (∀ other, avail other → g.Available e other ∧ P other) → g.Available e id → ¬ e.node id →
      (g.node id).constant? = none → (g.node id).producer = some o →
      g.Computes e avail (g.op o) id → P id)
    {id : NodeId} (h : g.Available e id) : P id := by
  obtain ⟨n, hid⟩ := h
  induction n generalizing id with
  | zero => exact source hid
  | succ n ih =>
    by_cases hsource : g.Source e id
    · exact source hsource
    · obtain ⟨hnot, hconstant, o, hproducer, hop⟩ := hid.computed hsource
      exact computed (fun other hother => ⟨⟨n, hother⟩, ih hother⟩) ⟨n + 1, hid⟩ hnot hconstant
        hproducer hop

end Graph

end TensorKernel
