import TensorKernel.Build.Operand
import TensorKernel.Proofs.Graph.Combined
import TensorKernel.Proofs.Graph.Reduction
import TensorKernel.Proofs.Literal

/-!
# What the sizes of slices stand for

The size of a part of an axis is found while a function is built: it is one for a single element, a
constant for a range between constants, the dimension of the axis for the axis in full, and otherwise
a scalar that four operators compute from the bounds and the step.  `Graph.Measures` says which of
these a size is.  The finished graph does not say how its slices came about, so `Graph.Measured`
is kept as an invariant, through calls as well.

Constants come with it: an integer constant is in the range of its type, so it evaluates to itself.
-/

namespace TensorKernel

/-- An operator that was relocated to a slice was one. -/
theorem Relocation.opKind_eq_slice {r : Relocation} {kind : OpKind} {selected : List SliceIndex}
    {sizes : Shape} (h : r.opKind kind = .slice selected sizes) :
    ∃ selected' sizes', kind = .slice selected' sizes' ∧ selected = selected'.map r.index ∧
      sizes = sizes'.map r.dim := by
  cases kind with
  | slice selected' sizes' =>
    obtain ⟨rfl, rfl⟩ := OpKind.slice.inj h
    exact ⟨selected', sizes', rfl, rfl, rfl⟩
  | _ => cases h

namespace Graph

/-- A node that is an integer constant. -/
def IsInt (g : Graph) (id : NodeId) (v : Int64) : Prop :=
  (g.node id).constant? = some (.int v)

/-- A node that is computed by an operator on two scalars. -/
def Applies (g : Graph) (op : BinOp) (lhs rhs dst : NodeId) : Prop :=
  ∃ o, (g.node dst).producer = some o ∧ g.op o = ⟨.binary op, [lhs, rhs], [dst]⟩

/-- A range some part of which is no constant. -/
structure OpenRange (g : Graph) (lower upper step : NodeId) : Prop where
  lower_lt : lower.index < g.nodes.size
  upper_lt : upper.index < g.nodes.size
  step_lt : step.index < g.nodes.size
  unknown : ¬ ∃ l u s, g.IsInt lower l ∧ g.IsInt upper u ∧ g.IsInt step s

/--
A scalar that holds a dimension: a constant, the scalar of a shape symbol, the node of a computed
size, or a copy of one of these, which is of the type of indices.
-/
inductive Spans (g : Graph) (sz : ElemSize) (symbols : Table String ShapeSymbol) : Dim → NodeId → Prop
  | const {id : NodeId} {v : Int64} (h : g.IsInt id v) : Spans g sz symbols (.const v.toInt) id
  | sym {name : String} {symbol : ShapeSymbol} (h : symbols.get? name = some symbol) :
      Spans g sz symbols (.sym name) symbol.node
  | node (id : NodeId) : Spans g sz symbols (.node id) id
  | copy {d : Dim} {o : OpId} {src dst : NodeId} (hproducer : (g.node dst).producer = some o)
      (hop : g.op o = ⟨.copy, [src], [dst]⟩) (htype : g.type dst = .scalar sz)
      (h : Spans g sz symbols d src) : Spans g sz symbols d dst

/-- The size of the part of an axis that an index selects. -/
inductive Measures (g : Graph) (sz : ElemSize) (symbols : Table String ShapeSymbol) (axis : Dim) :
    SliceIndex → Dim → Prop
  | element (i : NodeId) : Measures g sz symbols axis (.element i) (.const 1)
  | constant {lower upper step : NodeId} {l u s : Int64} (hlower : g.IsInt lower l)
      (hupper : g.IsInt upper u) (hstep : g.IsInt step s) :
      Measures g sz symbols axis (.range lower upper step)
        (.const (max (BuildM.rangeLength l.toInt u.toInt s.toInt) 0))
  | whole {lower upper step : NodeId} (hopen : g.OpenRange lower upper step)
      (hlower : g.IsInt lower 0) (hstep : g.IsInt step 1) (hupper : g.Spans sz symbols axis upper) :
      Measures g sz symbols axis (.range lower upper step) axis
  | computed {lower upper step one extent last steps size : NodeId}
      (hopen : g.OpenRange lower upper step) (hone : g.IsInt one 1)
      (hextent : g.Applies .sub upper lower extent) (hlast : g.Applies .sub extent one last)
      (hsteps : g.Applies .floorDiv last step steps) (hsize : g.Applies .add steps one size) :
      Measures g sz symbols axis (.range lower upper step) (.node size)

/-- The sizes of a slice: those of the indexed axes, and the dimensions of the other ones. -/
inductive MeasuresAll (g : Graph) (sz : ElemSize) (symbols : Table String ShapeSymbol) :
    Shape → List SliceIndex → Shape → Prop
  | rest (axes : Shape) : MeasuresAll g sz symbols axes [] axes
  | cons {axis d : Dim} {i : SliceIndex} {axes sizes : Shape} {selected : List SliceIndex}
      (h : g.Measures sz symbols axis i d) (hrest : MeasuresAll g sz symbols axes selected sizes) :
      MeasuresAll g sz symbols (axis :: axes) (i :: selected) (d :: sizes)

/-- Every slice has the sizes that its indices stand for, and every integer constant is of its type. -/
structure Measured (g : Graph) (sz : ElemSize) (symbols : Table String ShapeSymbol) : Prop where
  sizes : ∀ {o : OpId} {selected : List SliceIndex} {sizes : Shape},
    (g.op o).kind = .slice selected sizes → ∃ target rest, (g.op o).inputs = target :: rest ∧
      target.index < g.nodes.size ∧ g.MeasuresAll sz symbols (g.shape target) selected sizes
  constants : ∀ {id : NodeId} {v : Int64}, g.IsInt id v → (g.elemSize id).Holds (.int v)

variable {g g₁ g' : Graph} {e : Entry} {r : Relocation} {sz : ElemSize}
  {symbols symbols' : Table String ShapeSymbol}

theorem IsInt.unique {id : NodeId} {v w : Int64} (hv : g.IsInt id v) (hw : g.IsInt id w) : v = w :=
  Literal.int.inj (Option.some.inj (hv.symm.trans hw))

theorem IsInt.lt {id : NodeId} {v : Int64} (h : g.IsInt id v) : id.index < g.nodes.size :=
  lt_of_constant h

/-- A constant is a scalar that nothing but its kind decides about. -/
theorem isInt_iff_kind {id : NodeId} {v : Int64} :
    g.IsInt id v ↔ ∃ sz, (g.node id).kind = .constant (.int v) sz := by
  unfold IsInt Node.constant?
  split
  · next value sz hkind =>
    rw [hkind]
    constructor
    · intro h
      exact ⟨sz, by rw [Option.some.inj h]⟩
    · rintro ⟨sz', h⟩
      rw [(NodeKind.constant.inj h).1]
  · next hkind =>
    constructor
    · intro h
      cases h
    · rintro ⟨sz, h⟩
      exact absurd h (hkind _ _)

theorem isInt_addConstant (g : Graph) (v : Int64) (size : ElemSize) :
    (g.addConstant (.int v) size).2.IsInt (g.addConstant (.int v) size).1 v :=
  isInt_iff_kind.mpr ⟨size, congrArg Node.kind (addNode_node_self g none _)⟩

theorem applies_applyBinary (g : Graph) (op : BinOp) (lhs rhs : NodeId) (size : ElemSize) :
    (g.applyBinary op lhs rhs size none).2.Applies op lhs rhs
      (g.applyBinary op lhs rhs size none).1 :=
  ⟨⟨g.ops.size⟩, compute_producer .., compute_op ..⟩

/-! ## Places that are found again -/

/-- Every place of the first graph is found in the second one under a relocation. -/
structure Carries (g g' : Graph) (r : Relocation) : Prop where
  node_lt : ∀ {id}, id.index < g.nodes.size → (r.node id).index < g'.nodes.size
  kind : ∀ {id}, id.index < g.nodes.size → (g'.node (r.node id)).kind = r.nodeKind (g.node id).kind
  producer : ∀ {id o}, (g.node id).producer = some o →
    (g'.node (r.node id)).producer = some (r.op o)
  op : ∀ {o}, o.index < g.ops.size → g'.op (r.op o) = r.opData (g.op o)

theorem Embeds.carries {e' : Entry} (h : Embeds g e g' e' r) : g.Carries g' r :=
  ⟨h.node_lt, h.kind, h.producer, h.op⟩

theorem Extends.carries (h : g.Extends g') : g.Carries g' .identity :=
  (h.embeds (e := ⟨fun _ => False, fun _ => False, fun _ => False⟩)).carries

namespace Carries

variable (hc : g.Carries g' r)
include hc

/-- Where everything is given there is no placeholder to be found. -/
theorem embeds (e' : Entry) :
    Embeds g ⟨fun _ => True, fun _ => False, fun _ => False⟩ g' e' r :=
  ⟨hc.node_lt, hc.kind, hc.producer, fun hole => absurd trivial hole.notGiven, hc.op⟩

theorem type {id : NodeId} (hid : id.index < g.nodes.size) :
    g'.type (r.node id) = r.type (g.type id) :=
  (hc.embeds ⟨fun _ => False, fun _ => False, fun _ => False⟩).type hid

theorem elemSize {id : NodeId} (hid : id.index < g.nodes.size) :
    g'.elemSize (r.node id) = g.elemSize id :=
  (hc.embeds ⟨fun _ => False, fun _ => False, fun _ => False⟩).elemSize hid

theorem shape {id : NodeId} (hid : id.index < g.nodes.size) :
    g'.shape (r.node id) = (g.shape id).map r.dim :=
  (hc.embeds ⟨fun _ => False, fun _ => False, fun _ => False⟩).shape hid

theorem isInt_iff {id : NodeId} (hid : id.index < g.nodes.size) {v : Int64} :
    g'.IsInt (r.node id) v ↔ g.IsInt id v := by
  unfold IsInt
  rw [(hc.embeds ⟨fun _ => False, fun _ => False, fun _ => False⟩).constant hid]

theorem isInt {id : NodeId} {v : Int64} (h : g.IsInt id v) : g'.IsInt (r.node id) v :=
  (hc.isInt_iff h.lt).mpr h

theorem applies {op : BinOp} {lhs rhs dst : NodeId} (h : g.Applies op lhs rhs dst) :
    g'.Applies op (r.node lhs) (r.node rhs) (r.node dst) := by
  obtain ⟨o, hproducer, hop⟩ := h
  refine ⟨r.op o, hc.producer hproducer, ?_⟩
  rw [hc.op (lt_of_op hop nofun), hop]
  rfl

theorem openRange {lower upper step : NodeId} (h : g.OpenRange lower upper step) :
    g'.OpenRange (r.node lower) (r.node upper) (r.node step) := by
  refine ⟨hc.node_lt h.lower_lt, hc.node_lt h.upper_lt, hc.node_lt h.step_lt, ?_⟩
  rintro ⟨l, u, s, hl, hu, hs⟩
  exact h.unknown ⟨l, u, s, (hc.isInt_iff h.lower_lt).mp hl, (hc.isInt_iff h.upper_lt).mp hu,
    (hc.isInt_iff h.step_lt).mp hs⟩

section Measures

-- What the first graph calls a symbol is a dimension of the second one, which the same scalar holds.
variable (hsymbols : ∀ {name symbol}, symbols.get? name = some symbol →
  g'.Spans sz symbols' (r.symbol name) (r.node symbol.node))
include hsymbols

theorem spans {d : Dim} {id : NodeId} (h : g.Spans sz symbols d id) :
    g'.Spans sz symbols' (r.dim d) (r.node id) := by
  induction h with
  | const h => exact .const (hc.isInt h)
  | sym h => exact hsymbols h
  | node id => exact .node _
  | @copy d o src dst hproducer hop htype _ ih =>
    refine .copy (hc.producer hproducer) ?_ ?_ ih
    · rw [hc.op (lt_of_op hop nofun), hop]
      rfl
    · rw [hc.type (lt_of_producer hproducer), htype]
      rfl

theorem measures {axis d : Dim} {i : SliceIndex} (h : g.Measures sz symbols axis i d) :
    g'.Measures sz symbols' (r.dim axis) (r.index i) (r.dim d) := by
  cases h with
  | element i => exact .element _
  | constant hlower hupper hstep =>
    exact .constant (hc.isInt hlower) (hc.isInt hupper) (hc.isInt hstep)
  | whole hopen hlower hstep hupper =>
    exact .whole (hc.openRange hopen) (hc.isInt hlower) (hc.isInt hstep) (hc.spans hsymbols hupper)
  | computed hopen hone hextent hlast hsteps hsize =>
    exact .computed (hc.openRange hopen) (hc.isInt hone) (hc.applies hextent) (hc.applies hlast)
      (hc.applies hsteps) (hc.applies hsize)

theorem measuresAll {axes sizes : Shape} {selected : List SliceIndex}
    (h : g.MeasuresAll sz symbols axes selected sizes) :
    g'.MeasuresAll sz symbols' (axes.map r.dim) (selected.map r.index) (sizes.map r.dim) := by
  induction h with
  | rest axes => exact .rest _
  | cons h _ ih => exact .cons (hc.measures hsymbols h) ih

end Measures

end Carries

theorem Spans.extend {d : Dim} {id : NodeId} (h : g.Spans sz symbols d id)
    (hc : g.Carries g' .identity) : g'.Spans sz symbols d id := by
  have hcarried : g'.Spans sz symbols (Relocation.identity.dim d) (Relocation.identity.node id) :=
    hc.spans .sym h
  rwa [Relocation.identity_dim, Relocation.identity_node] at hcarried

theorem Measures.extend {axis d : Dim} {i : SliceIndex} (h : g.Measures sz symbols axis i d)
    (hc : g.Carries g' .identity) : g'.Measures sz symbols axis i d := by
  have hindex : Relocation.identity.index i = i := by cases i <;> rfl
  have hcarried : g'.Measures sz symbols (Relocation.identity.dim axis)
      (Relocation.identity.index i) (Relocation.identity.dim d) := hc.measures .sym h
  rwa [Relocation.identity_dim, Relocation.identity_dim, hindex] at hcarried

theorem MeasuresAll.extend {axes sizes : Shape} {selected : List SliceIndex}
    (h : g.MeasuresAll sz symbols axes selected sizes) (hc : g.Carries g' .identity) :
    g'.MeasuresAll sz symbols axes selected sizes := by
  induction h with
  | rest axes => exact .rest _
  | cons h _ ih => exact .cons (h.extend hc) ih

/-- Every index of a slice measures a part of the axis that it belongs to. -/
theorem MeasuresAll.getElem? {axes sizes : Shape} {selected : List SliceIndex}
    (h : g.MeasuresAll sz symbols axes selected sizes) {k : Nat} {i : SliceIndex}
    (hk : selected[k]? = some i) :
    ∃ axis d, axes[k]? = some axis ∧ sizes[k]? = some d ∧ g.Measures sz symbols axis i d := by
  induction h generalizing k with
  | rest axes => cases hk
  | @cons axis d j axes sizes selected h _ ih =>
    cases k with
    | zero =>
      obtain rfl := Option.some.inj hk
      exact ⟨axis, d, rfl, rfl, h⟩
    | succ k => exact ih hk

/-! ## Graphs without further slices -/

/--
A graph with further nodes and operators.  No slice is among them, and every new integer constant is
in the range of its type.
-/
structure Adjoins (g g' : Graph) : Prop where
  ops_le : g.ops.size ≤ g'.ops.size
  carries : g.Carries g' .identity
  slice : ∀ {o selected sizes}, (g'.op o).kind = .slice selected sizes → o.index < g.ops.size
  constant : ∀ {id v}, g.nodes.size ≤ id.index → g'.IsInt id v → (g'.elemSize id).Holds (.int v)

theorem lt_of_slice {o : OpId} {selected : List SliceIndex} {sizes : Shape}
    (h : (g.op o).kind = .slice selected sizes) : o.index < g.ops.size := by
  by_contra hge
  rw [op_of_size_le (Nat.le_of_not_lt hge)] at h
  cases h

namespace Adjoins

theorem refl (g : Graph) : g.Adjoins g where
  ops_le := Nat.le_refl _
  carries := (Extends.refl g).carries
  slice := lt_of_slice
  constant hge hint := absurd hint.lt (Nat.not_lt.mpr hge)

/-- An operator that was there stays as it is. -/
theorem op_eq (h : g.Adjoins g') {o : OpId} (ho : o.index < g.ops.size) : g'.op o = g.op o := by
  have hop := h.carries.op ho
  rwa [Relocation.identity_op, Relocation.identity_opData] at hop

theorem trans (h : g.Adjoins g₁) (h' : g₁.Adjoins g') : g.Adjoins g' where
  ops_le := Nat.le_trans h.ops_le h'.ops_le
  carries := by
    refine ⟨fun hid => h'.carries.node_lt (h.carries.node_lt hid), fun {id} hid => ?_,
      fun hproducer => h'.carries.producer (h.carries.producer hproducer), fun {o} ho => ?_⟩
    · have hfirst := h.carries.kind hid
      have hsecond := h'.carries.kind (h.carries.node_lt hid)
      simp only [Relocation.identity_node, Relocation.identity_nodeKind] at hfirst hsecond ⊢
      rw [hsecond, hfirst]
    · rw [Relocation.identity_op, Relocation.identity_opData,
        h'.op_eq (Nat.lt_of_lt_of_le ho h.ops_le), h.op_eq ho]
  slice hslice := by
    have hlt := h'.slice hslice
    rw [h'.op_eq hlt] at hslice
    exact h.slice hslice
  constant {id v} hge hint := by
    by_cases hlt : id.index < g₁.nodes.size
    · have hold : g₁.IsInt id v := (h'.carries.isInt_iff hlt).mp hint
      have hsize : g'.elemSize id = g₁.elemSize id := h'.carries.elemSize hlt
      rw [hsize]
      exact h.constant hge hold
    · exact h'.constant (Nat.le_of_not_lt hlt) hint

/-- A new node that is no integer constant out of its type. -/
theorem addNode (name : Option String) (kind : NodeKind)
    (hkind : ∀ v sz, kind = .constant (.int v) sz → sz.Holds (.int v)) :
    g.Adjoins (g.addNode name kind).2 where
  ops_le := Nat.le_refl _
  carries := ((Extends.refl g).addNode name kind).carries
  slice := lt_of_slice
  constant {id v} hge hint := by
    obtain rfl := eq_of_size_le (addNode_nodes_size g name kind) hge hint.lt
    obtain ⟨sz, hconstant⟩ := isInt_iff_kind.mp hint
    rw [addNode_node_self] at hconstant
    obtain rfl : kind = .constant (.int v) sz := hconstant
    rw [elemSize, addNode_node_self]
    exact hkind v sz rfl

/-- An operator that is no slice computes a node that nothing computed. -/
theorem addOp {kind : OpKind} (hkind : ∀ selected sizes, kind ≠ .slice selected sizes)
    (inputs : List NodeId) {dst : NodeId} (hdst : (g.node dst).producer = none) :
    g.Adjoins (g.addOp kind inputs [dst]).2 where
  ops_le := by
    rw [addOp_ops_size]
    exact Nat.le_succ _
  carries := by
    refine ⟨fun hid => ?_, fun {id} hid => ?_, fun {id o} hproducer => ?_, fun {o} ho => ?_⟩
    · rw [addOp_nodes_size]
      exact hid
    · rw [Relocation.identity_node, Relocation.identity_nodeKind, addOp_kind]
    · have hne : ¬ (id ∈ [dst] ∧ id.index < g.nodes.size) := by
        rintro ⟨hmem, -⟩
        rw [List.mem_singleton.mp hmem, hdst] at hproducer
        cases hproducer
      rw [Relocation.identity_node, Relocation.identity_op, addOp_producer, if_neg hne, hproducer]
    · rw [Relocation.identity_op, Relocation.identity_opData, addOp_op, if_neg (Nat.ne_of_lt ho)]
  slice {o selected sizes} hslice := by
    have hlt := lt_of_slice hslice
    rw [addOp_ops_size] at hlt
    rw [addOp_op] at hslice
    by_cases heq : o.index = g.ops.size
    · rw [if_pos heq] at hslice
      exact absurd hslice (hkind selected sizes)
    · omega
  constant hge hint := by
    have hlt := hint.lt
    rw [addOp_nodes_size] at hlt
    omega

/-- A new node is computed by an operator that is no slice. -/
theorem compute (name : Option String) (kind : NodeKind) (op : OpKind) (inputs : List NodeId)
    (hkind : ∀ v sz, kind ≠ .constant v sz) (hop : ∀ selected sizes, op ≠ .slice selected sizes) :
    g.Adjoins (g.compute name kind op inputs).2 :=
  (addNode name kind fun _ _ h => absurd h (hkind _ _)).trans
    (addOp hop inputs (by rw [addNode_node_self]))

theorem addScalar (name : Option String) (sz : ElemSize) : g.Adjoins (g.addScalar name sz).2 :=
  addNode name _ nofun

theorem addConstant {v : Literal} {sz : ElemSize} (h : ∀ i, v = .int i → sz.Holds (.int i)) :
    g.Adjoins (g.addConstant v sz).2 :=
  addNode none _ fun i sz' heq => by
    obtain ⟨hv, rfl⟩ := NodeKind.constant.inj heq
    exact h i hv

theorem bindOperand (inputs : List (NodeId × NodeId)) (id : NodeId) :
    g.Adjoins (g.bindOperand inputs id).2.2 := by
  unfold Graph.bindOperand
  split
  · exact refl g
  · split
    · exact refl g
    · exact addScalar _ _

theorem applyUnary (op : UnOp) (arg : NodeId) (sz : ElemSize) :
    g.Adjoins (g.applyUnary op arg sz).2 := by
  have hscalarOp : ∀ selected sizes, OpKind.unary op ≠ .slice selected sizes := by
    rintro _ _ ⟨⟩
  have hscalarKind : ∀ v size, NodeKind.scalar sz ≠ .constant v size := by
    rintro _ _ ⟨⟩
  cases hscalar : g.isScalar arg with
  | true =>
    rw [Graph.applyUnary, if_pos hscalar]
    exact compute none _ _ [arg] hscalarKind hscalarOp
  | false =>
    rw [applyUnary_eq g op sz hscalar]
    refine .trans ?_ (compute none (.tensor sz (g.shape arg)) (.elementwise _) _
      (by rintro _ _ ⟨⟩) (by rintro _ _ ⟨⟩))
    exact (addScalar _ _).trans (compute none _ _ _ hscalarKind hscalarOp)

theorem applyBinary (op : BinOp) (lhs rhs : NodeId) (sz : ElemSize) (shape : Option Shape) :
    g.Adjoins (g.applyBinary op lhs rhs sz shape).2 := by
  cases shape with
  | none => exact compute none (.scalar sz) (.binary op) [lhs, rhs] nofun nofun
  | some shape =>
    rw [applyBinary_eq]
    refine .trans ?_ (compute none (.tensor sz shape) (.elementwise _) _ nofun nofun)
    refine .trans ?_ (compute none (.scalar sz) (.binary op) _ nofun nofun)
    exact (bindOperand [] lhs).trans (bindOperand _ rhs)

theorem applyReduction (op : BinOp) (arg : NodeId) (axes : List Nat) (sz : ElemSize) {v : Literal}
    (h : ∀ i, v = .int i → sz.Holds (.int i)) : g.Adjoins (g.applyReduction op arg axes sz v).2 := by
  rw [applyReduction_eq]
  have hresult : ∀ w size, reductionKind sz (withoutAxes axes (g.shape arg)) ≠ .constant w size := by
    intro w size
    unfold reductionKind
    split <;> nofun
  refine .trans ?_ (compute none _ (.reduction axes _ _) _ hresult nofun)
  refine .trans ?_ (compute none (.scalar sz) (.binary op) _ nofun nofun)
  exact ((addConstant h).trans (addScalar _ _)).trans (addScalar none sz)

end Adjoins

/-! ## Keeping track -/

/-- Without operators and constants there is nothing to keep track of. -/
theorem measured_of_given (hops : g.ops.size = 0)
    (hconstant : ∀ id : NodeId, id.index < g.nodes.size → (g.node id).constant? = none) :
    g.Measured sz symbols where
  sizes hslice := by
    have hlt := lt_of_slice hslice
    omega
  constants {id v} hint := by
    have hnone := hconstant id hint.lt
    rw [hint] at hnone
    cases hnone

namespace Measured

variable (h : g.Measured sz symbols)
include h

theorem adjoins (ha : g.Adjoins g') : g'.Measured sz symbols where
  sizes {o selected sizes} hslice := by
    have hlt := ha.slice hslice
    rw [ha.op_eq hlt] at hslice ⊢
    obtain ⟨target, rest, hinputs, htarget, hsizes⟩ := h.sizes hslice
    have hshape := ha.carries.shape htarget
    rw [Relocation.identity_node, Relocation.identity_map_dim] at hshape
    refine ⟨target, rest, hinputs, ha.carries.node_lt htarget, ?_⟩
    rw [hshape]
    exact hsizes.extend ha.carries
  constants {id v} hint := by
    by_cases hlt : id.index < g.nodes.size
    · have hsize : g'.elemSize id = g.elemSize id := ha.carries.elemSize hlt
      rw [hsize]
      exact h.constants ((ha.carries.isInt_iff hlt).mp hint)
    · exact ha.constant (Nat.le_of_not_lt hlt) hint

/-- A slice of the sizes that its indices stand for. -/
theorem slice {name : Option String} {size : ElemSize} {shape : Shape} {selected : List SliceIndex}
    {sizes : Shape} {target : NodeId} (htarget : target.index < g.nodes.size) (rest : List NodeId)
    (hsizes : g.MeasuresAll sz symbols (g.shape target) selected sizes) :
    (g.compute name (.tensor size shape) (.slice selected sizes) (target :: rest)).2.Measured sz
      symbols where
  sizes {o selected' sizes'} hslice := by
    have hext := compute_extends g name (.tensor size shape) (.slice selected sizes) (target :: rest)
    have hkeep {id : NodeId} (hid : id.index < g.nodes.size) :=
      Nat.lt_of_lt_of_le hid hext.nodes_le
    by_cases hlt : o.index < g.ops.size
    · rw [hext.op_eq o hlt] at hslice ⊢
      obtain ⟨target', rest', hinputs, htarget', hsizes'⟩ := h.sizes hslice
      refine ⟨target', rest', hinputs, hkeep htarget', ?_⟩
      rw [hext.shape_eq htarget']
      exact hsizes'.extend hext.carries
    · -- The only new operator is the slice itself.
      have hnew := lt_of_slice hslice
      rw [compute_ops_size] at hnew
      obtain rfl : o = ⟨g.ops.size⟩ := by
        cases o
        simp only [OpId.mk.injEq] at *
        omega
      rw [compute_op] at hslice ⊢
      obtain ⟨rfl, rfl⟩ := OpKind.slice.inj hslice
      refine ⟨target, rest, rfl, hkeep htarget, ?_⟩
      rw [hext.shape_eq htarget]
      exact hsizes.extend hext.carries
  constants {id v} hint := by
    have hext := compute_extends g name (.tensor size shape) (.slice selected sizes) (target :: rest)
    by_cases hlt : id.index < g.nodes.size
    · rw [hext.elemSize_eq hlt]
      exact h.constants ((hext.carries.isInt_iff hlt).mp hint)
    · obtain rfl := eq_of_size_le (compute_nodes_size ..) (Nat.le_of_not_lt hlt) hint.lt
      obtain ⟨size', hkind⟩ := isInt_iff_kind.mp hint
      rw [compute_kind] at hkind
      cases hkind

/--
A copy of a measured graph behind the graph, in which the symbols of the copy are dimensions that
their scalars hold.  Constants may have been added behind it.
-/
theorem spliced {inner : Graph} {symbol : String → Dim} {copied : List (NodeId × NodeId)}
    (hinner : inner.Measured sz symbols')
    (hs : g.Spliced inner (g.relocation symbol) copied g')
    (hc : inner.Carries g' (g.relocation symbol))
    (hsymbols : ∀ {name s}, symbols'.get? name = some s →
      g'.Spans sz symbols (symbol name) ((g.relocation symbol).node s.node))
    (hconstant : ∀ {id v}, g.nodes.size + inner.nodes.size ≤ id.index → g'.IsInt id v →
      (g'.elemSize id).Holds (.int v)) : g'.Measured sz symbols where
  sizes {o selected sizes} hslice := by
    have hext := hs.ext
    by_cases hlt : o.index < g.ops.size
    · rw [hext.op_eq o hlt] at hslice ⊢
      obtain ⟨target, rest, hinputs, htarget, hsizes⟩ := h.sizes hslice
      refine ⟨target, rest, hinputs, Nat.lt_of_lt_of_le htarget hext.nodes_le, ?_⟩
      rw [hext.shape_eq htarget]
      exact hsizes.extend hext.carries
    -- A slice of the copy has its sizes relocated; a copy that feeds it has none.
    · rcases hs.newOp o (Nat.le_of_not_lt hlt) (lt_of_slice hslice) with
        ⟨o', ho', rfl⟩ | ⟨p, hp, -, hcopy⟩
      · rw [hc.op ho'] at hslice ⊢
        obtain ⟨selected', sizes', hkind, rfl, rfl⟩ := Relocation.opKind_eq_slice hslice
        obtain ⟨target, rest, hinputs, htarget, hsizes⟩ := hinner.sizes hkind
        refine ⟨_, _, congrArg (List.map (g.relocation symbol).node) hinputs, hc.node_lt htarget, ?_⟩
        rw [hc.shape htarget]
        exact hc.measuresAll hsymbols hsizes
      · rw [hcopy] at hslice
        cases hslice
  constants {id v} hint := by
    have hext := hs.ext
    by_cases hlt : id.index < g.nodes.size
    · rw [hext.elemSize_eq hlt]
      exact h.constants ((hext.carries.isInt_iff hlt).mp hint)
    -- A constant is one of the copy, or was added behind it.
    · by_cases hcopied : id.index < g.nodes.size + inner.nodes.size
      · obtain ⟨id', hid', rfl⟩ :=
          exists_relocated g inner symbol (Nat.le_of_not_lt hlt) hcopied
        rw [hc.elemSize hid']
        exact hinner.constants ((hc.isInt_iff hid').mp hint)
      · exact hconstant (Nat.le_of_not_lt hcopied) hint

end Measured

/-! ## Closed bodies and known shapes -/

/--
The bodies of a graph are closed, the sizes of its slices are what their indices stand for, and its
operators on elements give the shapes that their operands broadcast to.
-/
structure Orderly (g : Graph) (e : Entry) (sz : ElemSize) (symbols : Table String ShapeSymbol) :
    Prop where
  enclosed : g.Enclosed e
  measured : g.Measured sz symbols
  combined : g.Combined

namespace Orderly

section Applied

variable (h : g.Orderly e sz symbols) (hv : g.Valid e)
include h hv

theorem addConstant {v : Literal} {size : ElemSize}
    (hfits : ∀ i, v = .int i → size.Holds (.int i)) :
    (g.addConstant v size).2.Orderly e sz symbols :=
  ⟨h.enclosed.addConstant hv v size, h.measured.adjoins (.addConstant hfits),
    h.combined.addNode none _⟩

theorem compute (name : Option String) {kind : NodeKind}
    (hkind : ∀ v size, kind ≠ .constant v size) {op : OpKind} (hop : op.placeholders = [])
    (hslice : ∀ selected sizes, op ≠ .slice selected sizes)
    (helementwise : ∀ body, op ≠ .elementwise body) {inputs : List NodeId}
    (hinputs : ∀ id ∈ inputs, g.Available e id) :
    (g.compute name kind op inputs).2.Orderly e sz symbols :=
  ⟨h.enclosed.compute hv name kind hop hinputs,
    h.measured.adjoins (.compute name kind op inputs hkind hslice),
    h.combined.compute (combines_of_ne helementwise)⟩

theorem slice (name : Option String) (size : ElemSize) (shape : Shape) {selected : List SliceIndex}
    {sizes : Shape} {target : NodeId} {rest : List NodeId}
    (hinputs : ∀ id ∈ target :: rest, g.Available e id)
    (hsizes : g.MeasuresAll sz symbols (g.shape target) selected sizes) :
    (g.compute name (.tensor size shape) (.slice selected sizes) (target :: rest)).2.Orderly e sz
      symbols :=
  ⟨h.enclosed.compute hv name _ rfl hinputs,
    h.measured.slice ((hinputs target (List.mem_cons_self ..)).lt hv.entry) rest hsizes,
    h.combined.compute (combines_of_ne nofun)⟩

theorem computeResult {dst src : NodeId} {op : OpKind} (hdst : e.result dst)
    (hproducer : (g.node dst).producer = none) (hop : op.placeholders = [])
    (hslice : ∀ selected sizes, op ≠ .slice selected sizes)
    (helementwise : ∀ body, op ≠ .elementwise body) (hsrc : g.Available e src) :
    (g.addOp op [src] [dst]).2.Orderly e sz symbols :=
  ⟨h.enclosed.computeResult hv hdst hproducer hop hsrc,
    h.measured.adjoins (.addOp hslice [src] hproducer), h.combined.addOp helementwise [src] [dst]⟩

theorem applyUnary (op : UnOp) {arg : NodeId} (harg : g.Available e arg) (size : ElemSize) :
    (g.applyUnary op arg size).2.Orderly e sz symbols :=
  ⟨h.enclosed.applyUnary hv op harg size, h.measured.adjoins (.applyUnary op arg size),
    h.combined.applyUnary op (harg.lt hv.entry) size⟩

theorem applyBinary (op : BinOp) {lhs rhs : NodeId} (hlhs : g.Available e lhs)
    (hrhs : g.Available e rhs) (size : ElemSize) {shape : Option Shape}
    (hshape : ∀ s, shape = some s → Shape.broadcast? (g.shape lhs) (g.shape rhs) = some s) :
    (g.applyBinary op lhs rhs size shape).2.Orderly e sz symbols :=
  ⟨h.enclosed.applyBinary hv op hlhs hrhs size shape,
    h.measured.adjoins (.applyBinary op lhs rhs size shape),
    h.combined.applyBinary op (hlhs.lt hv.entry) (hrhs.lt hv.entry) size hshape⟩

theorem applyReduction (op : BinOp) {arg : NodeId} (harg : g.Available e arg) (axes : List Nat)
    (size : ElemSize) {v : Literal} (hfits : ∀ i, v = .int i → size.Holds (.int i)) :
    (g.applyReduction op arg axes size v).2.Orderly e sz symbols :=
  ⟨h.enclosed.applyReduction hv op harg axes size v,
    h.measured.adjoins (.applyReduction op arg axes size hfits),
    h.combined.applyReduction op arg axes size v⟩

end Applied

end Orderly

end Graph

namespace FunctionBuilder

/-- The builder looks for integer constants at the nodes of its graph. -/
theorem constantInt?_eq_some {b : FunctionBuilder} {id : NodeId} {v : Int64} :
    b.constantInt? id = some v ↔ b.graph.IsInt id v := by
  unfold constantInt? Graph.IsInt
  split
  · next w hw =>
    rw [hw]
    simp
  · next hne =>
    constructor
    · intro h
      cases h
    · intro h
      exact absurd h (hne v)

end FunctionBuilder

end TensorKernel
