import TensorKernel.Proofs.Graph.Valid

/-!
# Applied operators

Applying an operator to available nodes of a valid graph gives a valid graph in which the result is
available and has the type that was asked for.  `Graph.Produces` bundles these facts, and there is
one lemma for each way of applying an operator.
-/

namespace TensorKernel

namespace Shape

theorem alignedFits_refl (ds : List Dim) : alignedFits ds ds := by
  induction ds with
  | nil => trivial
  | cons d ds ih => exact ⟨Or.inl rfl, ih⟩

theorem Fits.refl (shape : Shape) : shape.Fits shape := alignedFits_refl _

/-- Both operands can be read along the axes that they are joined to. -/
theorem alignedFits_join {ls rs : List Dim} (h : alignedCompatible ls rs = true) :
    alignedFits ls (alignedJoin ls rs) ∧ alignedFits rs (alignedJoin ls rs) := by
  induction ls generalizing rs with
  | nil => exact ⟨trivial, by cases rs <;> exact alignedFits_refl _⟩
  | cons l ls ih =>
    cases rs with
    | nil => exact ⟨alignedFits_refl _, trivial⟩
    | cons r rs =>
      simp only [alignedCompatible, Bool.and_eq_true, Dim.compatible, Bool.or_eq_true,
        beq_iff_eq] at h
      obtain ⟨hl, hr⟩ := ih h.2
      by_cases hone : l.isOne = true
      · exact ⟨⟨Or.inr hone, hl⟩, ⟨Or.inl (by simp [join, hone]), hr⟩⟩
      · refine ⟨⟨Or.inl (by simp [join, hone]), hl⟩, ⟨?_, hr⟩⟩
        rcases h.1 with (heq | hl') | hr'
        · exact Or.inl (by simp [join, heq])
        · exact absurd hl' hone
        · exact Or.inr hr'

/-- A dimension of joined lists belongs to one of them. -/
theorem mem_of_mem_alignedJoin {ls rs : List Dim} {d : Dim} (h : d ∈ alignedJoin ls rs) :
    d ∈ ls ∨ d ∈ rs := by
  induction ls generalizing rs with
  | nil => cases rs <;> exact Or.inr h
  | cons l ls ih =>
    cases rs with
    | nil => exact Or.inl h
    | cons r rs =>
      rcases List.mem_cons.mp h with rfl | h
      · by_cases hone : l.isOne = true <;> simp [join, hone]
      · rcases ih h with h | h
        · exact Or.inl (List.mem_cons_of_mem _ h)
        · exact Or.inr (List.mem_cons_of_mem _ h)

theorem broadcast?_eq_some {l r s : Shape} (h : broadcast? l r = some s) :
    l.Fits s ∧ r.Fits s ∧ ∀ d ∈ s, d ∈ l ∨ d ∈ r := by
  unfold broadcast? at h
  split at h
  · next hcompatible =>
    obtain rfl := Option.some.inj h
    obtain ⟨hl, hr⟩ := alignedFits_join hcompatible
    refine ⟨?_, ?_, fun d hd => ?_⟩
    · simpa only [Fits, List.reverse_reverse] using hl
    · simpa only [Fits, List.reverse_reverse] using hr
    · simpa using mem_of_mem_alignedJoin (List.mem_reverse.mp hd)
  · cases h

end Shape

namespace Graph

variable {g : Graph} {e : Entry}

theorem elemSize_of_type {id : NodeId} {ty : KernelType} (h : g.type id = ty) :
    g.elemSize id = ty.elemSize :=
  congrArg KernelType.elemSize h

theorem isScalar_of_type {id : NodeId} {ty : KernelType} (h : g.type id = ty) :
    g.isScalar id = ty.isScalar :=
  congrArg KernelType.isScalar h

theorem shape_of_type {id : NodeId} {ty : KernelType} (h : g.type id = ty) :
    g.shape id = ty.shape :=
  congrArg KernelType.shape h

theorem type_of_isScalar {id : NodeId} (h : g.isScalar id = true) :
    g.type id = .scalar (g.elemSize id) := by
  simp only [isScalar, Node.isScalar, elemSize, Node.elemSize, type] at *
  cases hty : (g.node id).type with
  | scalar sz => rfl
  | tensor sz shape => rw [hty] at h; cases h

theorem type_of_not_isScalar {id : NodeId} (h : g.isScalar id = false) :
    g.type id = .tensor (g.elemSize id) (g.shape id) := by
  simp only [isScalar, Node.isScalar, elemSize, Node.elemSize, shape, Node.shape, type] at *
  cases hty : (g.node id).type with
  | scalar sz => rw [hty] at h; cases h
  | tensor sz shape => rfl

theorem shape_of_isScalar {id : NodeId} (h : g.isScalar id = true) : g.shape id = [] := by
  simp only [isScalar, Node.isScalar, shape, Node.shape] at *
  cases hty : (g.node id).type with
  | scalar sz => rfl
  | tensor sz shape => rw [hty] at h; cases h

/-- The dimensions of an available node have known sizes. -/
theorem Available.dims (hv : g.Valid e) {id : NodeId} (h : g.Available e id) :
    ∀ d ∈ g.shape id, g.DimValid e (g.Available e) d := by
  rcases h.cases hv.coherent with (hgiven | ⟨v, hconstant⟩) | ⟨o, -, hop⟩
  · intro d hd
    rcases hv.entry.dims hgiven d hd with ⟨n, rfl⟩ | ⟨name, rfl, hname⟩
    · trivial
    · exact hname
  · have hscalar : g.isScalar id = true := by
      simp only [Node.constant?] at hconstant
      simp only [isScalar, Node.isScalar, Node.type]
      split at hconstant
      · next hkind => rw [hkind]; rfl
      · cases hconstant
    simp [shape_of_isScalar hscalar]
  · exact hop.dims

/-- A larger graph in which a node of the given type is available. -/
structure Produces (g : Graph) (e : Entry) (result : NodeId × Graph) (ty : KernelType) : Prop where
  ext : g.Extends result.2
  valid : result.2.Valid e
  available : result.2.Available e result.1
  type : result.2.type result.1 = ty

theorem produces_constant (hv : g.Valid e) (v : Literal) (sz : ElemSize) :
    g.Produces e (g.addConstant v sz) (.scalar sz) where
  ext := (Extends.refl g).addNode _ _
  valid := hv.addNode _ _
  available := Source.available (Or.inr ⟨v, by simp [addConstant, Node.constant?]⟩)
  type := by simp [addConstant, type, Node.type]

section NewNode

variable {name : Option String} {kind : NodeKind} {op : OpKind} {inputs : List NodeId}

theorem type_compute (g : Graph) (op : OpKind) (inputs : List NodeId) {ty : KernelType}
    (hkind : Node.type ⟨name, kind, none, []⟩ = ty) :
    (g.compute name kind op inputs).2.type ⟨g.nodes.size⟩ = ty := by
  simpa only [type, Node.type, compute_kind] using hkind

theorem type_compute_scalar (g : Graph) (sz : ElemSize) (op : OpKind) (inputs : List NodeId) :
    (g.compute none (.scalar sz) op inputs).2.type ⟨g.nodes.size⟩ = .scalar sz :=
  type_compute g op inputs rfl

theorem type_compute_tensor (g : Graph) (sz : ElemSize) (shape : Shape) (op : OpKind)
    (inputs : List NodeId) :
    (g.compute none (.tensor sz shape) op inputs).2.type ⟨g.nodes.size⟩ = .tensor sz shape :=
  type_compute g op inputs rfl

/-- Adding a node with the operator that computes it. -/
theorem produces_compute (hv : g.Valid e) {ty : KernelType}
    (hkind : Node.type ⟨name, kind, none, []⟩ = ty)
    (hdims : ∀ d ∈ ty.shape, g.DimValid e (g.Available e) d)
    (h : (g.compute name kind op inputs).2.OpValid e (g.Available e)
      ⟨op, inputs, [⟨g.nodes.size⟩]⟩ ⟨g.nodes.size⟩) :
    g.Produces e (g.compute name kind op inputs) ty := by
  have hext := compute_extends g name kind op inputs
  have htype := type_compute g op inputs hkind
  have hcomputes : (g.compute name kind op inputs).2.Computes e (g.Available e)
      ⟨op, inputs, [⟨g.nodes.size⟩]⟩ ⟨g.nodes.size⟩ := by
    refine ⟨fun d hd => ?_, h⟩
    rw [shape, Node.shape, show ((g.compute name kind op inputs).2.node ⟨g.nodes.size⟩).type = ty
      from htype] at hd
    have hd' := hdims d hd
    cases d with
    | const n => trivial
    | sym name => exact hd'
    | node id =>
      have hlt := hd'.avail.lt hv.entry
      exact ⟨hd'.avail, by rw [hext.isScalar_eq hlt, hd'.scalar],
        by rw [hext.elemSize_eq hlt, hd'.size]⟩
  obtain ⟨hvalid, havailable⟩ := hv.compute hcomputes
  exact ⟨hext, hvalid, havailable, htype⟩

end NewNode

/-! ## Operators on scalars -/

/-- A unary operator is well formed in the graph that it was added to. -/
theorem scalarOp_compute_unary {ok : NodeId → Prop} {op : UnOp} {x : NodeId} {arg sz : ElemSize}
    (hx : ok x) (hlt : x.index < g.nodes.size) (htype : g.type x = .scalar arg)
    (typed : op.Typed arg sz) :
    (g.compute none (.scalar sz) (.unary op) [x]).2.ScalarOp ok
      ⟨.unary op, [x], [⟨g.nodes.size⟩]⟩ ⟨g.nodes.size⟩ := by
  have hext := compute_extends g none (.scalar sz) (.unary op) [x]
  have hdst := type_compute_scalar g sz (.unary op) [x]
  refine .unary hx ?_ (isScalar_of_type hdst) ?_
  · rw [hext.isScalar_eq hlt, isScalar_of_type htype]
    rfl
  · rw [hext.elemSize_eq hlt, elemSize_of_type htype, elemSize_of_type hdst]
    exact typed

/-- A binary operator is well formed in the graph that it was added to. -/
theorem scalarOp_compute_binary {ok : NodeId → Prop} {op : BinOp} {x y : NodeId}
    {lhs rhs sz : ElemSize} (hx : ok x) (hy : ok y) (hxlt : x.index < g.nodes.size)
    (hylt : y.index < g.nodes.size) (hxtype : g.type x = .scalar lhs)
    (hytype : g.type y = .scalar rhs) (typed : op.Typed lhs rhs sz) :
    (g.compute none (.scalar sz) (.binary op) [x, y]).2.ScalarOp ok
      ⟨.binary op, [x, y], [⟨g.nodes.size⟩]⟩ ⟨g.nodes.size⟩ := by
  have hext := compute_extends g none (.scalar sz) (.binary op) [x, y]
  have hdst := type_compute_scalar g sz (.binary op) [x, y]
  refine .binary hx hy ?_ ?_ (isScalar_of_type hdst) ?_
  · rw [hext.isScalar_eq hxlt, isScalar_of_type hxtype]
    rfl
  · rw [hext.isScalar_eq hylt, isScalar_of_type hytype]
    rfl
  · rw [hext.elemSize_eq hxlt, hext.elemSize_eq hylt, elemSize_of_type hxtype,
      elemSize_of_type hytype, elemSize_of_type hdst]
    exact typed

/-! ## Unary operators -/

theorem produces_scalarUnary (hv : g.Valid e) {op : UnOp} {arg : NodeId} {sz : ElemSize}
    (harg : g.Available e arg) (sarg : g.isScalar arg = true)
    (typed : op.Typed (g.elemSize arg) sz) :
    g.Produces e (g.applyScalarUnary op arg sz) (.scalar sz) :=
  produces_compute hv rfl (by simp [KernelType.shape])
    (.scalar (scalarOp_compute_unary harg (harg.lt hv.entry) (type_of_isScalar sarg) typed))

/-- The placeholder of an operand. -/
theorem placeholder_spec (hv : g.Valid e) (outer : NodeId) :
    g.Extends (g.placeholder outer).2 ∧ (g.placeholder outer).2.Valid e ∧
      (g.placeholder outer).2.Hole e (g.placeholder outer).1 ∧
      (g.placeholder outer).2.type (g.placeholder outer).1 = .scalar (g.elemSize outer) := by
  have hnew : g.nodes.size ≤ (NodeId.mk g.nodes.size).index := Nat.le_refl _
  obtain ⟨hgiven, hresult⟩ := hv.entry.not_given hnew
  refine ⟨(Extends.refl g).addNode _ _, hv.addNode _ _, ⟨?_, hgiven, hresult, ?_, ?_⟩, ?_⟩
  · simp [placeholder, addScalar]
  · simp [placeholder, addScalar]
  · simp [placeholder, addScalar, Node.constant?]
  · simp [placeholder, addScalar, type, Node.type]

/-! ## Bodies -/

/-- The pairs of a body: each has a placeholder for the elements of its first node. -/
structure Placeholders (g : Graph) (e : Entry) (pairs : List (NodeId × NodeId)) : Prop where
  lt : ∀ p ∈ pairs, p.1.index < g.nodes.size
  hole : ∀ p ∈ pairs, g.Hole e p.2
  scalar : ∀ p ∈ pairs, g.isScalar p.2 = true
  size : ∀ p ∈ pairs, g.elemSize p.2 = g.elemSize p.1

namespace Placeholders

variable {pairs : List (NodeId × NodeId)}

theorem nil : g.Placeholders e [] := ⟨by simp, by simp, by simp, by simp⟩

theorem extend {g' : Graph} (hext : g.Extends g') (h : g.Placeholders e pairs) :
    g'.Placeholders e pairs where
  lt p hp := Nat.lt_of_lt_of_le (h.lt p hp) hext.nodes_le
  hole p hp := hext.hole (h.hole p hp)
  scalar p hp := by rw [hext.isScalar_eq (h.hole p hp).lt, h.scalar p hp]
  size p hp := by
    rw [hext.elemSize_eq (h.hole p hp).lt, hext.elemSize_eq (h.lt p hp), h.size p hp]

/-- One more placeholder at the end of the graph. -/
theorem add (hv : g.Valid e) (h : g.Placeholders e pairs) {outer : NodeId}
    (houter : outer.index < g.nodes.size) :
    (g.placeholder outer).2.Placeholders e (pairs ++ [(outer, (g.placeholder outer).1)]) := by
  obtain ⟨hext, -, hhole, htype⟩ := placeholder_spec hv outer
  have hold := h.extend hext
  have hmem : ∀ p ∈ pairs ++ [(outer, (g.placeholder outer).1)],
      p ∈ pairs ∨ p = (outer, (g.placeholder outer).1) := by simp
  refine ⟨fun p hp => ?_, fun p hp => ?_, fun p hp => ?_, fun p hp => ?_⟩ <;>
    rcases hmem p hp with hp | rfl
  · exact hold.lt p hp
  · exact Nat.lt_of_lt_of_le houter hext.nodes_le
  · exact hold.hole p hp
  · exact hhole
  · exact hold.scalar p hp
  · exact isScalar_of_type htype
  · exact hold.size p hp
  · rw [hext.elemSize_eq houter]
    exact (elemSize_of_type htype).trans rfl

end Placeholders

/-- Nothing happens to the body of an operator if its graph grows. -/
theorem Extends.bodyValid {g' : Graph} {avail : NodeId → Prop} (hext : g.Extends g')
    (hc : g.Coherent) (hlt : ∀ id, avail id → id.index < g.nodes.size) {outer : List NodeId}
    {pairs : List (NodeId × NodeId)} {result : NodeId}
    (hpairs : ∀ p ∈ pairs, p.1.index < g.nodes.size) (h : g.BodyValid e avail outer pairs result) :
    g'.BodyValid e avail outer pairs result := by
  have emb : Embeds g e g' e .identity := hext.embeds
  have h' := emb.bodyValid hlt (fun _ hid => (hid : avail _)) hc hpairs h
  simpa [Relocation.pairs] using h'

/-- A body that applies an operator to operands, at least one of them a placeholder. -/
structure ProducesBody (g : Graph) (e : Entry) (result : NodeId × Graph) (outer : List NodeId)
    (pairs : List (NodeId × NodeId)) (sz : ElemSize) : Prop where
  ext : g.Extends result.2
  valid : result.2.Valid e
  placeholders : result.2.Placeholders e pairs
  body : result.2.BodyValid e (g.Available e) outer pairs result.1
  type : result.2.type result.1 = .scalar sz

theorem producesBody (hv : g.Valid e) (outer : List NodeId) {pairs : List (NodeId × NodeId)}
    (hpairs : g.Placeholders e pairs) {op : OpKind} {inputs : List NodeId} {sz : ElemSize}
    (hop : (g.compute none (.scalar sz) op inputs).2.ScalarOp
      (fun id => id ∈ pairs.map Prod.snd ∨ g.Available e id ∧ id ∈ outer)
      ⟨op, inputs, [⟨g.nodes.size⟩]⟩ ⟨g.nodes.size⟩)
    (hreads : ∃ id ∈ inputs, id ∈ pairs.map Prod.snd) :
    g.ProducesBody e (g.compute none (.scalar sz) op inputs) outer pairs sz := by
  have hext := compute_extends g none (.scalar sz) op inputs
  have hholes : ∀ {id}, id ∈ pairs.map Prod.snd → g.Hole e id := by
    intro id hid
    obtain ⟨p, hp, rfl⟩ := List.mem_map.mp hid
    exact hpairs.hole p hp
  have hpairs' := hpairs.extend hext
  refine ⟨hext, hv.computeBlocked (hop.mono ?_) ?_, hpairs', ⟨hpairs'.hole, hpairs'.scalar,
    hpairs'.size, _, compute_producer g none (.scalar sz) op inputs, ?_, ?_⟩, type_compute g op inputs rfl⟩
  · rintro id (hid | hid)
    · exact Or.inl (hholes hid)
    · exact Or.inr hid.1
  · obtain ⟨id, hid, hmem⟩ := hreads
    exact ⟨id, hid, hholes hmem⟩
  · rw [compute_op]
    exact hop
  · rw [compute_op]
    exact hreads

/-- A tensor that is computed element by element. -/
theorem produces_elementwise (hv : g.Valid e) {inputs : List NodeId}
    {pairs : List (NodeId × NodeId)} {inner : NodeId} {sz : ElemSize} {shape : Shape}
    (hinputs : ∀ id ∈ inputs, g.Available e id)
    (houter : ∀ p ∈ pairs, p.1 ∈ inputs ∧ g.isScalar p.1 = false ∧ (g.shape p.1).Fits shape)
    (hdims : ∀ d ∈ shape, g.DimValid e (g.Available e) d) (hinner : g.type inner = .scalar sz)
    (hbody : g.BodyValid e (g.Available e) inputs pairs inner) :
    g.Produces e (g.compute none (.tensor sz shape)
      (.elementwise ⟨pairs, [(inner, ⟨g.nodes.size⟩)]⟩) inputs) (.tensor sz shape) := by
  have hext := compute_extends g none (.tensor sz shape)
    (.elementwise ⟨pairs, [(inner, ⟨g.nodes.size⟩)]⟩) inputs
  have htype := type_compute_tensor g sz shape
    (.elementwise ⟨pairs, [(inner, ⟨g.nodes.size⟩)]⟩) inputs
  have hlt : ∀ p ∈ pairs, p.1.index < g.nodes.size := fun p hp =>
    (hinputs _ (houter p hp).1).lt hv.entry
  refine produces_compute hv rfl hdims (.elementwise hinputs ?_ ?_ ?_
    (hext.bodyValid hv.coherent (fun _ hid => hid.lt hv.entry) hlt hbody))
  · intro p hp
    obtain ⟨hmem, htensor, hfits⟩ := houter p hp
    refine ⟨hmem, ?_, ?_⟩
    · rw [hext.isScalar_eq (hlt p hp), htensor]
    · rw [hext.shape_eq (hlt p hp), shape_of_type htype]
      exact hfits
  · exact isScalar_of_type htype
  · rw [hext.elemSize_eq hbody.lt, elemSize_of_type hinner, elemSize_of_type htype]
    rfl

/-! ## Operators on available nodes -/

/-- What extends a produced graph and keeps its result. -/
theorem Produces.of_extends {g' : Graph} {result : NodeId × Graph} {ty : KernelType}
    (hext : g.Extends g') (h : g'.Produces e result ty) : g.Produces e result ty :=
  ⟨hext.trans h.ext, h.valid, h.available, h.type⟩

/-- The type of the result of a unary operator. -/
def unaryType (sz : ElemSize) : KernelType → KernelType
  | .scalar _ => .scalar sz
  | .tensor _ shape => .tensor sz shape

theorem produces_unary (hv : g.Valid e) {op : UnOp} {arg : NodeId} {sz : ElemSize}
    (harg : g.Available e arg) (typed : op.Typed (g.elemSize arg) sz) :
    g.Produces e (g.applyUnary op arg sz) (unaryType sz (g.type arg)) := by
  cases hscalar : g.isScalar arg with
  | true =>
    rw [applyUnary, if_pos hscalar, type_of_isScalar hscalar]
    exact produces_scalarUnary hv harg hscalar typed
  | false =>
    obtain ⟨hext, hvalid, hhole, htype⟩ := placeholder_spec hv arg
    have hlt := harg.lt hv.entry
    have hpairs := Placeholders.nil.add hv hlt
    rw [applyUnary, if_neg (by simp [hscalar]), type_of_not_isScalar hscalar]
    generalize hp : g.placeholder arg = p at *
    obtain ⟨x, g₁⟩ := p
    -- The body applies the operator to the placeholder; the tensor has the shape of the operand.
    have hbody := producesBody hvalid [arg] hpairs
      (scalarOp_compute_unary (Or.inl (by simp)) hhole.lt htype typed) ⟨x, by simp⟩
    refine .of_extends (hext.trans hbody.ext) ?_
    have harg₂ := harg.extend hv (hext.trans hbody.ext)
    refine produces_elementwise hbody.valid (by simpa using harg₂) ?_ ?_ hbody.type
      (hbody.body.mono fun _ hid => hid.extend hvalid hbody.ext)
    · intro p hp
      obtain rfl : p = (arg, x) := by simpa using hp
      have h₂ := hext.trans hbody.ext
      refine ⟨by simp, ?_, ?_⟩
      · rw [h₂.isScalar_eq hlt, hscalar]
      · rw [h₂.shape_eq hlt]
        exact Shape.Fits.refl _
    · intro d hd
      have h₂ := hext.trans hbody.ext
      rw [← h₂.shape_eq hlt] at hd
      exact harg₂.dims hbody.valid d hd

theorem produces_scalarBinary (hv : g.Valid e) {op : BinOp} {lhs rhs : NodeId} {sz : ElemSize}
    (hlhs : g.Available e lhs) (hrhs : g.Available e rhs) (slhs : g.isScalar lhs = true)
    (srhs : g.isScalar rhs = true) (typed : op.Typed (g.elemSize lhs) (g.elemSize rhs) sz) :
    g.Produces e (g.applyScalarBinary op lhs rhs sz) (.scalar sz) :=
  produces_compute hv rfl (by simp [KernelType.shape]) (.scalar (scalarOp_compute_binary hlhs hrhs
    (hlhs.lt hv.entry) (hrhs.lt hv.entry) (type_of_isScalar slhs) (type_of_isScalar srhs) typed))

/-- What a body reads for an operand: the operand itself or its placeholder. -/
structure BindsOperand (g : Graph) (e : Entry) (pairs : List (NodeId × NodeId)) (id : NodeId)
    (result : NodeId × List (NodeId × NodeId) × Graph) : Prop where
  ext : g.Extends result.2.2
  valid : result.2.2.Valid e
  placeholders : result.2.2.Placeholders e result.2.1
  subset : pairs ⊆ result.2.1
  outer : ∀ p ∈ result.2.1, p ∈ pairs ∨ p.1 = id ∧ g.isScalar id = false
  read : result.1 ∈ result.2.1.map Prod.snd ∨ g.isScalar id = true ∧ result.1 = id
  tensor : g.isScalar id = false → result.1 ∈ result.2.1.map Prod.snd
  type : result.2.2.type result.1 = .scalar (g.elemSize id)

theorem bindOperand_spec (hv : g.Valid e) {pairs : List (NodeId × NodeId)}
    (hpairs : g.Placeholders e pairs) {id : NodeId} (hid : id.index < g.nodes.size) :
    g.BindsOperand e pairs id (g.bindOperand pairs id) := by
  unfold bindOperand
  cases hscalar : g.isScalar id with
  | true =>
    exact ⟨Extends.refl g, hv, hpairs, fun _ hp => hp, fun _ hp => Or.inl hp,
      Or.inr ⟨hscalar, rfl⟩, by simp [hscalar], type_of_isScalar hscalar⟩
  | false =>
    simp only [Bool.false_eq_true, if_false]
    cases hfound : Body.placeholder? ⟨pairs, []⟩ id with
    | some inner =>
      obtain ⟨p, hp, rfl⟩ := Option.map_eq_some_iff.mp hfound
      have hmem := List.mem_of_find?_eq_some hp
      have hfst : p.1 = id := by simpa using List.find?_some hp
      refine ⟨Extends.refl g, hv, hpairs, fun _ hp => hp, fun _ hp => Or.inl hp,
        Or.inl (List.mem_map_of_mem hmem), fun _ => List.mem_map_of_mem hmem, ?_⟩
      rw [← hfst, ← hpairs.size p hmem]
      exact type_of_isScalar (hpairs.scalar p hmem)
    | none =>
      obtain ⟨hext, hvalid, hhole, htype⟩ := placeholder_spec hv id
      refine ⟨hext, hvalid, hpairs.add hv hid, fun p hp => ?_, fun p hp => ?_, Or.inl ?_,
        fun _ => ?_, htype⟩
      · exact List.mem_append_left _ hp
      · rcases List.mem_append.mp hp with hp | hp
        · exact Or.inl hp
        · obtain rfl := List.mem_singleton.mp hp
          exact Or.inr ⟨rfl, hscalar⟩
      · simp
      · simp

/-- What the body reads is in the graph. -/
theorem BindsOperand.lt {pairs : List (NodeId × NodeId)} {id : NodeId}
    {result : NodeId × List (NodeId × NodeId) × Graph} (h : g.BindsOperand e pairs id result)
    (hid : id.index < g.nodes.size) : result.1.index < result.2.2.nodes.size := by
  rcases h.read with hmem | ⟨-, heq⟩
  · obtain ⟨p, hp, hsnd⟩ := List.mem_map.mp hmem
    rw [← hsnd]
    exact (h.placeholders.hole p hp).lt
  · rw [heq]
    exact Nat.lt_of_lt_of_le hid h.ext.nodes_le

/-- The pairs of a body over two operands are of the operands that are tensors. -/
theorem BindsOperand.outer_pair {lhs rhs x : NodeId} {pairs : List (NodeId × NodeId)} {g₁ : Graph}
    {result : NodeId × List (NodeId × NodeId) × Graph} (hl : g.BindsOperand e [] lhs (x, pairs, g₁))
    (hr : g₁.BindsOperand e pairs rhs result) {p : NodeId × NodeId} (hp : p ∈ result.2.1) :
    p.1 = lhs ∧ g.isScalar lhs = false ∨ p.1 = rhs ∧ g₁.isScalar rhs = false := by
  rcases hr.outer p hp with hp | hrhs
  · rcases hl.outer p hp with hp | hlhs
    · cases hp
    · exact Or.inl hlhs
  · exact Or.inr hrhs

/-- The type of the result of a binary operator: a scalar, or a tensor of the given shape. -/
def binaryType (sz : ElemSize) : Option Shape → KernelType
  | none => .scalar sz
  | some shape => .tensor sz shape

theorem produces_binary (hv : g.Valid e) {op : BinOp} {lhs rhs : NodeId} {sz : ElemSize}
    {shape : Option Shape} (hlhs : g.Available e lhs) (hrhs : g.Available e rhs)
    (typed : op.Typed (g.elemSize lhs) (g.elemSize rhs) sz)
    (scalars : shape = none → g.isScalar lhs = true ∧ g.isScalar rhs = true)
    (tensors : ∀ s, shape = some s → (g.isScalar lhs = false ∨ g.isScalar rhs = false) ∧
      Shape.broadcast? (g.shape lhs) (g.shape rhs) = some s) :
    g.Produces e (g.applyBinary op lhs rhs sz shape) (binaryType sz shape) := by
  cases shape with
  | none =>
    obtain ⟨slhs, srhs⟩ := scalars rfl
    exact produces_scalarBinary hv hlhs hrhs slhs srhs typed
  | some s =>
    obtain ⟨htensor, hbroadcast⟩ := tensors s rfl
    obtain ⟨lfits, rfits, hmem⟩ := Shape.broadcast?_eq_some hbroadcast
    have hl := bindOperand_spec hv Placeholders.nil (hlhs.lt hv.entry)
    have hr := bindOperand_spec hl.valid hl.placeholders
      (Nat.lt_of_lt_of_le (hrhs.lt hv.entry) hl.ext.nodes_le)
    simp only [applyBinary]
    generalize g.bindOperand [] lhs = l at *
    obtain ⟨x, pairs₁, g₁⟩ := l
    generalize g₁.bindOperand pairs₁ rhs = r at *
    obtain ⟨y, pairs₂, g₂⟩ := r
    have hext₂ : g.Extends g₂ := hl.ext.trans hr.ext
    have hlhs₂ := hlhs.extend hv hext₂
    have hrhs₂ := hrhs.extend hv hext₂
    have lltSize := hlhs.lt hv.entry
    have rltSize := hrhs.lt hv.entry
    have hrScalar : g₁.isScalar rhs = g.isScalar rhs := hl.ext.isScalar_eq rltSize
    -- In the body each operand is read through its placeholder, or directly if it is a scalar.
    have hx : x ∈ pairs₂.map Prod.snd ∨ g₂.Available e x ∧ x ∈ [lhs, rhs] := by
      rcases hl.read with hmem | ⟨-, rfl⟩
      · exact Or.inl (List.map_subset _ hr.subset hmem)
      · exact Or.inr ⟨hlhs₂, by simp⟩
    have hy : y ∈ pairs₂.map Prod.snd ∨ g₂.Available e y ∧ y ∈ [lhs, rhs] := by
      rcases hr.read with hmem | ⟨-, rfl⟩
      · exact Or.inl hmem
      · exact Or.inr ⟨hrhs₂, by simp⟩
    have hxlt : x.index < g₁.nodes.size := hl.lt lltSize
    have hylt : y.index < g₂.nodes.size :=
      hr.lt (Nat.lt_of_lt_of_le rltSize hl.ext.nodes_le)
    have xtype : g₂.type x = .scalar (g.elemSize lhs) := by rw [hr.ext.type_eq hxlt, hl.type]
    have ytype : g₂.type y = .scalar (g.elemSize rhs) := by
      rw [hr.type, hl.ext.elemSize_eq rltSize]
    -- One operand is a tensor, so that the body belongs to a placeholder.
    have hreads : ∃ id ∈ [x, y], id ∈ pairs₂.map Prod.snd := by
      rcases htensor with hscalar | hscalar
      · exact ⟨x, by simp, List.map_subset _ hr.subset (hl.tensor hscalar)⟩
      · exact ⟨y, by simp, hr.tensor (hrScalar.trans hscalar)⟩
    have hbody := producesBody hr.valid [lhs, rhs] hr.placeholders (scalarOp_compute_binary hx hy
      (Nat.lt_of_lt_of_le hxlt hr.ext.nodes_le) hylt xtype ytype typed) hreads
    have hext₄ := hext₂.trans hbody.ext
    have hlhs₄ := hlhs.extend hv hext₄
    have hrhs₄ := hrhs.extend hv hext₄
    refine .of_extends hext₄ (produces_elementwise hbody.valid ?_ ?_ ?_ hbody.type
      (hbody.body.mono fun _ hid => hid.extend hr.valid hbody.ext))
    · simpa using ⟨hlhs₄, hrhs₄⟩
    · intro p hp
      rcases hl.outer_pair hr hp with ⟨hfst, hscalar⟩ | ⟨hfst, hscalar⟩
      · rw [hfst, hext₄.isScalar_eq lltSize, hext₄.shape_eq lltSize]
        exact ⟨by simp, hscalar, lfits⟩
      · rw [hfst, hext₄.isScalar_eq rltSize, hext₄.shape_eq rltSize]
        exact ⟨by simp, hrScalar.symm.trans hscalar, rfits⟩
    · intro d hd
      rcases hmem d hd with hd | hd
      · exact hlhs₄.dims hbody.valid d (by rwa [hext₄.shape_eq lltSize])
      · exact hrhs₄.dims hbody.valid d (by rwa [hext₄.shape_eq rltSize])

/-- The members of a list at the places that are left come from the list. -/
theorem withoutAxes_sublist {α : Type} (axes : List Nat) (xs : List α) :
    (withoutAxes axes xs).Sublist xs := by
  have h : (withoutAxes axes xs).Sublist (xs.zipIdx.map Prod.fst) :=
    List.filter_sublist.map Prod.fst
  rwa [List.zipIdx_map_fst] at h

/-- The type of the result of a reduction: a scalar if no axis is left. -/
def reductionType (sz : ElemSize) (shape : Shape) : KernelType :=
  if shape.isEmpty then .scalar sz else .tensor sz shape

@[simp]
theorem elemSize_reductionType (sz : ElemSize) (shape : Shape) :
    (reductionType sz shape).elemSize = sz := by
  unfold reductionType
  split <;> rfl

@[simp]
theorem isScalar_reductionType (sz : ElemSize) (shape : Shape) :
    (reductionType sz shape).isScalar = shape.isEmpty := by
  cases shape <;> rfl

@[simp]
theorem shape_reductionType (sz : ElemSize) (shape : Shape) :
    (reductionType sz shape).shape = shape := by
  cases shape <;> rfl

/-- The kind of the node of a reduction's result. -/
def reductionKind (sz : ElemSize) (shape : Shape) : NodeKind :=
  if shape.isEmpty then .scalar sz else .tensor sz shape

/-- The operator that a reduction adds last. -/
theorem produces_fold (hv : g.Valid e) {arg init x acc inner : NodeId} (axes : List Nat)
    {sz : ElemSize} (shape : Shape) (harg : g.Available e arg) (hinit : g.Available e init)
    (sarg : g.isScalar arg = false) (hinitType : g.type init = .scalar sz)
    (hshape : shape = withoutAxes axes (g.shape arg)) (hinner : g.type inner = .scalar sz)
    (hbody : g.BodyValid e (g.Available e) [] [(arg, x), (init, acc)] inner) :
    g.Produces e (g.compute none (reductionKind sz shape)
      (.reduction axes ⟨[(arg, x), (init, acc)], [(inner, ⟨g.nodes.size⟩)]⟩ [init]) [arg, init])
      (reductionType sz shape) := by
  have hkind : Node.type ⟨none, reductionKind sz shape, none, []⟩ = reductionType sz shape := by
    unfold reductionKind reductionType
    split <;> rfl
  have hext := compute_extends g none (reductionKind sz shape)
    (.reduction axes ⟨[(arg, x), (init, acc)], [(inner, ⟨g.nodes.size⟩)]⟩ [init]) [arg, init]
  have htype := type_compute g
    (.reduction axes ⟨[(arg, x), (init, acc)], [(inner, ⟨g.nodes.size⟩)]⟩ [init]) [arg, init] hkind
  have argLt := harg.lt hv.entry
  have initLt := hinit.lt hv.entry
  have hpairs : ∀ p ∈ [(arg, x), (init, acc)], p.1.index < g.nodes.size := by
    simpa using ⟨argLt, initLt⟩
  refine produces_compute hv hkind ?_ (.reduction harg hinit ?_ ?_ ?_ ?_ ?_ ?_
    (hext.bodyValid hv.coherent (fun _ hid => hid.lt hv.entry) hpairs hbody))
  · intro d hd
    rw [shape_reductionType, hshape] at hd
    exact harg.dims hv d ((withoutAxes_sublist axes _).subset hd)
  · rw [hext.isScalar_eq argLt, sarg]
  · rw [hext.isScalar_eq initLt, isScalar_of_type hinitType]
    rfl
  · rw [hext.elemSize_eq initLt, elemSize_of_type hinitType, elemSize_of_type htype,
      elemSize_reductionType]
    rfl
  · rw [isScalar_of_type htype, isScalar_reductionType, hext.shape_eq argLt, ← hshape,
      List.isEmpty_iff]
    exact id
  · rw [isScalar_of_type htype, shape_of_type htype, shape_reductionType, hext.shape_eq argLt,
      ← hshape]
    exact fun _ => rfl
  · rw [hext.elemSize_eq hbody.lt, elemSize_of_type hinner, elemSize_of_type htype,
      elemSize_reductionType]
    rfl

theorem produces_reduction (hv : g.Valid e) {op : BinOp} {arg : NodeId} {axes : List Nat}
    {sz : ElemSize} {init : Literal} (harg : g.Available e arg) (sarg : g.isScalar arg = false)
    (typed : op.Typed (g.elemSize arg) sz sz) :
    g.Produces e (g.applyReduction op arg axes sz init)
      (reductionType sz (withoutAxes axes (g.shape arg))) := by
  -- The constant that the accumulator starts from.
  have h₁ := produces_constant hv init sz
  have argLt := harg.lt hv.entry
  generalize hinit : g.addConstant init sz = start at h₁
  obtain ⟨initId, g₁⟩ := start
  -- The placeholders for an element and for the accumulator.
  have argLt₁ := Nat.lt_of_lt_of_le argLt h₁.ext.nodes_le
  obtain ⟨hext₂, hvalid₂, hhole₂, htype₂⟩ := placeholder_spec h₁.valid arg
  have hpairs₂ := Placeholders.nil.add h₁.valid argLt₁
  generalize hx : g₁.placeholder arg = px at *
  obtain ⟨x, g₂⟩ := px
  have initAvail₂ := h₁.available.extend h₁.valid hext₂
  have initLt₂ := initAvail₂.lt hvalid₂.entry
  have initType₂ : g₂.type initId = .scalar sz :=
    (hext₂.type_eq (h₁.available.lt h₁.valid.entry)).trans h₁.type
  obtain ⟨hext₃, hvalid₃, hhole₃, htype₃⟩ := placeholder_spec hvalid₂ initId
  have hpairs₃ := hpairs₂.add hvalid₂ initLt₂
  have hacc : g₂.addScalar none sz = g₂.placeholder initId := by
    have hname : (g₂.node initId).name = none := by
      rw [hext₂.name_eq _ (h₁.available.lt h₁.valid.entry)]
      have hid := congrArg Prod.fst hinit
      have hg := congrArg Prod.snd hinit
      simp only at hid hg
      rw [← hid, ← hg]
      simp [addConstant]
    rw [placeholder, hname, elemSize_of_type initType₂]
    rfl
  simp only [applyReduction, hinit, hx, hacc]
  generalize g₂.placeholder initId = pacc at *
  obtain ⟨acc, g₃⟩ := pacc
  -- The operator that combines them.
  have hext₁₃ := hext₂.trans hext₃
  have hext₀₃ := h₁.ext.trans hext₁₃
  have xtype : g₃.type x = .scalar (g.elemSize arg) := by
    rw [hext₃.type_eq hhole₂.lt, htype₂, h₁.ext.elemSize_eq argLt]
  have acctype : g₃.type acc = .scalar sz := by
    rw [htype₃, elemSize_of_type initType₂]
    rfl
  have xlt := Nat.lt_of_lt_of_le hhole₂.lt hext₃.nodes_le
  have hbody := producesBody hvalid₃ [] hpairs₃
    (scalarOp_compute_binary (Or.inl (by simp)) (Or.inl (by simp)) xlt hhole₃.lt xtype acctype typed)
    ⟨x, by simp, by simp⟩
  have hext₀₄ := hext₀₃.trans hbody.ext
  refine .of_extends hext₀₄ ?_
  have hfold := produces_fold hbody.valid axes (withoutAxes axes (g.shape arg))
    (harg.extend hv hext₀₄) (h₁.available.extend h₁.valid (hext₁₃.trans hbody.ext))
    (by rw [hext₀₄.isScalar_eq argLt, sarg])
    (by rw [(hext₃.trans hbody.ext).type_eq initLt₂, initType₂])
    (by rw [hext₀₄.shape_eq argLt]) hbody.type
    (hbody.body.mono fun _ hid => hid.extend hvalid₃ hbody.ext)
  cases hempty : (withoutAxes axes (g.shape arg)).isEmpty <;>
    simp only [reductionKind, hempty, if_true, Bool.false_eq_true, if_false] at hfold ⊢ <;>
    exact hfold

/-! ## What applying an operator adds

The same steps for every operand: the placeholders, the operator that computes the result of the
body, and the operator with the body.
-/

section Equations

variable (g : Graph)

theorem applyUnary_eq (op : UnOp) {arg : NodeId} (sz : ElemSize) (h : g.isScalar arg = false) :
    g.applyUnary op arg sz =
      let x := g.placeholder arg
      let inner := x.2.compute none (.scalar sz) (.unary op) [x.1]
      inner.2.compute none (.tensor sz (g.shape arg))
        (.elementwise ⟨[(arg, x.1)], [(inner.1, ⟨inner.2.nodes.size⟩)]⟩) [arg] := by
  rw [applyUnary, h, if_neg Bool.false_ne_true]
  rfl

theorem applyBinary_eq (op : BinOp) (lhs rhs : NodeId) (sz : ElemSize) (shape : Shape) :
    g.applyBinary op lhs rhs sz (some shape) =
      let x := g.bindOperand [] lhs
      let y := x.2.2.bindOperand x.2.1 rhs
      let inner := y.2.2.compute none (.scalar sz) (.binary op) [x.1, y.1]
      inner.2.compute none (.tensor sz shape)
        (.elementwise ⟨y.2.1, [(inner.1, ⟨inner.2.nodes.size⟩)]⟩) [lhs, rhs] := rfl

theorem applyReduction_eq (op : BinOp) (arg : NodeId) (axes : List Nat) (sz : ElemSize)
    (v : Literal) :
    g.applyReduction op arg axes sz v =
      let init := g.addConstant v sz
      let x := init.2.placeholder arg
      let acc := x.2.addScalar none sz
      let inner := acc.2.compute none (.scalar sz) (.binary op) [x.1, acc.1]
      inner.2.compute none (reductionKind sz (withoutAxes axes (g.shape arg)))
        (.reduction axes ⟨[(arg, x.1), (init.1, acc.1)], [(inner.1, ⟨inner.2.nodes.size⟩)]⟩ [init.1])
        [arg, init.1] := by
  unfold applyReduction reductionKind
  generalize withoutAxes axes (g.shape arg) = shape
  cases shape <;> rfl

end Equations

end Graph

end TensorKernel
