import TensorKernel.Proofs.Graph.Depth

/-!
# Embedded graphs

A graph sits inside another one under a relocation of its places and symbols: its nodes keep their
kinds, its operators their operands, and its placeholders stay placeholders.  Two cases matter.  A
graph sits inside any extension of itself, where nothing moves, and inside the graph that splicing
puts it into.

`AvailableAt.embed` carries availability along: if the given nodes of the inner graph are available
in the outer one, so is everything that is computed from them.
-/

namespace TensorKernel

namespace Relocation

/-- Replaces the dimensions of a type. -/
def type (r : Relocation) : KernelType → KernelType
  | .scalar sz => .scalar sz
  | .tensor sz shape => .tensor sz (shape.map r.dim)

/-- Nothing moves and no symbol is replaced. -/
def identity : Relocation := ⟨0, 0, .sym⟩

@[simp]
theorem identity_node (id : NodeId) : identity.node id = id := rfl

@[simp]
theorem identity_op (o : OpId) : identity.op o = o := rfl

@[simp]
theorem identity_symbol (name : String) : identity.symbol name = .sym name := rfl

@[simp]
theorem identity_dim (d : Dim) : identity.dim d = d := by
  cases d <;> rfl

@[simp]
theorem identity_map_node (ids : List NodeId) : ids.map identity.node = ids :=
  List.map_id ids

theorem identity_map_dim (shape : Shape) : shape.map identity.dim = shape := by
  simp [show identity.dim = id from funext identity_dim]

@[simp]
theorem identity_nodeKind (kind : NodeKind) : identity.nodeKind kind = kind := by
  cases kind <;> simp [nodeKind, identity_map_dim]

theorem nodes_index (r : Relocation) (i : SliceIndex) : (r.index i).nodes = i.nodes.map r.node := by
  cases i <;> rfl

theorem nodes_indices (r : Relocation) (selected : List SliceIndex) :
    (selected.map r.index).flatMap SliceIndex.nodes =
      (selected.flatMap SliceIndex.nodes).map r.node := by
  rw [List.flatMap_map, List.map_flatMap]
  exact congrArg (selected.flatMap ·) (funext r.nodes_index)

@[simp]
theorem identity_opKind (kind : OpKind) : identity.opKind kind = kind := by
  have hindex : identity.index = id := funext fun i => by cases i <;> rfl
  cases kind <;> simp [opKind, body, pairs, identity_map_dim, hindex]

@[simp]
theorem identity_opData (op : Op) : identity.opData op = op := by
  simp [opData]

@[simp]
theorem elemSize_type (r : Relocation) (ty : KernelType) : (r.type ty).elemSize = ty.elemSize := by
  cases ty <;> rfl

@[simp]
theorem isScalar_type (r : Relocation) (ty : KernelType) : (r.type ty).isScalar = ty.isScalar := by
  cases ty <;> rfl

@[simp]
theorem shape_type (r : Relocation) (ty : KernelType) : (r.type ty).shape = ty.shape.map r.dim := by
  cases ty <;> rfl

@[simp]
theorem nodeData_producer (r : Relocation) (node : Node) :
    (r.nodeData node).producer = node.producer.map r.op := rfl

@[simp]
theorem nodeData_type (r : Relocation) (node : Node) : (r.nodeData node).type = r.type node.type := by
  cases hkind : node.kind <;> simp [nodeData, nodeKind, Node.type, type, hkind]

@[simp]
theorem nodeData_constant? (r : Relocation) (node : Node) :
    (r.nodeData node).constant? = node.constant? := by
  cases hkind : node.kind <;> simp [nodeData, nodeKind, Node.constant?, hkind]

/-- An operator that is a reduction was one. -/
theorem opKind_eq_reduction {r : Relocation} {kind : OpKind} {axes : List Nat} {body : Body}
    {init : List NodeId} (h : r.opKind kind = .reduction axes body init) :
    ∃ body' init', kind = .reduction axes body' init' := by
  cases kind with
  | reduction dims body' init' =>
    obtain ⟨rfl, -, -⟩ := OpKind.reduction.inj h
    exact ⟨body', init', rfl⟩
  | _ => cases h

/-- A constant dimension of one stays one. -/
theorem isOne_dim (r : Relocation) {d : Dim} (h : d.isOne = true) : (r.dim d).isOne = true := by
  have hd : d = .const 1 := by simpa [Dim.isOne] using h
  subst hd
  rfl

/-- Reading along the axes of a shape commutes with replacing dimensions. -/
theorem fits_map (r : Relocation) {operand space : Shape} (h : operand.Fits space) :
    Shape.Fits (operand.map r.dim) (space.map r.dim) := by
  have aligned : ∀ {ds es : List Dim}, Shape.alignedFits ds es →
      Shape.alignedFits (ds.map r.dim) (es.map r.dim) := by
    intro ds
    induction ds with
    | nil => exact fun _ => trivial
    | cons d ds ih =>
      intro es h
      cases es with
      | nil => exact h
      | cons e es =>
        refine ⟨?_, ih h.2⟩
        rcases h.1 with heq | hone
        · exact Or.inl (by rw [heq])
        · exact Or.inr (r.isOne_dim hone)
  simpa only [Shape.Fits, List.map_reverse] using aligned h

theorem trims_map (r : Relocation) {sizes shape : Shape} (h : sizes.Trims shape) :
    Shape.Trims (sizes.map r.dim) (shape.map r.dim) := by
  obtain ⟨k, hshape, hlt, hones⟩ := h
  refine ⟨k, by rw [hshape, List.map_drop], by simpa using hlt, ?_⟩
  intro d' hd'
  rw [← List.map_take] at hd'
  obtain ⟨d, hd, rfl⟩ := List.mem_map.mp hd'
  exact r.isOne_dim (hones d hd)

theorem sameShape_type (r : Relocation) {l r' : KernelType} (h : l.sameShape r' = true) :
    (r.type l).sameShape (r.type r') = true := by
  simp only [KernelType.sameShape, Bool.and_eq_true, beq_iff_eq] at h ⊢
  simp [h.1, h.2]

end Relocation

/-- The members at the remaining places of a mapped list. -/
theorem Graph.withoutAxes_map {α β : Type} (f : α → β) (axes : List Nat) (xs : List α) :
    withoutAxes axes (xs.map f) = (withoutAxes axes xs).map f := by
  simp only [withoutAxes, List.zipIdx_map, List.filter_map, List.map_map]
  rfl

namespace Graph

/-- Types that agree up to the element size have the same dimensions. -/
theorem shape_eq_of_sameShape {l r : KernelType} (h : l.sameShape r = true) :
    l.isScalar = r.isScalar ∧ l.shape = r.shape := by
  simpa only [KernelType.sameShape, Bool.and_eq_true, beq_iff_eq] using h

/-- The first graph sits inside the second one under a relocation. -/
structure Embeds (g : Graph) (e : Entry) (g' : Graph) (e' : Entry) (r : Relocation) : Prop where
  node_lt : ∀ {id}, id.index < g.nodes.size → (r.node id).index < g'.nodes.size
  kind : ∀ {id}, id.index < g.nodes.size → (g'.node (r.node id)).kind = r.nodeKind (g.node id).kind
  producer : ∀ {id o}, (g.node id).producer = some o →
    (g'.node (r.node id)).producer = some (r.op o)
  hole : ∀ {id}, g.Hole e id → g'.Hole e' (r.node id)
  op : ∀ {o}, o.index < g.ops.size → g'.op (r.op o) = r.opData (g.op o)

/-- A node with a producer stands in the graph. -/
theorem lt_of_producer {g : Graph} {id : NodeId} {o : OpId} (h : (g.node id).producer = some o) :
    id.index < g.nodes.size := by
  by_contra hge
  rw [node_of_size_le (Nat.le_of_not_lt hge)] at h
  cases h

/-- The result of a body stands in the graph. -/
theorem BodyValid.lt {g : Graph} {e : Entry} {avail : NodeId → Prop} {outer : List NodeId}
    {pairs : List (NodeId × NodeId)} {inner : NodeId} (h : g.BodyValid e avail outer pairs inner) :
    inner.index < g.nodes.size := by
  obtain ⟨o, hproducer, -⟩ := h.inner
  exact lt_of_producer hproducer

/-- A constant stands in the graph. -/
theorem lt_of_constant {g : Graph} {id : NodeId} {v : Literal}
    (h : (g.node id).constant? = some v) : id.index < g.nodes.size := by
  by_contra hge
  rw [node_of_size_le (Nat.le_of_not_lt hge)] at h
  cases h

theorem AvailableAt.lt {g : Graph} {e : Entry} (he : g.EntryValid e) {n : Nat} {id : NodeId}
    (h : g.AvailableAt e n id) : id.index < g.nodes.size := by
  have hsource : g.Source e id → id.index < g.nodes.size := by
    rintro (hgiven | ⟨v, hv⟩)
    · exact he.lt hgiven
    · exact lt_of_constant hv
  cases n with
  | zero => exact hsource h
  | succ n =>
    rcases h with h | ⟨o, hproducer, -⟩
    · exact hsource h
    · exact lt_of_producer hproducer

namespace Embeds

variable {g g' : Graph} {e e' : Entry} {r : Relocation} (emb : Embeds g e g' e' r)
include emb

theorem type {id : NodeId} (h : id.index < g.nodes.size) :
    g'.type (r.node id) = r.type (g.type id) := by
  simp only [Graph.type, Node.type, emb.kind h]
  cases (g.node id).kind <;> rfl

theorem elemSize {id : NodeId} (h : id.index < g.nodes.size) :
    g'.elemSize (r.node id) = g.elemSize id := by
  exact (congrArg KernelType.elemSize (emb.type h)).trans (r.elemSize_type _)

theorem isScalar {id : NodeId} (h : id.index < g.nodes.size) :
    g'.isScalar (r.node id) = g.isScalar id := by
  exact (congrArg KernelType.isScalar (emb.type h)).trans (r.isScalar_type _)

theorem shape {id : NodeId} (h : id.index < g.nodes.size) :
    g'.shape (r.node id) = (g.shape id).map r.dim := by
  exact (congrArg KernelType.shape (emb.type h)).trans (r.shape_type _)

theorem constant {id : NodeId} (h : id.index < g.nodes.size) :
    (g'.node (r.node id)).constant? = (g.node id).constant? := by
  simp only [Node.constant?, emb.kind h]
  cases (g.node id).kind <;> rfl

variable {avail avail' : NodeId → Prop}
  (hlt : ∀ id, avail id → id.index < g.nodes.size) (hav : ∀ id, avail id → avail' (r.node id))
include hlt hav

theorem isIndex {id : NodeId} (h : g.IsIndex avail id) : g'.IsIndex avail' (r.node id) where
  avail := hav id h.avail
  scalar := by rw [emb.isScalar (hlt id h.avail), h.scalar]
  size := by rw [emb.elemSize (hlt id h.avail), h.size]

theorem areIndices {ids : List NodeId} (h : ∀ id ∈ ids, g.IsIndex avail id) :
    ∀ id ∈ ids.map r.node, g'.IsIndex avail' id := by
  intro id' hid'
  obtain ⟨id, hid, rfl⟩ := List.mem_map.mp hid'
  exact emb.isIndex hlt hav (h id hid)

theorem dimValid (hsym : ∀ name, e.symbol name → g'.DimValid e' avail' (r.symbol name)) {d : Dim}
    (h : g.DimValid e avail d) : g'.DimValid e' avail' (r.dim d) := by
  cases d with
  | const n => trivial
  | sym name => exact hsym name h
  | node id => exact emb.isIndex hlt hav h

omit hlt hav in
/-- Operators on scalars may be relocated if the nodes they read may. -/
theorem scalarOp {ok ok' : NodeId → Prop} (hok : ∀ id, ok id → id.index < g.nodes.size)
    (hok' : ∀ id, ok id → ok' (r.node id)) {op : Op} {dst : NodeId}
    (hdst : dst.index < g.nodes.size) (h : g.ScalarOp ok op dst) :
    g'.ScalarOp ok' (r.opData op) (r.node dst) := by
  cases h with
  | unary harg sarg sdst typed =>
    refine .unary (hok' _ harg) ?_ ?_ ?_
    · rw [emb.isScalar (hok _ harg), sarg]
    · rw [emb.isScalar hdst, sdst]
    · rwa [emb.elemSize (hok _ harg), emb.elemSize hdst]
  | binary hlhs hrhs slhs srhs sdst typed =>
    refine .binary (hok' _ hlhs) (hok' _ hrhs) ?_ ?_ ?_ ?_
    · rw [emb.isScalar (hok _ hlhs), slhs]
    · rw [emb.isScalar (hok _ hrhs), srhs]
    · rw [emb.isScalar hdst, sdst]
    · rwa [emb.elemSize (hok _ hlhs), emb.elemSize (hok _ hrhs), emb.elemSize hdst]

theorem bodyValid (hc : g.Coherent) {outer : List NodeId} {pairs : List (NodeId × NodeId)}
    {result : NodeId} (hpairs : ∀ p ∈ pairs, p.1.index < g.nodes.size)
    (h : g.BodyValid e avail outer pairs result) :
    g'.BodyValid e' avail' (outer.map r.node) (r.pairs pairs) (r.node result) := by
  have hmem : ∀ {id}, id ∈ pairs.map Prod.snd → r.node id ∈ (r.pairs pairs).map Prod.snd := by
    intro id hid
    obtain ⟨p, hp, rfl⟩ := List.mem_map.mp hid
    exact List.mem_map.mpr ⟨_, List.mem_map.mpr ⟨p, hp, rfl⟩, rfl⟩
  obtain ⟨o, hproducer, hop, id, hreads, hid⟩ := h.inner
  obtain ⟨ho, -⟩ := hc _ o hproducer
  refine ⟨?_, ?_, ?_, r.op o, emb.producer hproducer, ?_, r.node id, ?_, hmem hid⟩
  · intro p' hp'
    obtain ⟨p, hp, rfl⟩ := List.mem_map.mp hp'
    exact emb.hole (h.hole p hp)
  · intro p' hp'
    obtain ⟨p, hp, rfl⟩ := List.mem_map.mp hp'
    rw [emb.isScalar (h.hole p hp).lt, h.scalar p hp]
  · intro p' hp'
    obtain ⟨p, hp, rfl⟩ := List.mem_map.mp hp'
    rw [emb.elemSize (h.hole p hp).lt, emb.elemSize (hpairs p hp), h.size p hp]
  -- The operator of the body reads placeholders, or nodes outside that the body may read.
  · rw [emb.op ho]
    refine emb.scalarOp ?_ ?_ (lt_of_producer hproducer) hop
    · rintro id (hid | hid)
      · obtain ⟨p, hp, rfl⟩ := List.mem_map.mp hid
        exact (h.hole p hp).lt
      · exact hlt id hid.1
    · rintro id (hid | hid)
      · exact Or.inl (hmem hid)
      · exact Or.inr ⟨hav id hid.1, List.mem_map_of_mem hid.2⟩
  · rw [emb.op ho]
    exact List.mem_map_of_mem hreads

theorem opValid (hc : g.Coherent)
    (hsym : ∀ name, e.symbol name → g'.DimValid e' avail' (r.symbol name)) {op : Op} {dst : NodeId}
    (hdst : dst.index < g.nodes.size) (h : g.OpValid e avail op dst) :
    g'.OpValid e' avail' (r.opData op) (r.node dst) := by
  cases h with
  | scalar h => exact .scalar (emb.scalarOp hlt hav hdst h)
  | @elementwise inputs pairs inner dst hinputs houter sdst size body =>
    refine .elementwise ?_ ?_ ?_ ?_ ?_
    · intro id' hid'
      obtain ⟨id, hid, rfl⟩ := List.mem_map.mp hid'
      exact hav id (hinputs id hid)
    · intro p' hp'
      obtain ⟨p, hp, rfl⟩ := List.mem_map.mp hp'
      obtain ⟨hmem, sp, fits⟩ := houter p hp
      have hp1 := hlt _ (hinputs _ hmem)
      refine ⟨List.mem_map_of_mem hmem, ?_, ?_⟩
      · rw [emb.isScalar hp1, sp]
      · rw [emb.shape hp1, emb.shape hdst]
        exact r.fits_map fits
    · rw [emb.isScalar hdst, sdst]
    · rw [emb.elemSize body.lt, emb.elemSize hdst, size]
    · exact emb.bodyValid hlt hav hc (fun p hp => hlt _ (hinputs _ (houter p hp).1)) body
  | @reduction axes arg init x acc inner dst harg hinit sarg sinit isize full partly size body =>
    refine .reduction (hav _ harg) (hav _ hinit) ?_ ?_ ?_ ?_ ?_ ?_ ?_
    · rw [emb.isScalar (hlt _ harg), sarg]
    · rw [emb.isScalar (hlt _ hinit), sinit]
    · rw [emb.elemSize (hlt _ hinit), emb.elemSize hdst, isize]
    · rw [emb.isScalar hdst, emb.shape (hlt _ harg), withoutAxes_map]
      exact fun h => by rw [full h, List.map_nil]
    · rw [emb.isScalar hdst, emb.shape hdst, emb.shape (hlt _ harg), withoutAxes_map]
      exact fun h => by rw [partly h]
    · rw [emb.elemSize body.lt, emb.elemSize hdst, size]
    · refine emb.bodyValid hlt hav hc ?_ body
      intro p hp
      simp only [List.mem_cons, List.not_mem_nil, or_false] at hp
      rcases hp with rfl | rfl
      · exact hlt _ harg
      · exact hlt _ hinit
  | getItem htarget starget hindices rank sdst size =>
    refine .getItem (hav _ htarget) ?_ ?_ ?_ ?_ ?_
    · rw [emb.isScalar (hlt _ htarget), starget]
    · exact emb.areIndices hlt hav hindices
    · rw [emb.shape (hlt _ htarget), List.length_map, List.length_map, rank]
    · rw [emb.isScalar hdst, sdst]
    · rw [emb.elemSize hdst, emb.elemSize (hlt _ htarget), size]
  | setItem htarget starget hvalue svalue hindices rank type =>
    refine .setItem (hav _ htarget) ?_ (hav _ hvalue) ?_ ?_ ?_ ?_
    · rw [emb.isScalar (hlt _ htarget), starget]
    · rw [emb.isScalar (hlt _ hvalue), svalue]
    · exact emb.areIndices hlt hav hindices
    · rw [emb.shape (hlt _ htarget), List.length_map, List.length_map, rank]
    · rw [emb.type hdst, emb.type (hlt _ htarget), type]
  | @slice target dst selected sizes htarget starget hselected selectedLe rank hsizes trims sdst
      size =>
    have hop : g'.OpValid e' avail' ⟨.slice (selected.map r.index) (sizes.map r.dim),
        r.node target :: (selected.map r.index).flatMap SliceIndex.nodes, [r.node dst]⟩
        (r.node dst) := by
      refine .slice (hav _ htarget) ?_ ?_ ?_ ?_ ?_ ?_ ?_ ?_
      · rw [emb.isScalar (hlt _ htarget), starget]
      · intro i' hi'
        obtain ⟨i, hi, rfl⟩ := List.mem_map.mp hi'
        rw [r.nodes_index]
        exact emb.areIndices hlt hav (hselected i hi)
      · rw [emb.shape (hlt _ htarget), List.length_map, List.length_map]
        exact selectedLe
      · rw [emb.shape (hlt _ htarget), List.length_map, List.length_map, rank]
      · intro d' hd'
        obtain ⟨d, hd, rfl⟩ := List.mem_map.mp hd'
        exact emb.dimValid hlt hav hsym (hsizes d hd)
      · rw [emb.shape hdst]
        exact r.trims_map trims
      · rw [emb.isScalar hdst, sdst]
      · rw [emb.elemSize hdst, emb.elemSize (hlt _ htarget), size]
    rw [r.nodes_indices] at hop
    exact hop
  | @copy kind src dst hkind hsrc same =>
    have hop : r.opKind kind = kind := by rcases hkind with rfl | rfl <;> rfl
    have hcopy : g'.OpValid e' avail' ⟨kind, [r.node src], [r.node dst]⟩ (r.node dst) := by
      refine .copy hkind (hav _ hsrc) ?_
      rw [emb.type hdst, emb.type (hlt _ hsrc)]
      exact r.sameShape_type same
    simpa only [Relocation.opData, hop, List.map_cons, List.map_nil] using hcopy

theorem computes (hc : g.Coherent)
    (hsym : ∀ name, e.symbol name → g'.DimValid e' avail' (r.symbol name)) {op : Op} {dst : NodeId}
    (hdst : dst.index < g.nodes.size) (h : g.Computes e avail op dst) :
    g'.Computes e' avail' (r.opData op) (r.node dst) where
  dims := by
    intro d' hd'
    rw [emb.shape hdst] at hd'
    obtain ⟨d, hd, rfl⟩ := List.mem_map.mp hd'
    exact emb.dimValid hlt hav hsym (h.dims d hd)
  valid := emb.opValid hlt hav hc hsym hdst h.valid

end Embeds

/--
What is available in the inner graph is available in the outer one, after as many operators more as
its given nodes and symbols need there.
-/
theorem AvailableAt.embed {g g' : Graph} {e e' : Entry} {r : Relocation}
    (emb : Embeds g e g' e' r) (hc : g.Coherent) (he : g.EntryValid e) {k : Nat}
    (hgiven : ∀ id, e.node id → g'.AvailableAt e' k (r.node id))
    (hsym : ∀ name, e.symbol name → g'.DimValid e' (g'.AvailableAt e' k) (r.symbol name))
    {n : Nat} {id : NodeId} (h : g.AvailableAt e n id) : g'.AvailableAt e' (k + n) (r.node id) := by
  have hsource : ∀ {id}, g.Source e id → g'.AvailableAt e' k (r.node id) := by
    rintro id (hid | ⟨v, hv⟩)
    · exact hgiven id hid
    · refine AvailableAt.mono (Nat.zero_le k) (show g'.Source e' (r.node id) from Or.inr ⟨v, ?_⟩)
      rw [emb.constant (lt_of_constant hv), hv]
  induction n generalizing id with
  | zero => exact hsource h
  | succ n ih =>
    rcases h with h | ⟨o, hproducer, hop⟩
    · exact (hsource h).mono (Nat.le_add_right ..)
    · refine Or.inr ⟨r.op o, emb.producer hproducer, ?_⟩
      rw [emb.op (hc id o hproducer).1]
      exact emb.computes (fun _ hid => hid.lt he) (fun _ => ih) hc
        (fun name hname => (hsym name hname).mono fun _ hid => hid.mono (Nat.le_add_right ..))
        (lt_of_producer hproducer) hop


end Graph

end TensorKernel
