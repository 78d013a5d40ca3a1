import TensorKernel.Proofs.Graph.Embedding

/-!
# Valid graphs

A valid graph has coherent producers, a well-formed entry, and no node of unknown standing: each is
available, set apart for the result, a placeholder, or an operator on scalars in a body, which reads
a placeholder.

`Graph.Valid.extend` says what has to be checked of a graph that was built on top of a valid one:
only the nodes that are new.
-/

namespace TensorKernel

namespace Graph

/-- A node that was set apart for the result and is not computed yet. -/
def Pending (g : Graph) (e : Entry) (id : NodeId) : Prop :=
  e.result id ∧ (g.node id).producer = none

/-- A node that has no value outside the body it belongs to. -/
def Blocked (g : Graph) (e : Entry) (id : NodeId) : Prop :=
  g.Hole e id ∨ ∃ o, (g.node id).producer = some o ∧
    g.ScalarOp (fun arg => g.Hole e arg ∨ g.Available e arg) (g.op o) id ∧
    ∃ arg ∈ (g.op o).inputs, g.Hole e arg

/-- The invariant of a graph under construction. -/
structure Valid (g : Graph) (e : Entry) : Prop where
  coherent : g.Coherent
  entry : g.EntryValid e
  classified : ∀ id : NodeId, id.index < g.nodes.size →
    g.Available e id ∨ g.Pending e id ∨ g.Blocked e id

theorem Available.lt {g : Graph} {e : Entry} (he : g.EntryValid e) {id : NodeId}
    (h : g.Available e id) : id.index < g.nodes.size := by
  obtain ⟨n, hid⟩ := h
  exact hid.lt he

/-- A node that was set apart has no value before it is computed. -/
theorem Pending.not_available {g : Graph} {e : Entry} (hc : g.Coherent) (he : g.EntryValid e)
    {id : NodeId} (h : g.Pending e id) : ¬ g.Available e id := by
  intro hid
  obtain ⟨-, hgiven, hconstant⟩ := he.result h.1
  rcases hid.cases hc with (hnode | ⟨v, hv⟩) | ⟨o, hproducer, -⟩
  · exact hgiven hnode
  · rw [hconstant] at hv
    cases hv
  · rw [h.2] at hproducer
    cases hproducer

/-- What belongs to a body has no value outside of it. -/
theorem Blocked.not_available {g : Graph} {e : Entry} (hc : g.Coherent) (he : g.EntryValid e)
    {id : NodeId} (hconstant : (g.node id).constant? = none) (h : g.Blocked e id) :
    ¬ g.Available e id := by
  rcases h with hhole | ⟨o, hproducer, hop, hread⟩
  · exact hhole.not_available hc
  · exact hop.not_available hc he hproducer hconstant hread

/-- What belongs to a body belongs to it wherever the graph is embedded. -/
theorem Embeds.blocked {g g' : Graph} {e e' : Entry} {r : Relocation} (emb : Embeds g e g' e' r)
    (hc : g.Coherent) (he : g.EntryValid e)
    (hav : ∀ {id}, g.Available e id → g'.Available e' (r.node id)) {id : NodeId}
    (h : g.Blocked e id) : g'.Blocked e' (r.node id) := by
  rcases h with hid | ⟨o, hproducer, hop, arg, harg, hhole⟩
  · exact Or.inl (emb.hole hid)
  · have hlt : ∀ arg, g.Hole e arg ∨ g.Available e arg → arg.index < g.nodes.size := by
      rintro arg (harg | harg)
      · exact harg.lt
      · exact harg.lt he
    have hop' : g'.ScalarOp (fun arg => g'.Hole e' arg ∨ g'.Available e' arg)
        (r.opData (g.op o)) (r.node id) :=
      emb.scalarOp hlt (fun _ harg => harg.imp emb.hole hav) (lt_of_producer hproducer) hop
    refine Or.inr ⟨r.op o, emb.producer hproducer, ?_, r.node arg, ?_, emb.hole hhole⟩
    · rw [emb.op (hc id o hproducer).1]
      exact hop'
    · rw [emb.op (hc id o hproducer).1]
      exact List.mem_map_of_mem harg

namespace Extends

variable {g g' : Graph} {e : Entry} (h : Extends g g')
include h

theorem type_eq {id : NodeId} (hid : id.index < g.nodes.size) : g'.type id = g.type id := by
  simp only [type, Node.type, h.kind_eq id hid]

theorem elemSize_eq {id : NodeId} (hid : id.index < g.nodes.size) :
    g'.elemSize id = g.elemSize id :=
  congrArg KernelType.elemSize (h.type_eq hid)

theorem isScalar_eq {id : NodeId} (hid : id.index < g.nodes.size) :
    g'.isScalar id = g.isScalar id :=
  congrArg KernelType.isScalar (h.type_eq hid)

theorem shape_eq {id : NodeId} (hid : id.index < g.nodes.size) : g'.shape id = g.shape id :=
  congrArg KernelType.shape (h.type_eq hid)

theorem constant_eq {id : NodeId} (hid : id.index < g.nodes.size) :
    (g'.node id).constant? = (g.node id).constant? := by
  simp only [Node.constant?, h.kind_eq id hid]

theorem hole {id : NodeId} (hid : g.Hole e id) : g'.Hole e id where
  lt := Nat.lt_of_lt_of_le hid.lt h.nodes_le
  notGiven := hid.notGiven
  notResult := hid.notResult
  producer := by rw [h.producer_eq id hid.lt, hid.producer]
  constant := by rw [h.constant_eq hid.lt, hid.constant]

/-- A graph sits inside its extensions, and nothing moves. -/
theorem embeds : Embeds g e g' e .identity where
  node_lt hid := Nat.lt_of_lt_of_le hid h.nodes_le
  kind {id} hid := by rw [Relocation.identity_node, Relocation.identity_nodeKind, h.kind_eq id hid]
  producer {id o} hproducer := by
    rw [Relocation.identity_node, h.producer_eq id (lt_of_producer hproducer), hproducer]
    rfl
  hole hid := h.hole hid
  op {o} ho := by rw [Relocation.identity_op, Relocation.identity_opData, h.op_eq o ho]

theorem entryValid (he : g.EntryValid e) : g'.EntryValid e where
  lt hid := Nat.lt_of_lt_of_le (he.lt hid) h.nodes_le
  producer {id} hid := by rw [h.producer_eq id (he.lt hid), he.producer hid]
  constant hid := by rw [h.constant_eq (he.lt hid), he.constant hid]
  dims hid d hd := he.dims hid d (by rwa [h.shape_eq (he.lt hid)] at hd)
  result hid := by
    obtain ⟨hlt, hgiven, hconstant⟩ := he.result hid
    exact ⟨Nat.lt_of_lt_of_le hlt h.nodes_le, hgiven, by rw [h.constant_eq hlt, hconstant]⟩

end Extends

/-- An embedding that moves nothing keeps what is available. -/
theorem Embeds.available {g g' : Graph} {e : Entry} (emb : Embeds g e g' e .identity)
    (hc : g.Coherent) (he : g.EntryValid e) {id : NodeId} (h : g.Available e id) :
    g'.Available e id := by
  obtain ⟨n, hid⟩ := h
  exact ⟨0 + n, hid.embed (k := 0) emb hc he (fun _ hgiven => Or.inl hgiven) fun _ hname => hname⟩

theorem Available.extend {g g' : Graph} {e : Entry} (hv : g.Valid e) (hext : g.Extends g')
    {id : NodeId} (h : g.Available e id) : g'.Available e id :=
  (hext.embeds (e := e)).available hv.coherent hv.entry h

theorem Blocked.extend {g g' : Graph} {e : Entry} (hv : g.Valid e) (hext : g.Extends g')
    {id : NodeId} (h : g.Blocked e id) : g'.Blocked e id :=
  hext.embeds.blocked hv.coherent hv.entry (fun hid => hid.extend hv hext) h

/-- A graph on top of a valid one is valid if its producers are coherent and its new nodes stand well. -/
theorem Valid.extend {g g' : Graph} {e : Entry} (hv : g.Valid e) (hext : g.Extends g')
    (hc : g'.Coherent)
    (hnew : ∀ id : NodeId, g.nodes.size ≤ id.index → id.index < g'.nodes.size →
      g'.Available e id ∨ g'.Pending e id ∨ g'.Blocked e id) : g'.Valid e where
  coherent := hc
  entry := hext.entryValid hv.entry
  classified id hid := by
    by_cases hlt : id.index < g.nodes.size
    · rcases hv.classified id hlt with h | h | h
      · exact Or.inl (h.extend hv hext)
      · exact Or.inr (Or.inl ⟨h.1, (hext.producer_eq id hlt).trans h.2⟩)
      · exact Or.inr (Or.inr (h.extend hv hext))
    · exact hnew id (Nat.le_of_not_lt hlt) hid

theorem Extends.isIndex {g g' : Graph} {avail : NodeId → Prop} (hext : g.Extends g')
    (hlt : ∀ id, avail id → id.index < g.nodes.size) {id : NodeId} (h : g.IsIndex avail id) :
    g'.IsIndex avail id :=
  (hext.embeds (e := ⟨fun _ => False, fun _ => False, fun _ => False⟩)).isIndex hlt
    (fun _ hid => hid) h

theorem Extends.dimValid {g g' : Graph} {e : Entry} {avail : NodeId → Prop} (hext : g.Extends g')
    (hlt : ∀ id, avail id → id.index < g.nodes.size) {d : Dim} (h : g.DimValid e avail d) :
    g'.DimValid e avail d := by
  cases d with
  | const n => trivial
  | sym name => exact h
  | node id => exact hext.isIndex hlt h

/-! ## Coherent producers -/

theorem Coherent.addNode {g : Graph} (hc : g.Coherent) (name : Option String) (kind : NodeKind) :
    (g.addNode name kind).2.Coherent := by
  intro id o h
  rw [addNode_node] at h
  split at h
  · cases h
  · exact hc id o h

theorem Coherent.addOp {g : Graph} (hc : g.Coherent) (kind : OpKind) (inputs : List NodeId)
    (dst : NodeId) : (g.addOp kind inputs [dst]).2.Coherent := by
  intro id o h
  rw [addOp_producer] at h
  split at h
  · next hmem =>
    cases h
    obtain rfl := List.mem_singleton.mp hmem.1
    simp [addOp_op]
  · obtain ⟨hlt, houtputs⟩ := hc id o h
    rw [addOp_op, if_neg (Nat.ne_of_lt hlt), addOp_ops_size]
    exact ⟨Nat.lt_succ_of_lt hlt, houtputs⟩

/-! ## New nodes -/

/-- Adds a node and the operator that computes it. -/
def compute (g : Graph) (name : Option String) (kind : NodeKind) (op : OpKind)
    (inputs : List NodeId) : NodeId × Graph :=
  let (dst, g) := g.addNode name kind
  (dst, (g.addOp op inputs [dst]).2)

section Compute

variable (g : Graph) (name : Option String) (kind : NodeKind) (op : OpKind) (inputs : List NodeId)

@[simp]
theorem compute_fst : (g.compute name kind op inputs).1 = ⟨g.nodes.size⟩ := rfl

@[simp]
theorem compute_nodes_size : (g.compute name kind op inputs).2.nodes.size = g.nodes.size + 1 := by
  simp [compute]

@[simp]
theorem compute_ops_size : (g.compute name kind op inputs).2.ops.size = g.ops.size + 1 := by
  simp [compute]

theorem compute_extends : g.Extends (g.compute name kind op inputs).2 := by
  refine ((Extends.refl g).addNode name kind).addOp op inputs _ ?_
  intro id hid
  obtain rfl := List.mem_singleton.mp hid
  exact Nat.le_refl _

@[simp]
theorem compute_kind :
    ((g.compute name kind op inputs).2.node ⟨g.nodes.size⟩).kind = kind := by
  simp [compute]

@[simp]
theorem compute_producer :
    ((g.compute name kind op inputs).2.node ⟨g.nodes.size⟩).producer = some ⟨g.ops.size⟩ := by
  simp [compute, addOp_producer]

@[simp]
theorem compute_op :
    (g.compute name kind op inputs).2.op ⟨g.ops.size⟩ = ⟨op, inputs, [⟨g.nodes.size⟩]⟩ := by
  simp [compute, addOp_op]

variable {g}

theorem Coherent.compute (hc : g.Coherent) : (g.compute name kind op inputs).2.Coherent :=
  (hc.addNode name kind).addOp op inputs _

end Compute

variable {g : Graph} {e : Entry}

/-- The only node at the end of a graph that grew by one node. -/
theorem eq_of_size_le {g' : Graph} (hsize : g'.nodes.size = g.nodes.size + 1) {id : NodeId}
    (hge : g.nodes.size ≤ id.index) (hlt : id.index < g'.nodes.size) : id = ⟨g.nodes.size⟩ := by
  cases id
  simp only [NodeId.mk.injEq] at *
  omega

/-- A new node stands outside of every entry. -/
theorem EntryValid.not_given (he : g.EntryValid e) {id : NodeId} (hid : g.nodes.size ≤ id.index) :
    ¬ e.node id ∧ ¬ e.result id :=
  ⟨fun h => Nat.not_lt.mpr hid (he.lt h), fun h => Nat.not_lt.mpr hid (he.result h).1⟩

/-- A node without a producer is a placeholder unless it is a constant. -/
theorem Valid.addNode (hv : g.Valid e) (name : Option String) (kind : NodeKind) :
    (g.addNode name kind).2.Valid e := by
  have hext := (Extends.refl g).addNode name kind
  refine hv.extend hext (hv.coherent.addNode name kind) fun id hge hlt => ?_
  obtain rfl := eq_of_size_le (addNode_nodes_size g name kind) hge hlt
  cases hconstant : ((g.addNode name kind).2.node ⟨g.nodes.size⟩).constant? with
  | some v => exact Or.inl (Source.available (Or.inr ⟨v, hconstant⟩))
  | none =>
    obtain ⟨hgiven, hresult⟩ := hv.entry.not_given hge
    exact Or.inr (Or.inr (Or.inl ⟨hlt, hgiven, hresult, by simp, hconstant⟩))

/-- A new node that is computed from available nodes is available. -/
theorem Valid.compute (hv : g.Valid e) {name : Option String} {kind : NodeKind} {op : OpKind}
    {inputs : List NodeId}
    (h : (g.compute name kind op inputs).2.Computes e (g.Available e)
      ⟨op, inputs, [⟨g.nodes.size⟩]⟩ ⟨g.nodes.size⟩) :
    (g.compute name kind op inputs).2.Valid e ∧
      (g.compute name kind op inputs).2.Available e ⟨g.nodes.size⟩ := by
  have hext := compute_extends g name kind op inputs
  have hc := hv.coherent.compute name kind op inputs
  have havailable : (g.compute name kind op inputs).2.Available e ⟨g.nodes.size⟩ := by
    refine Computes.available hc (compute_producer g name kind op inputs) ?_
    rw [compute_op]
    exact h.mono fun _ hid => hid.extend hv hext
  refine ⟨hv.extend hext hc fun id hge hlt => ?_, havailable⟩
  obtain rfl := eq_of_size_le (compute_nodes_size g name kind op inputs) hge hlt
  exact Or.inl havailable

/-- A new node that is computed from a placeholder is blocked. -/
theorem Valid.computeBlocked (hv : g.Valid e) {name : Option String} {kind : NodeKind} {op : OpKind}
    {inputs : List NodeId}
    (h : (g.compute name kind op inputs).2.ScalarOp (fun id => g.Hole e id ∨ g.Available e id)
      ⟨op, inputs, [⟨g.nodes.size⟩]⟩ ⟨g.nodes.size⟩)
    (hreads : ∃ arg ∈ inputs, g.Hole e arg) : (g.compute name kind op inputs).2.Valid e := by
  have hext := compute_extends g name kind op inputs
  refine hv.extend hext (hv.coherent.compute name kind op inputs) fun id hge hlt => ?_
  obtain rfl := eq_of_size_le (compute_nodes_size g name kind op inputs) hge hlt
  obtain ⟨arg, harg, hhole⟩ := hreads
  refine Or.inr (Or.inr (Or.inr ⟨_, compute_producer g name kind op inputs, ?_, arg, ?_,
    hext.hole hhole⟩))
  · rw [compute_op]
    exact h.mono fun id hid => hid.imp hext.hole fun hid => hid.extend hv hext
  · rw [compute_op]
    exact harg

end Graph

end TensorKernel
