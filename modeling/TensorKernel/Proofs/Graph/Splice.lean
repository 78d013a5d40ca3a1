import TensorKernel.Proofs.Graph.Valid

/-!
# Spliced graphs

`Graph.Spliced` follows a graph from the moment another one was put behind it: the nodes of the
copy keep what they were, except that the nodes which the inner graph is given are computed, one
after another, by copies from the outer graph.  Constants may be added in between.

Once every given node is computed from an available one of its type, the inner graph is embedded in
the outer one, and everything that it made available is available there.
-/

namespace TensorKernel

namespace Graph

/-! ## The copy -/

section Splice

variable (g h : Graph) (symbol : String → Dim)

@[simp]
theorem splice_nodes_size : (g.splice h symbol).2.nodes.size = g.nodes.size + h.nodes.size := by
  simp [splice]

@[simp]
theorem splice_ops_size : (g.splice h symbol).2.ops.size = g.ops.size + h.ops.size := by
  simp [splice]

theorem splice_node_of_lt {id : NodeId} (hid : id.index < g.nodes.size) :
    (g.splice h symbol).2.node id = g.node id := by
  simp [splice, node, Array.getD_eq_getD_getElem?, Array.getElem?_append_left hid]

theorem splice_op_of_lt {o : OpId} (ho : o.index < g.ops.size) :
    (g.splice h symbol).2.op o = g.op o := by
  simp [splice, op, Array.getD_eq_getD_getElem?, Array.getElem?_append_left ho]

theorem splice_node_relocated {id : NodeId} (hid : id.index < h.nodes.size) :
    (g.splice h symbol).2.node ((g.relocation symbol).node id) =
      (g.relocation symbol).nodeData (h.node id) := by
  simp [splice, node, Array.getD_eq_getD_getElem?, Relocation.node, relocation,
    Array.getElem?_append_right, hid]

theorem splice_op_relocated {o : OpId} (ho : o.index < h.ops.size) :
    (g.splice h symbol).2.op ((g.relocation symbol).op o) =
      (g.relocation symbol).opData (h.op o) := by
  simp [splice, op, Array.getD_eq_getD_getElem?, Relocation.op, relocation,
    Array.getElem?_append_right, ho]

theorem splice_extends : g.Extends (g.splice h symbol).2 where
  nodes_le := by simp
  ops_le := by simp
  name_eq id hid := by rw [splice_node_of_lt g h symbol hid]
  kind_eq id hid := by rw [splice_node_of_lt g h symbol hid]
  producer_eq id hid := by rw [splice_node_of_lt g h symbol hid]
  op_eq o ho := splice_op_of_lt g h symbol ho

/-- A node of the copy stands behind the outer graph. -/
theorem exists_relocated {id : NodeId} (hge : g.nodes.size ≤ id.index)
    (hlt : id.index < g.nodes.size + h.nodes.size) :
    ∃ inner : NodeId, inner.index < h.nodes.size ∧ id = (g.relocation symbol).node inner := by
  refine ⟨⟨id.index - g.nodes.size⟩, by simp; omega, ?_⟩
  cases id
  simp only [Relocation.node, relocation, NodeId.mk.injEq]
  simp only at hge
  omega

/-- An operator of the copy stands behind those of the outer graph. -/
theorem exists_relocated_op {o : OpId} (hge : g.ops.size ≤ o.index)
    (hlt : o.index < g.ops.size + h.ops.size) :
    ∃ inner : OpId, inner.index < h.ops.size ∧ o = (g.relocation symbol).op inner := by
  refine ⟨⟨o.index - g.ops.size⟩, by simp; omega, ?_⟩
  cases o
  simp only [Relocation.op, relocation, OpId.mk.injEq]
  simp only at hge
  omega

variable {g h symbol}

/-- A node of a splice is one of the outer graph or the copy of one. -/
theorem splice_node_cases {id : NodeId} (hid : id.index < (g.splice h symbol).2.nodes.size) :
    id.index < g.nodes.size ∨
      ∃ inner : NodeId, inner.index < h.nodes.size ∧ id = (g.relocation symbol).node inner := by
  rw [splice_nodes_size] at hid
  exact (Nat.lt_or_ge id.index g.nodes.size).imp_right fun hge => exists_relocated g h symbol hge hid

/-- An operator of a splice is one of the outer graph or the copy of one. -/
theorem splice_op_cases {o : OpId} (ho : o.index < (g.splice h symbol).2.ops.size) :
    o.index < g.ops.size ∨
      ∃ inner : OpId, inner.index < h.ops.size ∧ o = (g.relocation symbol).op inner := by
  rw [splice_ops_size] at ho
  exact (Nat.lt_or_ge o.index g.ops.size).imp_right fun hge => exists_relocated_op g h symbol hge ho

/-- What is computed after a splice is computed in the outer graph or in the copy. -/
theorem producer_splice {id : NodeId} {o : OpId}
    (hproducer : ((g.splice h symbol).2.node id).producer = some o) :
    (g.node id).producer = some o ∨ ∃ inner o', (h.node inner).producer = some o' ∧
      id = (g.relocation symbol).node inner ∧ o = (g.relocation symbol).op o' := by
  rcases splice_node_cases (lt_of_producer hproducer) with hlt | ⟨inner, hinner, rfl⟩
  · rw [splice_node_of_lt g h symbol hlt] at hproducer
    exact Or.inl hproducer
  · rw [splice_node_relocated g h symbol hinner, Relocation.nodeData_producer] at hproducer
    obtain ⟨o', ho', rfl⟩ := Option.map_eq_some_iff.mp hproducer
    exact Or.inr ⟨inner, o', ho', rfl, rfl⟩

theorem splice_coherent (hg : g.Coherent) (hh : h.Coherent) :
    (g.splice h symbol).2.Coherent := by
  intro id o hproducer
  rcases producer_splice hproducer with houter | ⟨inner, o', ho', rfl, rfl⟩
  · obtain ⟨ho, houtputs⟩ := hg id o houter
    rw [splice_op_of_lt g h symbol ho, splice_ops_size]
    exact ⟨Nat.lt_add_right _ ho, houtputs⟩
  · obtain ⟨ho, houtputs⟩ := hh inner o' ho'
    rw [splice_op_relocated g h symbol ho, splice_ops_size]
    refine ⟨?_, by simp only [Relocation.opData, houtputs, List.map_cons, List.map_nil]⟩
    simp only [Relocation.op, relocation]
    omega

end Splice

/-! ## Copies of given nodes -/

theorem Relocation.node_inj (r : Relocation) {a b : NodeId} (h : r.node a = r.node b) : a = b := by
  cases a
  cases b
  simp only [Relocation.node, NodeId.mk.injEq] at h ⊢
  omega

/--
A graph that grew from a splice of `h` behind `g`.  The nodes on the left of `copied` are computed
by copies from the nodes on the right, and all other nodes of the copy are as they were in `h`.
-/
structure Spliced (g h : Graph) (r : Relocation) (copied : List (NodeId × NodeId)) (g' : Graph) :
    Prop where
  ext : g.Extends g'
  coherent : g'.Coherent
  node_lt : ∀ {id : NodeId}, id.index < h.nodes.size →
    g.nodes.size ≤ (r.node id).index ∧ (r.node id).index < g'.nodes.size
  kind : ∀ {id : NodeId}, id.index < h.nodes.size →
    (g'.node (r.node id)).kind = r.nodeKind (h.node id).kind
  producer : ∀ {id : NodeId}, id.index < h.nodes.size → id ∉ copied.map Prod.fst →
    (g'.node (r.node id)).producer = (h.node id).producer.map r.op
  op : ∀ {o : OpId}, o.index < h.ops.size → (r.op o).index < g'.ops.size ∧
    g'.op (r.op o) = r.opData (h.op o)
  copies : ∀ p ∈ copied, ∃ o, (g'.node (r.node p.1)).producer = some o ∧
    g'.op o = ⟨.copy, [p.2], [r.node p.1]⟩
  new : ∀ id : NodeId, g.nodes.size ≤ id.index → id.index < g'.nodes.size →
    (∃ inner : NodeId, inner.index < h.nodes.size ∧ id = r.node inner) ∨
      ∃ v, (g'.node id).constant? = some v
  op_ge : ∀ o : OpId, g.ops.size ≤ (r.op o).index
  newOp : ∀ o : OpId, g.ops.size ≤ o.index → o.index < g'.ops.size →
    (∃ inner : OpId, inner.index < h.ops.size ∧ o = r.op inner) ∨
      ∃ p ∈ copied, (g'.node (r.node p.1)).producer = some o ∧
        g'.op o = ⟨.copy, [p.2], [r.node p.1]⟩

theorem spliced_splice {g h : Graph} (hg : g.Coherent) (hh : h.Coherent) (symbol : String → Dim) :
    Spliced g h (g.relocation symbol) [] (g.splice h symbol).2 where
  ext := splice_extends g h symbol
  coherent := splice_coherent hg hh
  node_lt hid := by
    rw [splice_nodes_size]
    simp only [Relocation.node, relocation]
    omega
  kind hid := by rw [splice_node_relocated g h symbol hid]; rfl
  producer hid _ := by rw [splice_node_relocated g h symbol hid]; rfl
  op {o} ho := by
    refine ⟨?_, splice_op_relocated g h symbol ho⟩
    rw [splice_ops_size]
    simp only [Relocation.op, relocation]
    omega
  copies p hp := by cases hp
  new id hge hlt := by
    rw [splice_nodes_size] at hlt
    exact Or.inl (exists_relocated g h symbol hge hlt)
  op_ge o := by simp [Relocation.op, relocation]
  newOp o hge hlt := by
    rw [splice_ops_size] at hlt
    exact Or.inl (exists_relocated_op g h symbol hge hlt)

namespace Spliced

variable {g h g' : Graph} {r : Relocation} {copied : List (NodeId × NodeId)}

theorem addConstant (hs : Spliced g h r copied g') (v : Literal) (sz : ElemSize) :
    Spliced g h r copied (g'.addConstant v sz).2 := by
  have hext : g'.Extends (g'.addConstant v sz).2 := (Extends.refl g').addNode _ _
  refine ⟨hs.ext.trans hext, hs.coherent.addNode _ _, fun hid => ?_, fun hid => ?_,
    fun hid hcopied => ?_, fun ho => ?_, fun p hp => ?_, fun id hge hlt => ?_, hs.op_ge,
    fun o hge hlt => ?_⟩
  · exact ⟨(hs.node_lt hid).1, Nat.lt_of_lt_of_le (hs.node_lt hid).2 hext.nodes_le⟩
  · rw [hext.kind_eq _ (hs.node_lt hid).2, hs.kind hid]
  · rw [hext.producer_eq _ (hs.node_lt hid).2, hs.producer hid hcopied]
  · obtain ⟨hlt, hop⟩ := hs.op ho
    exact ⟨Nat.lt_of_lt_of_le hlt hext.ops_le, by rw [hext.op_eq _ hlt, hop]⟩
  · obtain ⟨o, hproducer, hop⟩ := hs.copies p hp
    refine ⟨o, ?_, ?_⟩
    · rw [hext.producer_eq _ (lt_of_producer hproducer), hproducer]
    · rw [hext.op_eq _ (hs.coherent _ _ hproducer).1, hop]
  · by_cases hold : id.index < g'.nodes.size
    · rw [hext.constant_eq hold]
      exact hs.new id hge hold
    · obtain rfl := eq_of_size_le (g := g') (by simp [Graph.addConstant]) (Nat.le_of_not_lt hold)
        hlt
      exact Or.inr ⟨v, by simp [Graph.addConstant, Node.constant?]⟩
  · rcases hs.newOp o hge hlt with hinner | ⟨p, hp, hproducer, hop⟩
    · exact Or.inl hinner
    · refine Or.inr ⟨p, hp, ?_, hop⟩
      rw [hext.producer_eq _ (lt_of_producer hproducer), hproducer]

theorem addCopy (hs : Spliced g h r copied g') {inner src : NodeId}
    (hinner : inner.index < h.nodes.size) (hcopied : inner ∉ copied.map Prod.fst) :
    Spliced g h r ((inner, src) :: copied) (g'.addOp .copy [src] [r.node inner]).2 := by
  obtain ⟨hge, hlt⟩ := hs.node_lt hinner
  -- Only the node that is fed changes its producer, and relocation keeps nodes apart.
  have hother : ∀ {id : NodeId}, id ≠ inner →
      ((g'.addOp .copy [src] [r.node inner]).2.node (r.node id)).producer =
        (g'.node (r.node id)).producer := by
    intro id hne
    rw [addOp_producer, if_neg]
    rintro ⟨hmem, -⟩
    exact hne (Relocation.node_inj r (List.mem_singleton.mp hmem))
  have hop : ∀ {o : OpId}, o.index < g'.ops.size →
      (g'.addOp .copy [src] [r.node inner]).2.op o = g'.op o := by
    intro o ho
    rw [addOp_op, if_neg (Nat.ne_of_lt ho)]
  have hcopy : ((g'.addOp .copy [src] [r.node inner]).2.node (r.node inner)).producer =
        some ⟨g'.ops.size⟩ ∧
      (g'.addOp .copy [src] [r.node inner]).2.op ⟨g'.ops.size⟩ = ⟨.copy, [src], [r.node inner]⟩ := by
    rw [addOp_producer, if_pos ⟨List.mem_singleton_self _, hlt⟩, addOp_op, if_pos rfl]
    exact ⟨rfl, rfl⟩
  have hkeep : ∀ p ∈ copied, ((g'.addOp .copy [src] [r.node inner]).2.node (r.node p.1)).producer =
      (g'.node (r.node p.1)).producer :=
    fun p hp => hother fun heq => hcopied (heq ▸ List.mem_map_of_mem hp)
  refine ⟨hs.ext.addOp _ _ _ ?_, hs.coherent.addOp _ _ _, fun hid => ?_, fun hid => ?_,
    fun {id} hid hnew => ?_, fun ho => ?_, fun p hp => ?_, fun id hge hlt => ?_, hs.op_ge,
    fun o hge hlt => ?_⟩
  · intro id hid
    rw [List.mem_singleton.mp hid]
    exact hge
  · rw [addOp_nodes_size]
    exact hs.node_lt hid
  · rw [addOp_kind, hs.kind hid]
  · simp only [List.map_cons, List.mem_cons, not_or] at hnew
    rw [hother hnew.1, hs.producer hid hnew.2]
  · obtain ⟨ho', hop'⟩ := hs.op ho
    rw [addOp_ops_size]
    exact ⟨Nat.lt_succ_of_lt ho', by rw [hop ho', hop']⟩
  · rcases List.mem_cons.mp hp with rfl | hp
    · exact ⟨⟨g'.ops.size⟩, hcopy⟩
    · obtain ⟨o, hproducer, hop'⟩ := hs.copies p hp
      exact ⟨o, by rw [hkeep p hp, hproducer], by rw [hop (hs.coherent _ _ hproducer).1, hop']⟩
  · rw [addOp_nodes_size] at hlt
    rcases hs.new id hge hlt with hinner | ⟨v, hv⟩
    · exact Or.inl hinner
    · exact Or.inr ⟨v, by simpa only [Node.constant?, addOp_kind] using hv⟩
  · by_cases hold : o.index < g'.ops.size
    · rcases hs.newOp o hge hold with hinner | ⟨p, hp, hproducer, hop'⟩
      · exact Or.inl hinner
      · refine Or.inr ⟨p, List.mem_cons_of_mem _ hp, ?_, ?_⟩
        · rw [hkeep p hp, hproducer]
        · rw [hop hold, hop']
    · rw [addOp_ops_size] at hlt
      obtain rfl : o = ⟨g'.ops.size⟩ := by
        cases o
        simp only [OpId.mk.injEq] at *
        omega
      exact Or.inr ⟨_, List.mem_cons_self .., hcopy⟩

/-! ## Embedding -/

section Embedding

variable {e eh : Entry} (hs : Spliced g h r copied g') (hg : g.Valid e) (hh : h.Valid eh)
  (hgiven : ∀ p ∈ copied, eh.node p.1)
include hs hg hh hgiven

/-- The inner graph sits inside the outer one. -/
theorem embeds : Embeds h eh g' e r where
  node_lt hid := (hs.node_lt hid).2
  kind hid := hs.kind hid
  producer {id o} hproducer := by
    have hcopied : id ∉ copied.map Prod.fst := by
      intro hmem
      obtain ⟨p, hp, rfl⟩ := List.mem_map.mp hmem
      rw [hh.entry.producer (hgiven p hp)] at hproducer
      cases hproducer
    rw [hs.producer (lt_of_producer hproducer) hcopied, hproducer]
    rfl
  hole {id} hid := by
    have hcopied : id ∉ copied.map Prod.fst := by
      intro hmem
      obtain ⟨p, hp, rfl⟩ := List.mem_map.mp hmem
      exact hid.notGiven (hgiven p hp)
    obtain ⟨hge, hlt⟩ := hs.node_lt hid.lt
    obtain ⟨hnode, hresult⟩ := hg.entry.not_given hge
    refine ⟨hlt, hnode, hresult, ?_, ?_⟩
    · rw [hs.producer hid.lt hcopied, hid.producer]
      rfl
    · have hconstant := hid.constant
      simp only [Node.constant?, hs.kind hid.lt] at hconstant ⊢
      cases hkind : (h.node id).kind <;> simp_all [Relocation.nodeKind]
  op ho := (hs.op ho).2

variable (hall : ∀ id, eh.node id → id ∈ copied.map Prod.fst)
  (hsrc : ∀ p ∈ copied, g'.Available e p.2 ∧
    (r.type (h.type p.1)).sameShape (g'.type p.2) = true ∧
    ∀ d ∈ g'.shape p.2, g'.DimValid e (g'.Available e) d)
  (hsym : ∀ name, eh.symbol name → g'.DimValid e (g'.Available e) (r.symbol name))
include hall hsrc hsym

omit hsym in
/-- A given node of the inner graph is computed by a copy. -/
theorem available_given {id : NodeId} (hid : eh.node id) : g'.Available e (r.node id) := by
  have emb := hs.embeds hg hh hgiven
  have hlt := hh.entry.lt hid
  obtain ⟨p, hp, rfl⟩ := List.mem_map.mp (hall id hid)
  obtain ⟨havailable, hsame, hdims⟩ := hsrc p hp
  obtain ⟨o, hproducer, hop⟩ := hs.copies p hp
  refine Computes.available hs.coherent hproducer ⟨fun d hd => hdims d ?_, ?_⟩
  · have heq : (r.type (h.type p.1)).isScalar = (g'.type p.2).isScalar ∧
        (r.type (h.type p.1)).shape = (g'.type p.2).shape := by
      simpa only [KernelType.sameShape, Bool.and_eq_true, beq_iff_eq] using hsame
    have hshape : g'.shape (r.node p.1) = g'.shape p.2 :=
      (congrArg KernelType.shape (emb.type hlt)).trans heq.2
    rwa [hshape] at hd
  · rw [hop]
    refine .copy (Or.inl rfl) havailable ?_
    rw [emb.type hlt]
    exact hsame

/-- What is available in the inner graph is available in the outer one. -/
theorem available {id : NodeId} (hid : h.Available eh id) : g'.Available e (r.node id) := by
  have emb := hs.embeds hg hh hgiven
  have hgiven' : ∀ id, eh.node id → g'.AvailableAt e g'.ops.size (r.node id) := fun id hid =>
    (hs.available_given hg hh hgiven hall hsrc hid).at_ops_size hs.coherent
  obtain ⟨n, hid⟩ := hid
  exact ⟨_, hid.embed emb hh.coherent hh.entry hgiven' fun name hname =>
    (hsym name hname).mono fun _ h => h.at_ops_size hs.coherent⟩

/-- A graph with a spliced graph in it is valid. -/
theorem valid (hresult : ∀ id, ¬ eh.result id) : g'.Valid e := by
  refine hg.extend hs.ext hs.coherent fun id hge hlt => ?_
  rcases hs.new id hge hlt with ⟨inner, hinner, rfl⟩ | ⟨v, hv⟩
  · rcases hh.classified inner hinner with h' | h' | h'
    · exact Or.inl (hs.available hg hh hgiven hall hsrc hsym h')
    · exact absurd h'.1 (hresult inner)
    · exact Or.inr (Or.inr ((hs.embeds hg hh hgiven).blocked hh.coherent hh.entry
        (fun h => hs.available hg hh hgiven hall hsrc hsym h) h'))
  · exact Or.inl (Source.available (Or.inr ⟨v, hv⟩))

end Embedding

end Spliced

end Graph

end TensorKernel
