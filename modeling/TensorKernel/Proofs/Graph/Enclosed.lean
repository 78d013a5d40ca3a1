import TensorKernel.Proofs.Graph.Splice

/-!
# Closed bodies

All nodes of a graph stand in one place, those of the bodies included, so nothing in its layout says
which node belongs to which body.  `Graph.Enclosed` says it: every operator computes one node of its
own, every node that nothing computes and nothing gives is the placeholder of one body, and only the
operator that computes the result of that body reads it.

`Graph.Adds` is what has to be known of the operators that were added to a graph, be it one that
computes a declared result or all those of a spliced graph.  Between the placeholders of a body and the
operator that the body belongs to bodies are not closed, so a body is one step here.  That available
nodes are no placeholders comes from `Graph.Valid`.
-/

namespace TensorKernel

/-- The nodes that stand for elements in the body of an operator. -/
def OpKind.placeholders : OpKind → List NodeId
  | .elementwise body | .reduction _ body _ => body.inputs.map Prod.snd
  | _ => []

/-- The nodes that the body of an operator computes. -/
def OpKind.inner : OpKind → List NodeId
  | .elementwise body | .reduction _ body _ => body.outputs.map Prod.fst
  | _ => []

@[simp]
theorem Relocation.placeholders_opKind (r : Relocation) (kind : OpKind) :
    (r.opKind kind).placeholders = kind.placeholders.map r.node := by
  cases kind <;> simp [Relocation.opKind, Relocation.body, Relocation.pairs, OpKind.placeholders]

@[simp]
theorem Relocation.inner_opKind (r : Relocation) (kind : OpKind) :
    (r.opKind kind).inner = kind.inner.map r.node := by
  cases kind <;> simp [Relocation.opKind, Relocation.body, Relocation.pairs, OpKind.inner]

namespace Graph

/--
Every operator computes one node, which no other operator computes.  The nodes that nothing computes
and nothing gives are the placeholders of bodies: each belongs to one body, in one place, and is read
by nothing but what computes the result of that body.
-/
structure Enclosed (g : Graph) (e : Entry) : Prop where
  single : ∀ o : OpId, o.index < g.ops.size →
    ∃ dst, (g.op o).outputs = [dst] ∧ (g.node dst).producer = some o
  inputs : ∀ o : OpId, ∀ id ∈ (g.op o).inputs, id.index < g.nodes.size
  hole : ∀ {o : OpId} {x : NodeId}, x ∈ (g.op o).kind.placeholders → g.Hole e x
  owner : ∀ {x : NodeId}, g.Hole e x → ∃ o, x ∈ (g.op o).kind.placeholders
  unique : ∀ {o o' : OpId} {x : NodeId}, x ∈ (g.op o).kind.placeholders →
    x ∈ (g.op o').kind.placeholders → o = o'
  nodup : ∀ o : OpId, (g.op o).kind.placeholders.Nodup
  reader : ∀ {o p : OpId} {x : NodeId}, x ∈ (g.op o).kind.placeholders → x ∈ (g.op p).inputs →
    ∃ inner ∈ (g.op o).kind.inner, (g.node inner).producer = some p

/-- A place outside the graph holds the default operator. -/
theorem op_of_size_le {g : Graph} {o : OpId} (h : g.ops.size ≤ o.index) : g.op o = default := by
  simp [op, Array.getD, Nat.not_lt.mpr h]

theorem lt_of_placeholder {g : Graph} {o : OpId} {x : NodeId}
    (h : x ∈ (g.op o).kind.placeholders) : o.index < g.ops.size := by
  by_contra hge
  rw [op_of_size_le (Nat.le_of_not_lt hge)] at h
  cases h

theorem lt_of_input {g : Graph} {o : OpId} {x : NodeId} (h : x ∈ (g.op o).inputs) :
    o.index < g.ops.size := by
  by_contra hge
  rw [op_of_size_le (Nat.le_of_not_lt hge)] at h
  cases h

/-! ## Added operators -/

/--
A graph with further operators: each computes a node of its own, new placeholders are new nodes that
belong to one new body, and a new operator reads none but those of the body that it computes.
-/
structure Adds (g : Graph) (e : Entry) (g' : Graph) (e' : Entry) : Prop where
  nodes_le : g.nodes.size ≤ g'.nodes.size
  op : ∀ o : OpId, o.index < g.ops.size → g'.op o = g.op o
  producer : ∀ {id o}, (g.node id).producer = some o → (g'.node id).producer = some o
  hole : ∀ {x}, g.Hole e x → g'.Hole e' x
  new : ∀ {x}, g'.Hole e' x → g.Hole e x ∨
    ∃ o : OpId, g.ops.size ≤ o.index ∧ x ∈ (g'.op o).kind.placeholders
  single : ∀ o : OpId, g.ops.size ≤ o.index → o.index < g'.ops.size →
    ∃ dst, (g'.op o).outputs = [dst] ∧ (g'.node dst).producer = some o
  inputs : ∀ o : OpId, g.ops.size ≤ o.index → ∀ id ∈ (g'.op o).inputs, id.index < g'.nodes.size
  placeholders : ∀ o : OpId, g.ops.size ≤ o.index → ∀ x ∈ (g'.op o).kind.placeholders,
    g.nodes.size ≤ x.index ∧ g'.Hole e' x
  unique : ∀ {o o' : OpId} {x : NodeId}, g.ops.size ≤ o.index → g.ops.size ≤ o'.index →
    x ∈ (g'.op o).kind.placeholders → x ∈ (g'.op o').kind.placeholders → o = o'
  nodup : ∀ o : OpId, g.ops.size ≤ o.index → (g'.op o).kind.placeholders.Nodup
  reader : ∀ {p : OpId} {x : NodeId}, g.ops.size ≤ p.index → x ∈ (g'.op p).inputs → g'.Hole e' x →
    ∃ o : OpId, x ∈ (g'.op o).kind.placeholders ∧
      ∃ inner ∈ (g'.op o).kind.inner, (g'.node inner).producer = some p

variable {g g₁ g' : Graph} {e e' : Entry}

/-- Bodies stay closed where further operators are added. -/
theorem Enclosed.adds (h : g.Enclosed e) (ha : g.Adds e g' e') : g'.Enclosed e' := by
  have hole {o : OpId} {x : NodeId} (hx : x ∈ (g'.op o).kind.placeholders) : g'.Hole e' x := by
    by_cases ho : o.index < g.ops.size
    · rw [ha.op o ho] at hx
      exact ha.hole (h.hole hx)
    · exact (ha.placeholders o (Nat.le_of_not_lt ho) x hx).2
  -- A placeholder is old or new as its operator is.
  have hold {o : OpId} {x : NodeId} (ho : o.index < g.ops.size)
      (hx : x ∈ (g'.op o).kind.placeholders) : x.index < g.nodes.size := by
    rw [ha.op o ho] at hx
    exact (h.hole hx).lt
  have unique {o o' : OpId} {x : NodeId} (hx : x ∈ (g'.op o).kind.placeholders)
      (hx' : x ∈ (g'.op o').kind.placeholders) : o = o' := by
    by_cases ho : o.index < g.ops.size <;> by_cases ho' : o'.index < g.ops.size
    · rw [ha.op o ho] at hx
      rw [ha.op o' ho'] at hx'
      exact h.unique hx hx'
    · have hlt := hold ho hx
      have hge := (ha.placeholders o' (Nat.le_of_not_lt ho') x hx').1
      omega
    · have hlt := hold ho' hx'
      have hge := (ha.placeholders o (Nat.le_of_not_lt ho) x hx).1
      omega
    · exact ha.unique (Nat.le_of_not_lt ho) (Nat.le_of_not_lt ho') hx hx'
  refine ⟨fun o ho => ?_, fun o id hid => ?_, hole, fun {x} hx => ?_, unique, fun o => ?_,
    fun {o p x} hx hread => ?_⟩
  · by_cases hlt : o.index < g.ops.size
    · obtain ⟨dst, houtputs, hproducer⟩ := h.single o hlt
      exact ⟨dst, by rw [ha.op o hlt, houtputs], ha.producer hproducer⟩
    · exact ha.single o (Nat.le_of_not_lt hlt) ho
  · by_cases hlt : o.index < g.ops.size
    · rw [ha.op o hlt] at hid
      exact Nat.lt_of_lt_of_le (h.inputs o id hid) ha.nodes_le
    · exact ha.inputs o (Nat.le_of_not_lt hlt) id hid
  · rcases ha.new hx with hx | ⟨o, -, ho⟩
    · obtain ⟨o, ho⟩ := h.owner hx
      exact ⟨o, by rwa [ha.op o (lt_of_placeholder ho)]⟩
    · exact ⟨o, ho⟩
  · by_cases hlt : o.index < g.ops.size
    · rw [ha.op o hlt]
      exact h.nodup o
    · exact ha.nodup o (Nat.le_of_not_lt hlt)
  · by_cases hp : p.index < g.ops.size
    · -- An old operator reads old nodes, so the body is an old one.
      rw [ha.op p hp] at hread
      have hlt := h.inputs p x hread
      have ho : o.index < g.ops.size := by
        by_contra hge
        have := (ha.placeholders o (Nat.le_of_not_lt hge) x hx).1
        omega
      rw [ha.op o ho] at hx ⊢
      obtain ⟨inner, hinner, hproducer⟩ := h.reader hx hread
      exact ⟨inner, hinner, ha.producer hproducer⟩
    · obtain ⟨o', hx', hinner⟩ := ha.reader (Nat.le_of_not_lt hp) hread (hole hx)
      obtain rfl := unique hx hx'
      exact hinner

/-- Operators without a body that read no placeholder. -/
theorem Adds.of_plain (hle : g.nodes.size ≤ g'.nodes.size)
    (hop : ∀ o : OpId, o.index < g.ops.size → g'.op o = g.op o)
    (hproducer : ∀ {id o}, (g.node id).producer = some o → (g'.node id).producer = some o)
    (hhole : ∀ x, g'.Hole e' x ↔ g.Hole e x)
    (hnew : ∀ o : OpId, g.ops.size ≤ o.index → o.index < g'.ops.size →
      (∃ dst, (g'.op o).outputs = [dst] ∧ (g'.node dst).producer = some o) ∧
        (g'.op o).kind.placeholders = [] ∧
        ∀ id ∈ (g'.op o).inputs, id.index < g'.nodes.size ∧ ¬ g'.Hole e' id) :
    g.Adds e g' e' := by
  have hnone (o : OpId) (ho : g.ops.size ≤ o.index) : (g'.op o).kind.placeholders = [] := by
    by_cases hlt : o.index < g'.ops.size
    · exact (hnew o ho hlt).2.1
    · rw [op_of_size_le (Nat.le_of_not_lt hlt)]
      rfl
  refine ⟨hle, hop, hproducer, (hhole _).mpr, fun hx => Or.inl ((hhole _).mp hx),
    fun o ho hlt => (hnew o ho hlt).1, fun o ho id hid => ?_, fun o ho x hx => ?_,
    fun ho _ hx _ => ?_, fun o ho => ?_, fun {p x} hp hread hx => ?_⟩
  · exact ((hnew o ho (lt_of_input hid)).2.2 id hid).1
  · rw [hnone o ho] at hx
    cases hx
  · rw [hnone _ ho] at hx
    cases hx
  · rw [hnone o ho]
    exact List.nodup_nil
  · exact absurd hx ((hnew p hp (lt_of_input hread)).2.2 x hread).2

/-! ## Given nodes -/

theorem Extends.hole_iff (hext : g.Extends g') {x : NodeId} (hx : x.index < g.nodes.size) :
    g'.Hole e x ↔ g.Hole e x := by
  refine ⟨fun h => ⟨hx, h.notGiven, h.notResult, ?_, ?_⟩, hext.hole⟩
  · rw [← hext.producer_eq x hx, h.producer]
  · rw [← hext.constant_eq hx, h.constant]

/-- Bodies stay closed where the same nodes count as placeholders. -/
theorem Enclosed.congr (h : g.Enclosed e) (hhole : ∀ x, g.Hole e' x ↔ g.Hole e x) :
    g.Enclosed e' where
  single := h.single
  inputs := h.inputs
  hole hx := (hhole _).mpr (h.hole hx)
  owner hx := h.owner ((hhole _).mp hx)
  unique := h.unique
  nodup := h.nodup
  reader := h.reader

/-- A graph whose nodes are all given has no bodies. -/
theorem enclosed_of_given (hops : g.ops.size = 0)
    (hgiven : ∀ id : NodeId, id.index < g.nodes.size → e.node id ∨ e.result id) : g.Enclosed e where
  single o ho := by omega
  inputs o id hid := by
    have := lt_of_input hid
    omega
  hole hx := by
    have := lt_of_placeholder hx
    omega
  owner {x} hx := ((hgiven x hx.lt).elim hx.notGiven hx.notResult).elim
  unique hx _ := by
    have := lt_of_placeholder hx
    omega
  nodup o := by
    rw [op_of_size_le (by omega)]
    exact List.nodup_nil
  reader hx _ := by
    have := lt_of_placeholder hx
    omega

/-- The declared result is computed by a copy of the returned value. -/
theorem Enclosed.computeResult (h : g.Enclosed e) (hv : g.Valid e) {dst src : NodeId} {op : OpKind}
    (hdst : e.result dst) (hproducer : (g.node dst).producer = none) (hop : op.placeholders = [])
    (hsrc : g.Available e src) : (g.addOp op [src] [dst]).2.Enclosed e := by
  have hkeep {id : NodeId} (hne : id ≠ dst) :
      ((g.addOp op [src] [dst]).2.node id).producer = (g.node id).producer := by
    rw [addOp_producer, if_neg fun hmem => hne (List.mem_singleton.mp hmem.1)]
  have hhole (x : NodeId) : (g.addOp op [src] [dst]).2.Hole e x ↔ g.Hole e x := by
    -- The result was set apart, so it is a placeholder neither before nor after.
    by_cases hx : x = dst
    · subst hx
      exact ⟨fun h => absurd hdst h.notResult, fun h => absurd hdst h.notResult⟩
    · have hconstant : ((g.addOp op [src] [dst]).2.node x).constant? = (g.node x).constant? := by
        simp only [Node.constant?, addOp_kind]
      constructor
      · rintro ⟨hlt, hgiven, hresult, hnone, hc⟩
        exact ⟨by simpa using hlt, hgiven, hresult, by rwa [← hkeep hx], by rwa [← hconstant]⟩
      · rintro ⟨hlt, hgiven, hresult, hnone, hc⟩
        exact ⟨by simpa using hlt, hgiven, hresult, by rwa [hkeep hx], by rwa [hconstant]⟩
  refine h.adds (.of_plain (by simp) (fun o ho => ?_) (fun {id o} hid => ?_) hhole
    fun o hge hlt => ?_)
  · rw [addOp_op, if_neg (Nat.ne_of_lt ho)]
  · rw [hkeep ?_, hid]
    rintro rfl
    rw [hproducer] at hid
    cases hid
  · rw [addOp_ops_size] at hlt
    obtain rfl : o = ⟨g.ops.size⟩ := by
      cases o
      simp only [OpId.mk.injEq] at *
      omega
    rw [addOp_op, if_pos rfl]
    refine ⟨⟨dst, rfl, ?_⟩, hop, fun id hid => ?_⟩
    · rw [addOp_producer, if_pos ⟨List.mem_singleton_self dst, (hv.entry.result hdst).1⟩]
    · obtain rfl := List.mem_singleton.mp hid
      rw [addOp_nodes_size]
      exact ⟨hsrc.lt hv.entry, fun hx => ((hhole _).mp hx).not_available hv.coherent hsrc⟩

/-! ## Spliced graphs -/

namespace Spliced

variable {h : Graph} {eh : Entry} {r : Relocation} {copied : List (NodeId × NodeId)}

/-- A placeholder among the new nodes was one in the spliced graph: what was given is a copy. -/
theorem exists_hole (hs : Spliced g h r copied g')
    (hall : ∀ id, eh.node id → id ∈ copied.map Prod.fst) (hresult : ∀ id, ¬ eh.result id)
    {x : NodeId} (hx : g'.Hole e x) (hfresh : g.nodes.size ≤ x.index) :
    ∃ y, x = r.node y ∧ h.Hole eh y := by
  rcases hs.new x hfresh hx.lt with ⟨y, hy, rfl⟩ | ⟨v, hconstant⟩
  · have hcopied : y ∉ copied.map Prod.fst := by
      intro hmem
      obtain ⟨p, hp, rfl⟩ := List.mem_map.mp hmem
      obtain ⟨o, hproducer, -⟩ := hs.copies p hp
      rw [hx.producer] at hproducer
      cases hproducer
    refine ⟨y, rfl, hy, fun hnode => hcopied (hall y hnode), hresult y, ?_, ?_⟩
    · have hproducer := hx.producer
      rw [hs.producer hy hcopied, Option.map_eq_none_iff] at hproducer
      exact hproducer
    · have hconstant := hx.constant
      simp only [Node.constant?, hs.kind hy] at hconstant ⊢
      cases hkind : (h.node y).kind <;> simp_all [Relocation.nodeKind]
  · rw [hx.constant] at hconstant
    cases hconstant

/-- A new operator was one in the spliced graph, or it is a copy. -/
theorem op_cases (hs : Spliced g h r copied g') (o : OpId) (hfresh : g.ops.size ≤ o.index)
    (hlt : o.index < g'.ops.size) :
    (∃ i, o = r.op i ∧ i.index < h.ops.size ∧ g'.op o = r.opData (h.op i)) ∨
      ∃ p ∈ copied, (g'.node (r.node p.1)).producer = some o ∧
        g'.op o = ⟨.copy, [p.2], [r.node p.1]⟩ := by
  rcases hs.newOp o hfresh hlt with ⟨i, hi, rfl⟩ | hcopy
  · exact Or.inl ⟨i, rfl, hi, (hs.op hi).2⟩
  · exact Or.inr hcopy

/-- The placeholders of a new operator were placeholders of an operator of the spliced graph. -/
theorem exists_placeholder (hs : Spliced g h r copied g') {o : OpId} {x : NodeId}
    (hfresh : g.ops.size ≤ o.index) (hx : x ∈ (g'.op o).kind.placeholders) :
    ∃ i y, o = r.op i ∧ x = r.node y ∧ y ∈ (h.op i).kind.placeholders := by
  rcases hs.op_cases o hfresh (lt_of_placeholder hx) with ⟨i, rfl, hi, hop⟩ | ⟨p, -, -, hop⟩
  · rw [hop, Relocation.opData, Relocation.placeholders_opKind] at hx
    obtain ⟨y, hy, rfl⟩ := List.mem_map.mp hx
    exact ⟨i, y, rfl, rfl, hy⟩
  · rw [hop] at hx
    cases hx

theorem mem_placeholders (hs : Spliced g h r copied g') {i : OpId} {y : NodeId}
    (hy : y ∈ (h.op i).kind.placeholders) : r.node y ∈ (g'.op (r.op i)).kind.placeholders := by
  rw [(hs.op (lt_of_placeholder hy)).2, Relocation.opData, Relocation.placeholders_opKind]
  exact List.mem_map_of_mem hy

/-- Placeholders stay different when a graph is spliced. -/
theorem nodup_placeholders (hs : Spliced g h r copied g') (hhe : h.Enclosed eh) (o : OpId)
    (hfresh : g.ops.size ≤ o.index) : (g'.op o).kind.placeholders.Nodup := by
  by_cases hlt : o.index < g'.ops.size
  · rcases hs.op_cases o hfresh hlt with ⟨i, rfl, hi, hop⟩ | ⟨p, -, -, hop⟩
    · rw [hop, Relocation.opData, Relocation.placeholders_opKind]
      exact (hhe.nodup i).map fun _ _ => Relocation.node_inj r
    · rw [hop]
      exact List.nodup_nil
  · rw [op_of_size_le (Nat.le_of_not_lt hlt)]
    exact List.nodup_nil

/--
The bodies of a spliced graph come along with their placeholders and readers.  The copies that compute
what was given to it read nodes with a value.
-/
theorem enclosed (hs : Spliced g h r copied g') (hg : g.Valid e) (hh : h.Valid eh)
    (hgiven : ∀ p ∈ copied, eh.node p.1) (hall : ∀ id, eh.node id → id ∈ copied.map Prod.fst)
    (hsrc : ∀ p ∈ copied, g'.Available e p.2) (hresult : ∀ id, ¬ eh.result id)
    (hv' : g'.EntryValid e) (hge : g.Enclosed e) (hhe : h.Enclosed eh) : g'.Enclosed e := by
  have emb := hs.embeds hg hh hgiven
  have hplain {id : NodeId} {o : OpId} (hproducer : (h.node id).producer = some o) :
      (g'.node (r.node id)).producer = some (r.op o) := emb.producer hproducer
  refine hge.adds ⟨hs.ext.nodes_le, hs.ext.op_eq, fun {id o} hid => ?_, hs.ext.hole,
    fun {x} hx => ?_, fun o hfresh hlt => ?_, fun o hfresh id hid => ?_, fun o hfresh x hx => ?_,
    fun {o o' x} hfresh hfresh' hx hx' => ?_, hs.nodup_placeholders hhe,
    fun {p x} hfresh hread hx => ?_⟩
  · rw [hs.ext.producer_eq id (lt_of_producer hid), hid]
  · by_cases hlt : x.index < g.nodes.size
    · exact Or.inl ((hs.ext.hole_iff hlt).mp hx)
    · obtain ⟨y, rfl, hy⟩ := hs.exists_hole hall hresult hx (Nat.le_of_not_lt hlt)
      obtain ⟨i, hi⟩ := hhe.owner hy
      exact Or.inr ⟨r.op i, hs.op_ge i, hs.mem_placeholders hi⟩
  · rcases hs.op_cases o hfresh hlt with ⟨i, rfl, hi, hop⟩ | ⟨p, hp, hproducer, hop⟩
    · obtain ⟨dst, houtputs, hproducer⟩ := hhe.single i hi
      exact ⟨r.node dst, by rw [hop, Relocation.opData, houtputs]; rfl, hplain hproducer⟩
    · exact ⟨r.node p.1, by rw [hop], hproducer⟩
  · rcases hs.op_cases o hfresh (lt_of_input hid) with ⟨i, rfl, hi, hop⟩ | ⟨p, hp, -, hop⟩
    · rw [hop] at hid
      obtain ⟨y, hy, rfl⟩ := List.mem_map.mp hid
      exact (hs.node_lt (hhe.inputs i y hy)).2
    · rw [hop] at hid
      rw [List.mem_singleton.mp hid]
      exact (hsrc p hp).lt hv'
  · obtain ⟨i, y, rfl, rfl, hy⟩ := hs.exists_placeholder hfresh hx
    have hhole := hhe.hole hy
    exact ⟨(hs.node_lt hhole.lt).1, emb.hole hhole⟩
  · obtain ⟨i, y, rfl, rfl, hy⟩ := hs.exists_placeholder hfresh hx
    obtain ⟨i', y', rfl, heq, hy'⟩ := hs.exists_placeholder hfresh' hx'
    obtain rfl := Relocation.node_inj r heq
    rw [hhe.unique hy hy']
  · rcases hs.op_cases p hfresh (lt_of_input hread) with ⟨i, rfl, hi, hop⟩ | ⟨q, hq, -, hop⟩
    · -- The reader stands in the spliced graph, so it is the one that its body has there.
      rw [hop] at hread
      obtain ⟨y, hy, rfl⟩ := List.mem_map.mp hread
      obtain ⟨z, hz, hhole⟩ := hs.exists_hole hall hresult hx (hs.node_lt (hhe.inputs i y hy)).1
      obtain rfl := Relocation.node_inj r hz
      obtain ⟨o, ho⟩ := hhe.owner hhole
      obtain ⟨inner, hinner, hproducer⟩ := hhe.reader ho hy
      refine ⟨r.op o, hs.mem_placeholders ho, r.node inner, ?_, hplain hproducer⟩
      rw [(hs.op (lt_of_placeholder ho)).2, Relocation.opData, Relocation.inner_opKind]
      exact List.mem_map_of_mem hinner
    · rw [hop] at hread
      obtain rfl := List.mem_singleton.mp hread
      exact absurd (hsrc q hq) (hx.not_available hs.coherent)

end Spliced

end Graph

end TensorKernel
