import TensorKernel.Build.State
import TensorKernel.Proofs.Graph.Elements
import TensorKernel.Proofs.Table

/-!
# Well-formed builders and function graphs

The invariant of building a function.  The graph is valid for what the function is given, every
name refers to an available node of its kind, and the shape symbols stand for axes of parameters.

`FunctionBuilder.Grown` relates a builder to one whose graph has grown, which is all that building
an expression does.
-/

namespace TensorKernel

/-- What a function is given: its parameters and its shape symbols. -/
def Entry.ofFunction (inputs : List (String × NodeId)) (symbols : Table String ShapeSymbol)
    (result : NodeId → Prop) : Entry where
  node id := id ∈ inputs.map Prod.snd ∨ ∃ p ∈ symbols.entries, p.2.node = id
  symbol name := symbols.contains name = true
  result := result

/--
Parameters and shape symbols have nodes of their own, and every symbol is a scalar that stands for
an axis of a parameter with that symbol as its dimension.
-/
structure Graph.Interface (g : Graph) (sz : ElemSize) (inputs : List (String × NodeId))
    (symbols : Table String ShapeSymbol) : Prop where
  nodup : (inputs.map Prod.snd ++ symbols.entries.map fun p => p.2.node).Nodup
  symbolType : ∀ p ∈ symbols.entries, g.type p.2.node = .scalar sz
  symbolArg : ∀ p ∈ symbols.entries, p.2.arg ∈ inputs.map Prod.snd ∧
    (g.shape p.2.arg)[p.2.axis]? = some (.sym p.1)

theorem Graph.Interface.of_type_eq {g g' : Graph} {sz : ElemSize} {inputs : List (String × NodeId)}
    {symbols : Table String ShapeSymbol} (h : g.Interface sz inputs symbols)
    (htype : ∀ id, (Entry.ofFunction inputs symbols fun _ => False).node id →
      g'.type id = g.type id) : g'.Interface sz inputs symbols where
  nodup := h.nodup
  symbolType p hp := by rw [htype _ (Or.inr ⟨p, hp, rfl⟩), h.symbolType p hp]
  symbolArg p hp := by
    obtain ⟨hmem, haxis⟩ := h.symbolArg p hp
    refine ⟨hmem, ?_⟩
    rw [show g'.shape p.2.arg = g.shape p.2.arg from
      congrArg KernelType.shape (htype _ (Or.inl hmem)), haxis]

namespace FunctionGraph

/-- What the graph of a function is given. -/
def entry (f : FunctionGraph) : Entry :=
  .ofFunction f.inputs f.symbols fun _ => False

/-- A graph as building a function leaves it, where shape symbols have the given element size. -/
structure WellFormed (sz : ElemSize) (f : FunctionGraph) : Prop where
  valid : f.graph.Valid f.entry
  interface : f.graph.Interface sz f.inputs f.symbols
  outputs : ∀ id ∈ f.outputs, f.graph.Available f.entry id
  single : f.outputs.length ≤ 1
  returned : f.canInline = true → f.outputs ≠ []

end FunctionGraph

/-- Every cached graph is well-formed. -/
def GraphCache.Sound (sz : ElemSize) (cache : GraphCache) : Prop :=
  ∀ key f, cache.get? key = some f → f.WellFormed sz

namespace FunctionBuilder

/-- What the graph under construction is given; a declared result is set apart. -/
def entry (b : FunctionBuilder) : Entry :=
  .ofFunction b.inputs b.symbols fun id => ∃ ty, b.returnPlan = .static ty id

/-- A node has a value. -/
def Has (b : FunctionBuilder) (id : NodeId) : Prop :=
  b.graph.Available b.entry id

/-- What is given has a value. -/
theorem has_given {b : FunctionBuilder} {id : NodeId} (h : b.entry.node id) : b.Has id :=
  Graph.Source.available (Or.inl h)

theorem has_symbol {b : FunctionBuilder} {name : String} {symbol : ShapeSymbol}
    (h : b.symbols.get? name = some symbol) : b.Has symbol.node :=
  has_given (Or.inr ⟨_, Table.mem_of_get? h, rfl⟩)

/-- A node is an index that has a value. -/
def HasIndex (b : FunctionBuilder) (id : NodeId) : Prop :=
  b.graph.IsIndex (b.graph.Available b.entry) id

/-- The size of a dimension is known. -/
def HasDim (b : FunctionBuilder) (d : Dim) : Prop :=
  b.graph.DimValid b.entry (b.graph.Available b.entry) d

/-- The node of a declared result has the declared type, and a value once something is returned. -/
structure ResultPlanned (b : FunctionBuilder) (ty : KernelType) (dst : NodeId) : Prop where
  type : b.graph.type dst = ty
  pending : b.outputs = [] → (b.graph.node dst).producer = none
  returned : b.outputs ≠ [] → b.Has dst

theorem ResultPlanned.congr {b b' : FunctionBuilder} {ty : KernelType} {dst : NodeId}
    (h : b.ResultPlanned ty dst) (hgraph : b'.graph = b.graph) (houtputs : b'.outputs = b.outputs)
    (hentry : b'.entry = b.entry) : b'.ResultPlanned ty dst where
  type := by rw [hgraph, h.type]
  pending hout := by
    rw [hgraph]
    exact h.pending (houtputs ▸ hout)
  returned hout := by
    rw [Has, hgraph, hentry]
    exact h.returned (houtputs ▸ hout)

/-- The invariant of building a function, where shape symbols have the given element size. -/
structure WellFormed (sz : ElemSize) (b : FunctionBuilder) : Prop where
  valid : b.graph.Valid b.entry
  interface : b.graph.Interface sz b.inputs b.symbols
  params : ∀ {name id}, b.params.get? name = some id → id ∈ b.inputs.map Prod.snd
  scalars : ∀ {name id}, b.scalars.get? name = some id → b.Has id ∧ b.graph.isScalar id = true
  tensors : ∀ {name id}, b.tensors.get? name = some id → b.Has id ∧ b.graph.isScalar id = false
  outputs : ∀ id ∈ b.outputs, b.Has id
  result : ∀ {ty dst}, b.returnPlan = .static ty dst → b.ResultPlanned ty dst
  unreturned : b.returned = false → b.outputs = []
  single : b.outputs.length ≤ 1

/-- The second builder is the first one with a larger graph. -/
structure Grown (b b' : FunctionBuilder) : Prop where
  eq : b' = { b with graph := b'.graph }
  source : b.graph.Valid b.entry
  ext : b.graph.Extends b'.graph
  valid : b'.graph.Valid b.entry

namespace Grown

variable {b b' b'' : FunctionBuilder}

theorem refl (h : b.graph.Valid b.entry) : Grown b b := ⟨rfl, h, .refl _, h⟩

theorem entry_eq (h : Grown b b') : b'.entry = b.entry := by
  rw [h.eq]
  rfl

theorem trans (h : Grown b b') (h' : Grown b' b'') : Grown b b'' := by
  refine ⟨?_, h.source, h.ext.trans h'.ext, ?_⟩
  · rw [h'.eq, h.eq]
  · rw [← h.entry_eq]
    exact h'.valid

/-- Growing the graph by something that is produced. -/
theorem of_produces {result : NodeId × Graph} {ty : KernelType} (hv : b.graph.Valid b.entry)
    (h : b.graph.Produces b.entry result ty) : Grown b { b with graph := result.2 } :=
  ⟨rfl, hv, h.ext, h.valid⟩

theorem has (h : Grown b b') {id : NodeId} (hid : b.Has id) : b'.Has id := by
  rw [Has, h.entry_eq]
  exact hid.extend h.source h.ext

theorem lt (h : Grown b b') {id : NodeId} (hid : b.Has id) : id.index < b.graph.nodes.size :=
  Graph.Available.lt h.source.entry hid

theorem type_eq (h : Grown b b') {id : NodeId} (hid : b.Has id) :
    b'.graph.type id = b.graph.type id :=
  h.ext.type_eq (h.lt hid)

theorem elemSize_eq (h : Grown b b') {id : NodeId} (hid : b.Has id) :
    b'.graph.elemSize id = b.graph.elemSize id :=
  h.ext.elemSize_eq (h.lt hid)

theorem isScalar_eq (h : Grown b b') {id : NodeId} (hid : b.Has id) :
    b'.graph.isScalar id = b.graph.isScalar id :=
  h.ext.isScalar_eq (h.lt hid)

theorem shape_eq (h : Grown b b') {id : NodeId} (hid : b.Has id) :
    b'.graph.shape id = b.graph.shape id :=
  h.ext.shape_eq (h.lt hid)

theorem hasIndex (h : Grown b b') {id : NodeId} (hid : b.HasIndex id) : b'.HasIndex id :=
  ⟨h.has hid.avail, by rw [h.isScalar_eq hid.avail, hid.scalar],
    by rw [h.elemSize_eq hid.avail, hid.size]⟩

theorem hasDim (h : Grown b b') {d : Dim} (hd : b.HasDim d) : b'.HasDim d := by
  cases d with
  | const n => trivial
  | sym name =>
    rw [HasDim, h.entry_eq]
    exact hd
  | node id => exact h.hasIndex hd

/-- A larger graph keeps the invariant. -/
theorem wellFormed {sz : ElemSize} (h : Grown b b') (hb : b.WellFormed sz) : b'.WellFormed sz := by
  have hlt : ∀ id, b.entry.node id → id.index < b.graph.nodes.size := fun id hid =>
    hb.valid.entry.lt hid
  obtain ⟨graph, hgraph⟩ : ∃ graph, b' = { b with graph } := ⟨_, h.eq⟩
  subst hgraph
  refine ⟨h.valid, ?_, hb.params, ?_, ?_, ?_, ?_, hb.unreturned, hb.single⟩
  · exact hb.interface.of_type_eq fun id hid => h.ext.type_eq (hlt id hid)
  · intro name id hid
    obtain ⟨hhas, hscalar⟩ := hb.scalars hid
    exact ⟨h.has hhas, by rw [h.isScalar_eq hhas, hscalar]⟩
  · intro name id hid
    obtain ⟨hhas, hscalar⟩ := hb.tensors hid
    exact ⟨h.has hhas, by rw [h.isScalar_eq hhas, hscalar]⟩
  · exact fun id hid => h.has (hb.outputs id hid)
  · intro ty dst hplan
    obtain ⟨htype, hpending, hreturned⟩ := hb.result hplan
    have hdst := (hb.valid.entry.result ⟨ty, hplan⟩).1
    refine ⟨?_, ?_, ?_⟩
    · rw [h.ext.type_eq hdst, htype]
    · exact fun hout => (h.ext.producer_eq _ hdst).trans (hpending hout)
    · exact fun hout => h.has (hreturned hout)

end Grown

namespace WellFormed

variable {sz : ElemSize} {b : FunctionBuilder} (hb : b.WellFormed sz)
include hb

/-- A name stands for a node that has a value. -/
theorem has_resolve {name : String} {id : NodeId} (h : b.resolve? name = some id) : b.Has id := by
  simp only [resolve?, local?, Option.or_eq_some_iff] at h
  rcases h with (h | ⟨-, h⟩) | ⟨-, h | ⟨-, h⟩⟩
  · exact (hb.scalars h).1
  · exact (hb.tensors h).1
  · obtain ⟨symbol, hsymbol, rfl⟩ := Option.map_eq_some_iff.mp h
    exact has_symbol hsymbol
  · exact has_given (Or.inl (hb.params h))

/-- The dimensions of a node that has a value are known. -/
theorem hasDim {id : NodeId} (h : b.Has id) : ∀ d ∈ b.graph.shape id, b.HasDim d :=
  Graph.Available.dims hb.valid h

/-- Binding a scalar variable keeps the invariant. -/
theorem bindScalar {name : String} {id : NodeId} (hid : b.Has id)
    (hscalar : b.graph.isScalar id = true) :
    ({ b with scalars := b.scalars.insert name id } : FunctionBuilder).WellFormed sz := by
  have hscalars := Table.forall_get?_insert (fun _ _ => hb.scalars) name ⟨hid, hscalar⟩
  exact ⟨hb.valid, hb.interface, hb.params, hscalars _ _, hb.tensors, hb.outputs,
    fun h => (hb.result h).congr rfl rfl rfl, hb.unreturned, hb.single⟩

/-- Binding a tensor variable keeps the invariant. -/
theorem bindTensor {name : String} {id : NodeId} (hid : b.Has id)
    (hscalar : b.graph.isScalar id = false) :
    ({ b with tensors := b.tensors.insert name id } : FunctionBuilder).WellFormed sz := by
  have htensors := Table.forall_get?_insert (fun _ _ => hb.tensors) name ⟨hid, hscalar⟩
  exact ⟨hb.valid, hb.interface, hb.params, hb.scalars, htensors _ _, hb.outputs,
    fun h => (hb.result h).congr rfl rfl rfl, hb.unreturned, hb.single⟩

/-- Counting a rebinding keeps the invariant. -/
theorem rebind (count : Nat) :
    ({ b with rebindings := count } : FunctionBuilder).WellFormed sz :=
  ⟨hb.valid, hb.interface, hb.params, hb.scalars, hb.tensors, hb.outputs,
    fun h => (hb.result h).congr rfl rfl rfl, hb.unreturned, hb.single⟩

/-- Noting that a function returns keeps the invariant. -/
theorem markReturned : ({ b with returned := true } : FunctionBuilder).WellFormed sz :=
  ⟨hb.valid, hb.interface, hb.params, hb.scalars, hb.tensors, hb.outputs,
    fun h => (hb.result h).congr rfl rfl rfl, nofun, hb.single⟩

/-- Returning a value without a declared type keeps the invariant. -/
theorem returnValue {id : NodeId} (hid : b.Has id) (ty : Option KernelType)
    (hplan : ∀ ty dst, b.returnPlan ≠ .static ty dst) (houtputs : b.outputs = [])
    (hreturned : b.returned = true) :
    ({ b with returnType := ty, outputs := b.outputs ++ [id] } : FunctionBuilder).WellFormed sz := by
  refine ⟨hb.valid, hb.interface, hb.params, hb.scalars, hb.tensors, fun id' h => ?_,
    fun h => absurd h (hplan _ _), fun h => ?_, ?_⟩
  · rcases List.mem_append.mp h with h | h
    · exact hb.outputs id' h
    · rw [List.mem_singleton.mp h]
      exact hid
  · have h' : b.returned = false := h
    rw [hreturned] at h'
    cases h'
  · simp [houtputs]

/-- Returning a value of the declared type keeps the invariant. -/
theorem returnDeclared {ty : KernelType} {src dst : NodeId} {op : OpKind}
    (hplan : b.returnPlan = .static ty dst) (houtputs : b.outputs = [])
    (hop : op = .copy ∨ op = .deepCopy) (hsrc : b.Has src)
    (same : ty.sameShape (b.graph.type src) = true) (hreturned : b.returned = true) :
    ({ b with
      graph := (b.graph.addOp op [src] [dst]).2
      outputs := b.outputs ++ [dst] } : FunctionBuilder).WellFormed sz := by
  have hdst : b.entry.result dst := ⟨ty, hplan⟩
  obtain ⟨htype, hpending, -⟩ := hb.result hplan
  have hproducer := hpending houtputs
  obtain ⟨hvalid, hhas⟩ := hb.valid.computeResult hdst hproducer hop hsrc (by rw [htype]; exact same)
  -- Computing a node that was set apart changes its producer only, so all that was available stays.
  have emb := Graph.embeds_addOp_result (e := b.entry) hdst hproducer op [src]
  have hkeep : ∀ {id : NodeId}, b.Has id →
      (b.graph.addOp op [src] [dst]).2.Available b.entry id := fun hid =>
    emb.available hb.valid.coherent hb.valid.entry hid
  have htypes : ∀ id, (b.graph.addOp op [src] [dst]).2.type id = b.graph.type id :=
    Graph.addOp_type op [src] [dst]
  have hscalars : ∀ id, (b.graph.addOp op [src] [dst]).2.isScalar id = b.graph.isScalar id :=
    fun id => congrArg KernelType.isScalar (htypes id)
  refine ⟨hvalid, hb.interface.of_type_eq fun id _ => htypes id, hb.params, fun h => ?_,
    fun h => ?_, fun id h => ?_, fun {ty' dst'} h => ⟨?_, fun h => ?_, fun _ => ?_⟩, fun h => ?_,
    by simp [houtputs]⟩
  · obtain ⟨hid, hscalar⟩ := hb.scalars h
    exact ⟨hkeep hid, by rw [hscalars, hscalar]⟩
  · obtain ⟨hid, hscalar⟩ := hb.tensors h
    exact ⟨hkeep hid, by rw [hscalars, hscalar]⟩
  · rcases List.mem_append.mp h with h | h
    · exact hkeep (hb.outputs id h)
    · rw [List.mem_singleton.mp h]
      exact hhas
  · exact (htypes dst').trans (hb.result h).type
  · exact absurd h (by simp)
  · obtain ⟨-, rfl⟩ := ReturnPlan.static.inj (hplan.symm.trans h)
    exact hhas
  · have h' : b.returned = false := h
    rw [hreturned] at h'
    cases h'

end WellFormed

end FunctionBuilder

end TensorKernel
