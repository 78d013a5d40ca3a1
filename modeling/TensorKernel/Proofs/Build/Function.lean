import TensorKernel.Build.Function
import TensorKernel.Proofs.Build.Statement

/-!
# Built functions

Before the first statement the graph of a function has nothing but given nodes, and possibly the
node of a declared result.  From there the statements keep the builder well-formed, and the graph of
the function is what is left of it in the end.
-/

namespace TensorKernel

namespace FunctionBuilder

/-- With a new parameter, the given nodes are the old ones and the parameter. -/
theorem given_append_input {b : FunctionBuilder} {name : String} {arg id : NodeId} :
    (id ∈ (b.inputs ++ [(name, arg)]).map Prod.snd ∨ ∃ p ∈ b.symbols.entries, p.2.node = id) ↔
      b.entry.node id ∨ id = arg := by
  rw [List.map_append, List.mem_append, List.map_singleton, List.mem_singleton]
  exact or_right_comm

/-- With a new symbol, the given nodes are the old ones and the node of the symbol. -/
theorem given_insert_symbol {b : FunctionBuilder} {name : String} {node arg : NodeId} {axis : Nat}
    (hnew : b.symbols.contains name = false) {id : NodeId} :
    (id ∈ b.inputs.map Prod.snd ∨
        ∃ p ∈ (b.symbols.insert name ⟨node, arg, axis⟩).entries, p.2.node = id) ↔
      b.entry.node id ∨ id = node := by
  constructor
  · rintro (hin | ⟨p, hp, rfl⟩)
    · exact Or.inl (Or.inl hin)
    · rcases (Table.mem_entries_insert hnew).mp hp with rfl | hp
      · exact Or.inr rfl
      · exact Or.inl (Or.inr ⟨p, hp, rfl⟩)
  · rintro ((hin | ⟨p, hp, rfl⟩) | rfl)
    · exact Or.inl hin
    · exact Or.inr ⟨p, (Table.mem_entries_insert hnew).mpr (Or.inr hp), rfl⟩
    · exact Or.inr ⟨_, (Table.mem_entries_insert hnew).mpr (Or.inl rfl), rfl⟩

/--
A builder to which parameters are being added.  Every node is given, and every symbol of a parameter
is known, but for the dimensions of the last one that are still pending.
-/
structure Preliminary (sz : ElemSize) (pending : Shape) (b : FunctionBuilder) : Prop where
  given : ∀ id : NodeId, id.index < b.graph.nodes.size ↔ b.entry.node id
  producer : ∀ id, (b.graph.node id).producer = none
  constant : ∀ id, (b.graph.node id).constant? = none
  interface : b.graph.Interface sz b.inputs b.symbols
  params : ∀ {name id}, b.params.get? name = some id → id ∈ b.inputs.map Prod.snd
  dims : ∀ id, b.entry.node id → ∀ d ∈ b.graph.shape id,
    (∃ n, d = .const n) ∨ ∃ name, d = .sym name ∧ (b.symbols.contains name = true ∨ d ∈ pending)
  scalars : b.scalars = .empty
  tensors : b.tensors = .empty
  outputs : b.outputs = []
  returned : b.returned = false
  ops : b.graph.ops.size = 0

namespace Preliminary

variable {sz : ElemSize} {b : FunctionBuilder} {pending : Shape}

theorem start (name : String) : Preliminary sz [] (.start name) where
  given id := by
    have hnone : ¬ (FunctionBuilder.start name).entry.node id := by
      rintro (h | ⟨p, hp, -⟩)
      · cases h
      · cases hp
    exact ⟨fun h => absurd h (Nat.not_lt_zero _), fun h => absurd h hnone⟩
  producer id := rfl
  constant id := rfl
  interface := ⟨List.nodup_nil, nofun, nofun⟩
  params h := by cases h
  dims id _ d hd := by cases hd
  scalars := rfl
  tensors := rfl
  outputs := rfl
  returned := rfl
  ops := rfl

/-! ### A further node -/

theorem node_eq (h : Preliminary sz pending b) (name : Option String) (kind : NodeKind) {id : NodeId}
    (hid : b.entry.node id) : (b.graph.addNode name kind).2.node id = b.graph.node id := by
  rw [Graph.addNode_node, if_neg (Nat.ne_of_lt ((h.given id).mpr hid))]

theorem shape_eq (h : Preliminary sz pending b) (name : Option String) (kind : NodeKind)
    {id : NodeId} (hid : b.entry.node id) :
    (b.graph.addNode name kind).2.shape id = b.graph.shape id :=
  congrArg Node.shape (h.node_eq name kind hid)

theorem producer_addNode (h : Preliminary sz pending b) (name : Option String) (kind : NodeKind)
    (id : NodeId) : ((b.graph.addNode name kind).2.node id).producer = none := by
  rw [Graph.addNode_node]
  split
  · rfl
  · exact h.producer id

theorem constant_addNode (h : Preliminary sz pending b) (name : Option String) {kind : NodeKind}
    (hkind : ∀ v sz, kind ≠ .constant v sz) (id : NodeId) :
    ((b.graph.addNode name kind).2.node id).constant? = none := by
  rw [Graph.addNode_node]
  split
  · cases kind with
    | constant v size => exact absurd rfl (hkind v size)
    | _ => rfl
  · exact h.constant id

/-- Every node is given or the new one. -/
theorem lt_addNode (h : Preliminary sz pending b) (name : Option String) (kind : NodeKind)
    {id : NodeId} : id.index < (b.graph.addNode name kind).2.nodes.size ↔
      b.entry.node id ∨ id = ⟨b.graph.nodes.size⟩ := by
  rw [Graph.addNode_nodes_size]
  constructor
  · intro hlt
    by_cases hold : id.index < b.graph.nodes.size
    · exact Or.inl ((h.given id).mp hold)
    · exact Or.inr (Graph.eq_of_size_le (Graph.addNode_nodes_size b.graph name kind)
        (Nat.le_of_not_lt hold) (by rwa [Graph.addNode_nodes_size]))
  · rintro (hid | rfl)
    · exact Nat.lt_succ_of_lt ((h.given id).mpr hid)
    · exact Nat.lt_succ_self _

/-- What the parameters and the symbols name is there already. -/
theorem fresh (h : Preliminary sz pending b) : (⟨b.graph.nodes.size⟩ : NodeId) ∉
    b.inputs.map Prod.snd ++ b.symbols.entries.map fun p => p.2.node := by
  intro hmem
  have hid : b.entry.node ⟨b.graph.nodes.size⟩ := by
    rcases List.mem_append.mp hmem with hin | hsym
    · exact Or.inl hin
    · obtain ⟨p, hp, hnode⟩ := List.mem_map.mp hsym
      exact Or.inr ⟨p, hp, hnode⟩
  exact Nat.lt_irrefl _ ((h.given _).mpr hid)

/-- A declared result that is not set apart. -/
theorem wellFormed (h : Preliminary sz [] b) (hplan : ∀ ty dst, b.returnPlan ≠ .static ty dst) :
    b.WellFormed sz where
  valid := by
    refine ⟨fun id o hproducer => ?_, ⟨fun {id} hid => (h.given id).mpr hid, fun _ => h.producer _,
      fun _ => h.constant _, fun {id} hid d hd => ?_, fun ⟨ty, hty⟩ => absurd hty (hplan _ _)⟩,
      fun id hid => Or.inl (has_given ((h.given id).mp hid))⟩
    · rw [h.producer] at hproducer
      cases hproducer
    · rcases h.dims id hid d hd with hconst | ⟨name, hname, hknown | hpending⟩
      · exact Or.inl hconst
      · exact Or.inr ⟨name, hname, hknown⟩
      · cases hpending
  interface := h.interface
  params := h.params
  scalars hid := by rw [h.scalars] at hid; cases hid
  tensors hid := by rw [h.tensors] at hid; cases hid
  outputs id hid := by rw [h.outputs] at hid; cases hid
  result hty := absurd hty (hplan _ _)
  unreturned _ := h.outputs
  single := by rw [h.outputs]; exact Nat.zero_le 1

/-- A node that is set apart for a declared result. -/
theorem wellFormed_static (h : Preliminary sz [] b) {kind : NodeKind} {ty : KernelType}
    (htype : ∀ producer consumers, Node.type ⟨none, kind, producer, consumers⟩ = ty)
    (hconstant : ∀ v sz, kind ≠ .constant v sz) (declared : Option KernelType) :
    ({ b with
      graph := (b.graph.addNode none kind).2
      returnPlan := .static ty ⟨b.graph.nodes.size⟩
      returnType := declared } : FunctionBuilder).WellFormed sz := by
  -- The only result so far is the new node; it is pending, since nothing computes it yet.
  have hnew : (b.graph.addNode none kind).2.type ⟨b.graph.nodes.size⟩ = ty := by
    simp only [Graph.type, Graph.addNode_node_self, htype]
  have hproducer := h.producer_addNode none kind
  refine ⟨⟨fun id o ho => ?_, ⟨fun {id} hid => ?_, fun _ => hproducer _, fun {id} hid => ?_,
    fun {id} hid d hd => ?_, fun {id} hid => ?_⟩, fun id hid => ?_⟩,
    h.interface.of_type_eq fun id hid => ?_, h.params, fun hid => ?_, fun hid => ?_, fun id hid => ?_,
    fun {ty' dst} hplan => ?_, fun _ => h.outputs, ?_⟩
  · rw [hproducer] at ho
    cases ho
  · rw [Graph.addNode_nodes_size]
    exact Nat.lt_succ_of_lt ((h.given id).mpr hid)
  · exact h.constant_addNode none hconstant id
  · rw [h.shape_eq none kind hid] at hd
    rcases h.dims id hid d hd with hconst | ⟨name, hname, hknown | hpending⟩
    · exact Or.inl hconst
    · exact Or.inr ⟨name, hname, hknown⟩
    · cases hpending
  · obtain ⟨ty', hty⟩ := hid
    obtain ⟨-, rfl⟩ := ReturnPlan.static.inj hty
    refine ⟨by simp, fun hgiven => Nat.lt_irrefl _ ((h.given _).mpr hgiven), ?_⟩
    simp only [Graph.addNode_node_self, Node.constant?]
  · rcases (h.lt_addNode none kind).mp hid with hgiven | rfl
    · exact Or.inl (Graph.Source.available (Or.inl hgiven))
    · exact Or.inr (Or.inl ⟨⟨ty, rfl⟩, hproducer _⟩)
  · exact congrArg Node.type (h.node_eq none kind hid)
  · have hid' : b.scalars.get? _ = some _ := hid
    rw [h.scalars] at hid'
    cases hid'
  · have hid' : b.tensors.get? _ = some _ := hid
    rw [h.tensors] at hid'
    cases hid'
  · have hid' : id ∈ b.outputs := hid
    rw [h.outputs] at hid'
    cases hid'
  · obtain ⟨rfl, rfl⟩ := ReturnPlan.static.inj hplan
    exact ⟨hnew, fun _ => hproducer _, fun hne => absurd h.outputs hne⟩
  · show b.outputs.length ≤ 1
    rw [h.outputs]
    exact Nat.zero_le 1

/-- There is no body and no slice yet, be it that a node is set apart for a declared result or not. -/
theorem orderly (h : Preliminary sz [] b) : b.graph.Orderly b.entry sz b.symbols where
  enclosed := Graph.enclosed_of_given h.ops fun id hid => Or.inl ((h.given id).mp hid)
  measured := Graph.measured_of_given h.ops fun id _ => h.constant id
  combined := Graph.combined_of_ops h.ops

theorem orderly_static (h : Preliminary sz [] b) {kind : NodeKind}
    (hconstant : ∀ v sz, kind ≠ .constant v sz) (ty : KernelType) :
    (b.graph.addNode none kind).2.Orderly
      (.ofFunction b.inputs b.symbols fun id => ∃ ty', ReturnPlan.static ty ⟨b.graph.nodes.size⟩ =
        .static ty' id) sz b.symbols where
  enclosed := by
    refine Graph.enclosed_of_given h.ops fun id hid => ?_
    rcases (h.lt_addNode none kind).mp hid with hgiven | rfl
    · exact Or.inl hgiven
    · exact Or.inr ⟨ty, rfl⟩
  measured := Graph.measured_of_given h.ops fun id _ => h.constant_addNode none hconstant id
  combined := Graph.combined_of_ops h.ops

/-- A new parameter, whose dimensions are still pending. -/
theorem addParam (h : Preliminary sz [] b) {id : String} {kind : NodeKind} {ty : KernelType}
    (htype : ∀ producer consumers, Node.type ⟨some id, kind, producer, consumers⟩ = ty)
    (hconstant : ∀ v sz, kind ≠ .constant v sz) (hclosed : ty.Closed) :
    Preliminary sz ty.shape { b with
      graph := (b.graph.addNode (some id) kind).2
      params := b.params.insert id ⟨b.graph.nodes.size⟩
      inputs := b.inputs ++ [(id, ⟨b.graph.nodes.size⟩)] } := by
  have hinput : ∀ {id' : NodeId},
      id' ∈ (b.inputs ++ [(id, (⟨b.graph.nodes.size⟩ : NodeId))]).map Prod.snd ↔
        id' ∈ b.inputs.map Prod.snd ∨ id' = ⟨b.graph.nodes.size⟩ := by simp
  constructor
  case given =>
    intro id'
    exact (h.lt_addNode (some id) kind).trans given_append_input.symm
  case producer => exact h.producer_addNode (some id) kind
  case constant => exact h.constant_addNode (some id) hconstant
  case interface =>
    constructor
    case nodup =>
      have hperm : ((b.inputs ++ [(id, (⟨b.graph.nodes.size⟩ : NodeId))]).map Prod.snd ++
          b.symbols.entries.map fun p => p.2.node).Perm
          (⟨b.graph.nodes.size⟩ :: (b.inputs.map Prod.snd ++
            b.symbols.entries.map fun p => p.2.node)) := by
        simp only [List.map_append, List.map_cons, List.map_nil, List.append_assoc,
          List.singleton_append]
        exact List.perm_middle
      exact hperm.nodup_iff.mpr (List.nodup_cons.mpr ⟨h.fresh, h.interface.nodup⟩)
    case symbolType =>
      intro p hp
      exact (congrArg Node.type (h.node_eq (some id) kind (Or.inr ⟨p, hp, rfl⟩))).trans
        (h.interface.symbolType p hp)
    case symbolArg =>
      intro p hp
      obtain ⟨hmem, haxis⟩ := h.interface.symbolArg p hp
      rw [h.shape_eq (some id) kind (Or.inl hmem)]
      exact ⟨hinput.mpr (Or.inl hmem), haxis⟩
  case params =>
    intro name id' hid
    rw [Table.get?_insert] at hid
    split at hid
    · obtain rfl := Option.some.inj hid
      exact hinput.mpr (Or.inr rfl)
    · exact hinput.mpr (Or.inl (h.params hid))
  case dims =>
    intro id' hid d hd
    rcases given_append_input.mp hid with hold | rfl
    · rw [h.shape_eq (some id) kind hold] at hd
      rcases h.dims id' hold d hd with hconst | ⟨name, hname, hknown | hpending⟩
      · exact Or.inl hconst
      · exact Or.inr ⟨name, hname, Or.inl hknown⟩
      · cases hpending
    -- The dimensions of the new parameter are constants, or symbols that are still to be added.
    · have hshape : (b.graph.addNode (some id) kind).2.shape ⟨b.graph.nodes.size⟩ = ty.shape := by
        simp only [Graph.shape, Node.shape, Graph.addNode_node_self, htype]
      rw [hshape] at hd
      cases d with
      | const n => exact Or.inl ⟨n, rfl⟩
      | sym name => exact Or.inr ⟨name, rfl, Or.inr hd⟩
      | node inner => exact absurd rfl (hclosed _ hd inner)
  case scalars => exact h.scalars
  case tensors => exact h.tensors
  case outputs => exact h.outputs
  case returned => exact h.returned
  case ops => exact h.ops

/-- A symbol that a parameter is the first to introduce. -/
theorem addSymbol {name : String} {rest : Shape} (h : Preliminary sz (.sym name :: rest) b)
    (hnew : b.symbols.contains name = false) {arg : NodeId} {axis : Nat}
    (harg : arg ∈ b.inputs.map Prod.snd)
    (haxis : (b.graph.shape arg)[axis]? = some (.sym name)) :
    Preliminary sz rest { b with
      graph := (b.graph.addScalar (some name) sz).2
      symbols := b.symbols.insert name ⟨⟨b.graph.nodes.size⟩, arg, axis⟩ } := by
  have hperm := Table.insert_perm (⟨⟨b.graph.nodes.size⟩, arg, axis⟩ : ShapeSymbol) hnew
  constructor
  case given =>
    intro id
    exact (h.lt_addNode (some name) (.scalar sz)).trans (given_insert_symbol hnew).symm
  case producer => exact h.producer_addNode (some name) (.scalar sz)
  case constant => exact h.constant_addNode (some name) (by simp)
  case interface =>
    constructor
    case nodup =>
      have hall := ((hperm.map fun p => p.2.node).append_left (b.inputs.map Prod.snd)).trans
        List.perm_middle
      exact hall.nodup_iff.mpr (List.nodup_cons.mpr ⟨h.fresh, h.interface.nodup⟩)
    case symbolType =>
      intro p hp
      rcases (Table.mem_entries_insert hnew).mp hp with rfl | hp
      · simp [Graph.addScalar, Graph.type, Node.type]
      · exact (congrArg Node.type (h.node_eq _ _ (Or.inr ⟨p, hp, rfl⟩))).trans
          (h.interface.symbolType p hp)
    case symbolArg =>
      intro p hp
      rcases (Table.mem_entries_insert hnew).mp hp with rfl | hp
      · exact ⟨harg, by rw [Graph.addScalar, h.shape_eq _ _ (Or.inl harg), haxis]⟩
      · obtain ⟨hmem, haxis'⟩ := h.interface.symbolArg p hp
        exact ⟨hmem, by rw [Graph.addScalar, h.shape_eq _ _ (Or.inl hmem), haxis']⟩
  case params => exact h.params
  case dims =>
    intro id hid d hd
    rcases (given_insert_symbol hnew).mp hid with hold | rfl
    · rw [Graph.addScalar, h.shape_eq _ _ hold] at hd
      rcases h.dims id hold d hd with hconst | ⟨other, hother, hknown | hpending⟩
      · exact Or.inl hconst
      · refine Or.inr ⟨other, hother, Or.inl ?_⟩
        rw [Table.contains_insert, hknown, Bool.or_true]
      -- The symbol that was pending is known now.
      · refine Or.inr ⟨other, hother, ?_⟩
        rcases List.mem_cons.mp hpending with heq | hpending
        · obtain rfl := Dim.sym.inj (hother.symm.trans heq)
          exact Or.inl (by simp [Table.contains_insert])
        · exact Or.inr hpending
    · simp [Graph.addScalar, Graph.shape, Node.shape, Node.type, KernelType.shape] at hd
  case scalars => exact h.scalars
  case tensors => exact h.tensors
  case outputs => exact h.outputs
  case returned => exact h.returned
  case ops => exact h.ops

/-- A pending dimension that is known already. -/
theorem skip {d : Dim} {rest : Shape} (h : Preliminary sz (d :: rest) b)
    (hknown : ∀ name, d = .sym name → b.symbols.contains name = true) : Preliminary sz rest b where
  given := h.given
  producer := h.producer
  constant := h.constant
  interface := h.interface
  params := h.params
  dims id hid d' hd' := by
    rcases h.dims id hid d' hd' with hconst | ⟨name, hname, hcontains | hpending⟩
    · exact Or.inl hconst
    · exact Or.inr ⟨name, hname, Or.inl hcontains⟩
    · refine Or.inr ⟨name, hname, ?_⟩
      rcases List.mem_cons.mp hpending with heq | hpending
      · exact Or.inl (hknown name (heq.symm.trans hname))
      · exact Or.inr hpending
  scalars := h.scalars
  tensors := h.tensors
  outputs := h.outputs
  returned := h.returned
  ops := h.ops

/-- Sizes that are written out are known. -/
theorem skip_constants {ns : List Int} (h : Preliminary sz (ns.map .const) b) :
    Preliminary sz [] b := by
  induction ns with
  | nil => exact h
  | cons n ns ih => exact ih (h.skip fun _ hd => by cases hd)

end Preliminary

/-- The builder of a kernel with one tensor parameter, whose sizes are written out. -/
def tensorParam (name param : String) (size : ElemSize) (ns : List Int) : FunctionBuilder :=
  { FunctionBuilder.start name with
    graph := (Graph.empty.addNode (some param) (.tensor size (ns.map .const))).2
    params := Table.empty.insert param ⟨0⟩
    inputs := [(param, ⟨0⟩)] }

theorem tensorParam_wellFormed (name param : String) (size sz : ElemSize) (ns : List Int) :
    (tensorParam name param size ns).WellFormed sz := by
  have hclosed : (KernelType.tensor size (ns.map .const)).Closed := by
    intro d hd id
    obtain ⟨n, -, rfl⟩ := List.mem_map.mp hd
    nofun
  have hpending : Preliminary sz (ns.map .const) (tensorParam name param size ns) :=
    (Preliminary.start name).addParam (fun _ _ => rfl) (fun _ _ h => by cases h) hclosed
  exact hpending.skip_constants.wellFormed fun _ _ h => by cases h

/-! ## The end of a function -/

/-- Once the declared result has a value, no node of the graph is set apart. -/
theorem valid_finished {b : FunctionBuilder} (hv : b.graph.Valid b.entry)
    (hresult : ∀ id, b.entry.result id → b.Has id) :
    b.graph.Valid (.ofFunction b.inputs b.symbols fun _ => False) ∧
      ∀ id, b.Has id → b.graph.Available (.ofFunction b.inputs b.symbols fun _ => False) id := by
  have emb : Graph.Embeds b.graph b.entry b.graph
      (.ofFunction b.inputs b.symbols fun _ => False) .identity := by
    refine ⟨fun h => h, fun h => ?_, fun h => ?_, fun {id} h => ?_, fun h => ?_⟩
    · rw [Relocation.identity_node, Relocation.identity_nodeKind]
    · rw [Relocation.identity_node, h]
      rfl
    · exact ⟨h.lt, h.notGiven, nofun, h.producer, h.constant⟩
    · rw [Relocation.identity_op, Relocation.identity_opData]
  have hkeep : ∀ id, b.Has id →
      b.graph.Available (.ofFunction b.inputs b.symbols fun _ => False) id := by
    rintro id ⟨n, hid⟩
    exact ⟨0 + n, hid.embed (k := 0) emb hv.coherent hv.entry (fun _ h => Or.inl h)
      fun _ h => h⟩
  refine ⟨⟨hv.coherent, ⟨hv.entry.lt, hv.entry.producer, hv.entry.constant, hv.entry.dims, nofun⟩,
    fun id hid => ?_⟩, hkeep⟩
  rcases hv.classified id hid with h | h | h
  · exact Or.inl (hkeep id h)
  · exact Or.inl (hkeep id (hresult id h.1))
  · exact Or.inr (Or.inr (emb.blocked hv.coherent hv.entry (fun h => hkeep _ h) h))

end FunctionBuilder

namespace BuildM

open FunctionBuilder (Preliminary)

variable {sz : ElemSize} {caches : GraphCache → Prop} {strict closed : Prop} {ctx : BuildContext}
  {b : FunctionBuilder}

theorem meets_finish (f : FunctionDef) (hb : b.WellFormed sz)
    (horderly : closed → b.graph.Orderly b.entry sz b.symbols) :
    Meets caches strict (finish f) b fun g _ => g.Formed sz closed := by
  refine meets_get_bind (meets_ite (fun _ => meets_fail (by rintro ⟨⟩))
    fun hreturned => meets_pure ?_)
  have hresult : ∀ id, b.entry.result id → b.Has id := by
    rintro id ⟨ty, hplan⟩
    refine (hb.result hplan).returned fun houtputs => hreturned ⟨Or.inl ?_, ?_⟩
    · rw [hplan]
      rfl
    · rw [houtputs]
      rfl
  obtain ⟨hvalid, hkeep⟩ := FunctionBuilder.valid_finished hb.valid hresult
  refine ⟨⟨hvalid, hb.interface, fun id hid => hkeep id (hb.outputs id hid), hb.single, fun h => ?_⟩,
    fun hclosed => FunctionBuilder.orderly_finished hb.valid hresult (horderly hclosed)⟩
  have houtputs : b.outputs.isEmpty = false := by
    simp only [Bool.and_eq_true, Bool.not_eq_true'] at h
    exact h.2
  intro hnil
  have hnil' : b.outputs = [] := hnil
  rw [hnil'] at houtputs
  cases houtputs

/-! ## Parameters -/

theorem meets_addSymbols {arg : NodeId} (axes : Shape) :
    ∀ {b : FunctionBuilder} {axis : Nat}, Preliminary sz axes b → arg ∈ b.inputs.map Prod.snd →
      (b.graph.shape arg).drop axis = axes →
      Meets caches strict (addSymbols sz arg axis axes) b fun _ b' => Preliminary sz [] b' := by
  induction axes with
  | nil => exact fun h _ _ => meets_pure h
  | cons d rest ih =>
    intro b axis h harg hdrop
    have hrest : (b.graph.shape arg).drop (axis + 1) = rest := by
      rw [← List.tail_drop, hdrop]
      rfl
    have haxis : (b.graph.shape arg)[axis]? = some d := by
      rw [← List.head?_drop, hdrop]
      rfl
    cases d with
    | sym name =>
      refine meets_get_bind (meets_ite (fun hknown => ?_) fun hnew => ?_)
      -- Known from an earlier axis: only the list of pending dimensions gets shorter.
      · refine ih (h.skip fun other heq => ?_) harg hrest
        rw [← Dim.sym.inj heq]
        exact hknown
      -- Introduced here: a node and an entry, then the axes behind.
      · have hadded := h.addSymbol (by simpa using hnew) harg haxis
        refine (meets_onGraph (Q := fun node b' => node = ⟨b.graph.nodes.size⟩ ∧
          b' = { b with graph := (b.graph.addScalar (some name) sz).2 }) ⟨rfl, rfl⟩).bind
          fun node b₁ ⟨hnode, h₁⟩ => ?_
        subst hnode
        subst h₁
        refine (meets_modify (Q := fun _ b' => b' = { b with
          graph := (b.graph.addScalar (some name) sz).2
          symbols := b.symbols.insert name ⟨⟨b.graph.nodes.size⟩, arg, axis⟩ }) rfl).bind
          fun _ b₂ h₂ => ?_
        subst h₂
        refine ih hadded harg (Eq.trans (congrArg (List.drop (axis + 1)) ?_) hrest)
        have hlt := (h.given arg).mpr (Or.inl harg)
        exact ((Graph.Extends.refl b.graph).addNode (some name) (.scalar sz)).shape_eq hlt
    | const n => exact ih (h.skip fun _ heq => nomatch heq) harg hrest
    | node id => exact ih (h.skip fun _ heq => nomatch heq) harg hrest

theorem meets_paramType (function : String) (param : Param) {given : Option KernelType}
    (hgiven : ∀ ty, param.hint = none → given = some ty → ty.Closed) :
    Meets caches strict (paramType function param given) b fun ty b' => b' = b ∧ ty.Closed := by
  unfold paramType
  split
  · exact meets_ofLocated (fun ty h => ⟨rfl, TypeHint.type_ok h⟩) fun _ h => TypeHint.type_error h
  · next ty hhint => exact meets_pure ⟨rfl, hgiven ty hhint rfl⟩
  · exact meets_fail (by rintro ⟨⟩)

theorem meets_addParam (hsize : ctx.options.indexSize = sz) (function : String) (param : Param)
    {given : Option KernelType} (hgiven : ∀ ty, param.hint = none → given = some ty → ty.Closed)
    (h : Preliminary sz [] b) :
    Meets caches strict (addParam ctx function param given) b fun _ b' => Preliminary sz [] b' := by
  refine meets_get_bind (meets_ite (fun _ => meets_fail (by rintro ⟨⟩)) fun _ => ?_)
  refine (meets_paramType function param hgiven).bind fun ty b₁ ⟨hsame, hclosed⟩ => ?_
  subst hsame
  obtain ⟨kind, hadd, htype, hconstant⟩ := b₁.graph.addOfType_eq_addNode (some param.id) ty
  have hadded := h.addParam htype hconstant hclosed
  refine (meets_onGraph (Q := fun arg b' => arg = ⟨b₁.graph.nodes.size⟩ ∧
    b' = { b₁ with graph := (b₁.graph.addNode (some param.id) kind).2 }) ?_).bind
    fun arg b₂ ⟨harg, h₂⟩ => ?_
  · rw [hadd]
    exact ⟨rfl, rfl⟩
  · subst harg
    subst h₂
    refine (meets_modify (Q := fun _ b' => b' = { b₁ with
      graph := (b₁.graph.addNode (some param.id) kind).2
      params := b₁.params.insert param.id ⟨b₁.graph.nodes.size⟩
      inputs := b₁.inputs ++ [(param.id, ⟨b₁.graph.nodes.size⟩)] }) rfl).bind fun _ b₃ h₃ => ?_
    subst h₃
    rw [hsize]
    refine meets_addSymbols ty.shape hadded (by simp) ?_
    simp only [List.drop_zero, Graph.shape, Node.shape, Graph.addNode_node_self, htype]

theorem meets_addParams (hsize : ctx.options.indexSize = sz) (function : String) (params : List Param) :
    ∀ {b : FunctionBuilder} {types : List KernelType}, (∀ ty ∈ types, ty.Closed) →
      Preliminary sz [] b →
      Meets caches strict (addParams ctx function params types) b fun _ b' => Preliminary sz [] b' := by
  induction params with
  | nil => exact fun _ h => meets_pure h
  | cons param params ih =>
    intro b types htypes h
    refine (meets_addParam hsize function param (fun ty _ hty => ?_) h).bind fun _ b₁ h₁ =>
      ih (fun ty hty => htypes ty (List.mem_of_mem_tail hty)) h₁
    exact htypes ty (List.mem_of_mem_head? hty)

theorem meets_checkParamNames (params : List Param) :
    Meets caches strict (checkParamNames params) b fun _ b' => b' = b := by
  refine meets_get_bind ?_
  split
  · exact meets_fail (by rintro ⟨⟩)
  · exact meets_pure rfl

/-- The declared result ends the preliminaries. -/
theorem meets_planReturn (result : ReturnHint) (h : Preliminary sz [] b) :
    Meets caches strict (planReturn result) b fun _ b' =>
      b'.WellFormed sz ∧ b'.graph.Orderly b'.entry sz b'.symbols := by
  -- Every plan but a static one sets nothing apart, so the graph stays as the parameters left it.
  have hplan : ∀ (plan : ReturnPlan) (ty : Option KernelType),
      (∀ ty dst, plan ≠ .static ty dst) →
      ({ b with returnPlan := plan, returnType := ty } : FunctionBuilder).WellFormed sz ∧
        ({ b with returnPlan := plan, returnType := ty } : FunctionBuilder).graph.Orderly
          ({ b with returnPlan := plan, returnType := ty } : FunctionBuilder).entry sz b.symbols := by
    intro plan ty hplan
    have hplanned : Preliminary sz [] { b with returnPlan := plan, returnType := ty } :=
      ⟨h.given, h.producer, h.constant, h.interface, h.params, h.dims, h.scalars, h.tensors,
        h.outputs, h.returned, h.ops⟩
    exact ⟨hplanned.wellFormed hplan, hplanned.orderly⟩
  cases result with
  | missing => exact meets_modify (hplan .template b.returnType nofun)
  | void => exact meets_modify (hplan .void b.returnType nofun)
  | type hint =>
    refine Meets.bind (Q := fun _ b' => b' = b)
      (meets_ofLocated (fun _ _ => rfl) fun _ h => TypeHint.type_error h) fun ty b₁ hsame => ?_
    subst hsame
    refine meets_get_bind (meets_ite (fun _ => meets_set (hplan .dynamic (some ty) nofun)) fun _ => ?_)
    obtain ⟨kind, hadd, htype, hconstant⟩ := b₁.graph.addOfType_eq_addNode none ty
    refine (meets_onGraph (Q := fun node b' => node = ⟨b₁.graph.nodes.size⟩ ∧
      b' = { b₁ with graph := (b₁.graph.addNode none kind).2 }) ?_).bind
      fun node b₂ ⟨hnode, h₂⟩ => meets_modify ?_
    · rw [hadd]
      exact ⟨rfl, rfl⟩
    · subst hnode
      subst h₂
      exact ⟨h.wellFormed_static htype hconstant (some ty), h.orderly_static hconstant ty⟩

end BuildM

/-! ## Functions -/

/-- Every boolean operation of a function has an operand. -/
def FunctionDef.BooleansNonempty (f : FunctionDef) : Prop :=
  ∀ s ∈ f.body, s.BooleansNonempty

namespace BuildM

variable {sz : ElemSize} {strict closed : Prop} {ctx : BuildContext}

/-- Building a function gives a well-formed graph, orderly if what its calls give is. -/
theorem meets_function (hctx : ctx.Sound sz strict closed) (f : FunctionDef)
    (hf : strict → f.BooleansNonempty) {types : List KernelType} (htypes : ∀ ty ∈ types, ty.Closed) :
    Meets (GraphCache.Formed sz closed) strict (function ctx f types) (.start f.id) fun g _ =>
      g.Formed sz closed := by
  refine (meets_addParams hctx.size f.id f.params htypes (.start f.id)).bind fun _ b₁ h₁ => ?_
  refine (meets_checkParamNames f.params).bind fun _ b₂ hsame => ?_
  subst hsame
  refine (meets_planReturn f.result h₁).bind fun _ b₃ ⟨hb₃, horderly⟩ => ?_
  exact (keeps_body hctx f.body hf hb₃).bind fun _ b₄ ⟨hb₄, hcontinues⟩ =>
    meets_finish f hb₄ fun hclosed => hcontinues.encloses hclosed horderly

end BuildM

end TensorKernel
