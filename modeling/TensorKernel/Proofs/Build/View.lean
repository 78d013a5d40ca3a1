import TensorKernel.Proofs.Eval.Given

/-!
# Evaluating builders

A builder can be evaluated as far as it has been built: `FunctionBuilder.view` is its graph with
some nodes as results.  The nodes that have a value are exactly those that may be evaluated, and
what a builder is given for some arguments does not change when its graph grows.
-/

namespace TensorKernel

namespace FunctionGraph

/-! ## Graphs with the same parameters -/

section Congruence

variable {g g' : Graph}

theorem bindArgument_congr {id : NodeId} (h : g'.type id = g.type id) (param : String) (v : Value) :
    bindArgument g' param id v = bindArgument g param id v := by
  have htype : (g'.node id).type = (g.node id).type := h
  unfold bindArgument Node.isScalar Node.shape Node.elemSize
  dsimp only
  rw [htype]

theorem bindArguments_congr {inputs : List (String × NodeId)}
    (h : ∀ id ∈ inputs.map Prod.snd, g'.type id = g.type id) :
    ∀ (given : GivenValues) (args : List Value),
      bindArguments g' given inputs args = bindArguments g given inputs args := by
  induction inputs with
  | nil => exact fun _ _ => rfl
  | cons input inputs ih =>
    intro given args
    cases args with
    | nil => rfl
    | cons arg args =>
      obtain ⟨param, id⟩ := input
      have hrest := ih fun other hother => h other (List.mem_cons_of_mem _ hother)
      have hhead := bindArgument_congr (h id (List.mem_cons_self ..)) param arg
      simp only [bindArguments, hhead, hrest]

theorem bindSymbols_congr {entries : List (String × ShapeSymbol)}
    (h : ∀ p ∈ entries, g'.type p.2.node = g.type p.2.node) :
    ∀ (given : GivenValues) (sizes : Table String Nat),
      bindSymbols g' given sizes entries = bindSymbols g given sizes entries := by
  induction entries with
  | nil => exact fun _ _ => rfl
  | cons entry entries ih =>
    intro given sizes
    obtain ⟨name, symbol⟩ := entry
    have hrest := ih fun p hp => h p (List.mem_cons_of_mem _ hp)
    have hsize : g'.elemSize symbol.node = g.elemSize symbol.node :=
      congrArg KernelType.elemSize (h _ (List.mem_cons_self ..))
    simp only [bindSymbols, hsize, hrest]

theorem checkSizes_congr {sizes : Table String Nat} {values : List (NodeId × Value)}
    (h : ∀ p ∈ values, g'.type p.1 = g.type p.1) :
    checkSizes g' sizes values = checkSizes g sizes values := by
  induction values with
  | nil => rfl
  | cons p values ih =>
    obtain ⟨id, v⟩ := p
    have hshape : g'.shape id = g.shape id :=
      congrArg KernelType.shape (h _ (List.mem_cons_self ..))
    simp only [checkSizes, hshape, ih fun q hq => h q (List.mem_cons_of_mem _ hq)]

/-- Arguments are bound by what the parameters and symbols are, and by nothing else of a graph. -/
theorem bindAll_congr {f f' : FunctionGraph} {sz : ElemSize}
    (hf : f.graph.Interface sz f.inputs f.symbols) (hname : f'.name = f.name)
    (hinputs : f'.inputs = f.inputs) (hsymbols : f'.symbols = f.symbols)
    (htype : ∀ id, f.entry.node id → f'.graph.type id = f.graph.type id) (args : List Value) :
    f'.bindAll args = f.bindAll args := by
  unfold bindAll
  rw [hname, hinputs, hsymbols]
  split
  · rfl
  · next hlength =>
    have hlength : f.inputs.length = args.length := (not_not.mp hlength).symm
    rw [bindArguments_congr fun id hid => htype id (Or.inl hid)]
    cases hargs : bindArguments f.graph .empty f.inputs args with
    | error fault => rfl
    | ok given =>
      show (bindSymbols f'.graph given .empty f.symbols.entries >>= _) =
        (bindSymbols f.graph given .empty f.symbols.entries >>= _)
      rw [bindSymbols_congr fun p hp => htype _ (Or.inr ⟨p, hp, rfl⟩)]
      cases hbind : bindSymbols f.graph given .empty f.symbols.entries with
      | error fault => rfl
      | ok bound =>
        obtain ⟨_, hkeys⟩ := keys_of_bind hf hlength hargs hbind
        show (checkSizes f'.graph bound.2 bound.1.entries >>= _) =
          (checkSizes f.graph bound.2 bound.1.entries >>= _)
        rw [checkSizes_congr fun p hp =>
          htype _ ((hkeys p.1).mp (List.mem_map_of_mem (f := Prod.fst) hp))]

end Congruence

end FunctionGraph

namespace FunctionBuilder

/-! ## Views -/

/-- The function as far as it has been built, with some nodes as its results. -/
def view (b : FunctionBuilder) (outputs : List NodeId) : FunctionGraph where
  name := b.name
  graph := b.graph
  inputs := b.inputs
  outputs := outputs
  symbols := b.symbols
  returnKind := b.returnPlan.kind
  returnType := b.returnType
  canInline := false

variable {sz : ElemSize} {b b' : FunctionBuilder}

theorem WellFormed.evaluable (hb : b.WellFormed sz) (outputs : List NodeId) :
    (b.view outputs).Evaluable sz b.entry where
  coherent := hb.valid.coherent
  entryValid := hb.valid.entry
  node _ := Iff.rfl
  symbol _ := Iff.rfl
  interface := hb.interface

/-- The results of a view are the meanings of its nodes. -/
theorem WellFormed.eval_view (hb : b.WellFormed sz) {ids : List NodeId}
    (hids : ∀ id ∈ ids, b.Has id) (args : List Value) :
    (b.view ids).eval args = (do
      let (given, sizes) ← (b.view []).bindAll args
      ids.mapM (meaning ⟨b.graph, sizes⟩ given)) :=
  (hb.evaluable ids).eval_eq hids args

/-- Only nodes that have a value can be evaluated. -/
theorem WellFormed.has_of_eval (hb : b.WellFormed sz) {ids : List NodeId} {args vs : List Value}
    (h : (b.view ids).eval args = .ok vs) : ∀ id ∈ ids, b.Has id := by
  unfold FunctionGraph.eval at h
  obtain ⟨⟨given, sizes⟩, hbind, h⟩ := exists_of_bind_ok h
  have hf := hb.evaluable ids
  have hgiven := hf.givenBy (FunctionGraph.admits_of_bindAll hf.interface hbind)
  by_contra hids
  have hfails : Evaluator.Fails (Evaluator.nodes ⟨b.graph, sizes⟩ ids) [.ofTable given] :=
    Evaluator.fails_nodes hb.valid hgiven (Evaluator.memory_start hgiven) hids
  obtain ⟨fault, hfault⟩ := hfails
  have hok : (Evaluator.run (Evaluator.nodes ⟨b.graph, sizes⟩ ids) [.ofTable given]).1 = .ok vs := h
  rw [hfault] at hok
  cases hok

/-- What a builder is given does not change when its graph grows. -/
theorem WellFormed.bindAll_view (hb : b.WellFormed sz) (h : Grown b b') (ids ids' : List NodeId)
    (args : List Value) : (b'.view ids').bindAll args = (b.view ids).bindAll args := by
  have hname : b'.name = b.name := by rw [h.eq]
  have hinputs : b'.inputs = b.inputs := by rw [h.eq]
  have hsymbols : b'.symbols = b.symbols := by rw [h.eq]
  have htype : ∀ id, b.entry.node id → b'.graph.type id = b.graph.type id := fun id hid =>
    h.ext.type_eq (hb.valid.entry.lt hid)
  apply FunctionGraph.bindAll_congr (hb.evaluable ids).interface
  · exact hname
  · exact hinputs
  · exact hsymbols
  · exact htype

/-- A node that was there means the same in a larger graph. -/
theorem WellFormed.meaning_grown (hb : b.WellFormed sz) (h : Grown b b') {given : GivenValues}
    (hgiven : b.entry.GivenBy given) (sizes : Table String Nat) {node : NodeId}
    (hnode : b.Has node) :
    meaning ⟨b'.graph, sizes⟩ given node = meaning ⟨b.graph, sizes⟩ given node := by
  have hsame : ∀ {node : NodeId}, b.entry.node node → Agree id
      (meaning ⟨b.graph, sizes⟩ given node) (meaning ⟨b'.graph, sizes⟩ given node) := by
    intro node hid
    obtain ⟨v, hv⟩ := hgiven.exists_value hid
    rw [meaning_of_given hv, meaning_of_given hv]
    exact .refl _
  have hvalid : b'.graph.Valid b.entry := h.valid
  have hagree : Agree id (meaning ⟨b.graph, sizes⟩ given node)
      (meaning ⟨b'.graph, sizes⟩ given (Relocation.identity.node node)) :=
    agree_meaning (r := .identity) h.ext.embeds
      hb.valid.coherent hb.valid.entry hgiven hvalid.coherent hvalid.entry hgiven
      (fun hid => hid.extend hb.valid h.ext) (fun hid => hid) hsame (fun _ _ => .refl _)
      (fun _ => rfl) (fun _ => rfl) hnode
  rw [Relocation.identity_node] at hagree
  exact hagree.eq_of_id.symm

/-- A node that was there is evaluated as before in a larger graph, or fails in both. -/
theorem WellFormed.eval_grown (hb : b.WellFormed sz) (h : Grown b b') {node : NodeId}
    (hlt : node.index < b.graph.nodes.size) (args : List Value) :
    ((b'.view [node]).eval args).toOption = ((b.view [node]).eval args).toOption := by
  have hb' := h.wellFormed hb
  have hfails : ∀ {b : FunctionBuilder}, b.WellFormed sz → ¬ b.Has node →
      ((b.view [node]).eval args).toOption = none := by
    intro b hb hnode
    cases heval : (b.view [node]).eval args with
    | error fault => rfl
    | ok vs => exact absurd (hb.has_of_eval heval node (by simp)) hnode
  by_cases hnode : b.Has node
  · have hids : ∀ id ∈ [node], b.Has id := by simpa using hnode
    have hids' : ∀ id ∈ [node], b'.Has id := by simpa using h.has hnode
    rw [hb.eval_view hids, hb'.eval_view hids', hb.bindAll_view h [] []]
    cases hbind : (b.view []).bindAll args with
    | error fault => rfl
    | ok bound =>
      obtain ⟨given, sizes⟩ := bound
      have hgiven := (hb.evaluable []).givenBy
        (FunctionGraph.admits_of_bindAll (hb.evaluable []).interface hbind)
      show ([node].mapM (meaning ⟨b'.graph, sizes⟩ given)).toOption =
        ([node].mapM (meaning ⟨b.graph, sizes⟩ given)).toOption
      rw [List.mapM_cons, List.mapM_cons, hb.meaning_grown h hgiven sizes hnode]
      rfl
  · rw [hfails hb hnode, hfails hb']
    -- A node without a value belongs to a body or to the result, and still does.
    have hconstant : (b.graph.node node).constant? = none := by
      by_contra hsome
      obtain ⟨v, hv⟩ := Option.ne_none_iff_exists'.mp hsome
      exact hnode (Graph.Source.available (Or.inr ⟨v, hv⟩))
    rw [Has, h.entry_eq]
    have hc := h.valid.coherent
    have he := h.valid.entry
    rcases hb.valid.classified node hlt with hid | hid | hid
    · exact absurd hid hnode
    · exact Graph.Pending.not_available hc he ⟨hid.1, (h.ext.producer_eq node hlt).trans hid.2⟩
    · exact Graph.Blocked.not_available hc he ((h.ext.constant_eq hlt).trans hconstant)
        (hid.extend hb.valid h.ext)

end FunctionBuilder

end TensorKernel
