import TensorKernel.Proofs.ClosedBodies
import TensorKernel.Proofs.Eval.Faults

/-!
# What evaluation remembers makes no difference

`Evaluator.demands` asks one evaluation for several nodes, one after another, and goes on with what is
remembered, also where a node could not be evaluated.  A node outside of all bodies has the same value,
or fails in the same way, as if nothing else had been asked for before.

The nodes of bodies are the exception.  A placeholder has a different value for every element, and so has
what the body computes from it, so the scope that holds them must be gone when the next element is
turned to, and also when evaluation fails in the middle of a body.  That only nodes outside of bodies are
remembered is part of the statement.
-/

namespace TensorKernel

namespace Graph

/-- A node of the graph that belongs to the body of no operator. -/
def Outside (g : Graph) (id : NodeId) : Prop :=
  id.index < g.nodes.size ∧ ∀ op ∈ g.ops, id ∉ op.kind.placeholders ∧ id ∉ op.kind.inner

instance (g : Graph) (id : NodeId) : Decidable (g.Outside id) :=
  inferInstanceAs (Decidable (_ ∧ _))

variable {g : Graph} {e : Entry} {id : NodeId}

theorem outside_iff : g.Outside id ↔ id.index < g.nodes.size ∧
    ∀ o : OpId, id ∉ (g.op o).kind.placeholders ∧ id ∉ (g.op o).kind.inner := by
  refine and_congr_right fun _ => ⟨fun h o => ?_, fun h op hop => ?_⟩
  · by_cases ho : o.index < g.ops.size
    · rw [Graph.op, ← Array.getElem_eq_getD (h := ho)]
      exact h _ (Array.getElem_mem ho)
    · rw [op_of_size_le (Nat.le_of_not_lt ho)]
      exact ⟨List.not_mem_nil, List.not_mem_nil⟩
  · obtain ⟨i, hi, rfl⟩ := Array.mem_iff_getElem.mp hop
    rw [Array.getElem_eq_getD default]
    exact h ⟨i⟩

namespace Enclosed

variable (h : g.Enclosed e) (hv : g.Valid e)
include h hv

/-- A node that has no value outside of the body it belongs to is a placeholder or what is computed. -/
theorem not_outside_of_blocked (hid : g.Blocked e id) : ¬ g.Outside id := by
  intro houtside
  obtain ⟨-, hbodies⟩ := outside_iff.mp houtside
  rcases hid with hhole | ⟨p, hproducer, -, arg, harg, hhole⟩
  · obtain ⟨o, ho⟩ := h.owner hhole
    exact (hbodies o).1 ho
  · -- What reads a placeholder computes the result of the body that the placeholder belongs to.
    obtain ⟨o, ho⟩ := h.owner hhole
    obtain ⟨inner, hinner, hinnerProducer⟩ := h.reader ho harg
    have hsame : [inner] = [id] :=
      (hv.coherent inner p hinnerProducer).2.symm.trans (hv.coherent id p hproducer).2
    exact (hbodies o).2 (List.singleton_inj.mp hsame ▸ hinner)

/-- Once the declared results are computed, the nodes with a value are those outside of all bodies. -/
theorem outside_iff_available (hs : g.Settled e) (hresult : ∀ id, ¬ e.result id) :
    g.Outside id ↔ g.Available e id := by
  constructor
  · intro houtside
    rcases hv.classified id houtside.1 with hid | hid | hid
    · exact hid
    · exact absurd hid.1 (hresult id)
    · exact absurd houtside (h.not_outside_of_blocked hv hid)
  · intro hid
    refine outside_iff.mpr ⟨hid.lt hv.entry, fun o => ⟨fun ho => ?_, fun ho => ?_⟩⟩
    · exact (h.hole ho).not_available hv.coherent hid
    · obtain ⟨dst, hop⟩ := h.opValid_of_inner hv hs ho
      obtain ⟨p, hproducer, hscalar, arg, harg, hplaceholder⟩ := hop.inner id ho
      exact hscalar.not_available hv.coherent hv.entry hproducer
        (hs.computed (by rw [hproducer]; nofun)) ⟨arg, harg, h.hole hplaceholder⟩ hid

end Enclosed

end Graph

/-! ## Several nodes from one evaluation -/

namespace Evaluator

/--
Asks one evaluation for nodes, one after another: the result for each node, and the scopes after it.
The next node is evaluated in these scopes, whether this one could be or not.
-/
def demands (ctx : EvalContext) : List NodeId → List EvalScope →
    List (Except EvalFault Value × List EvalScope)
  | [], _ => []
  | id :: ids, s => run (node ctx (depth ctx) id) s ::
      demands ctx ids (run (node ctx (depth ctx) id) s).2

section Demands

variable {ctx : EvalContext} {given : GivenValues} {e : Entry} (hc : ctx.graph.Coherent)
  (he : ctx.graph.EntryValid e) (hgiven : e.GivenBy given)
include hc he hgiven

/-- Available nodes have their meanings for results, and what is left behind is always a memory. -/
theorem demands_spec {ids : List NodeId} : ∀ {s : List EvalScope}, Memory ctx given e s →
    (∀ id ∈ ids, ctx.graph.Available e id) →
    (demands ctx ids s).map Prod.fst = ids.map (meaning ctx given) ∧
      ∀ outcome ∈ demands ctx ids s, Memory ctx given e outcome.2 ∧ Remembers s outcome.2 := by
  induction ids with
  | nil => exact fun _ _ => ⟨rfl, nofun⟩
  | cons id ids ih =>
    intro s hs hids
    obtain ⟨hid, hrest⟩ := List.forall_mem_cons.mp hids
    have hfollows := follows_node hc he hgiven hs hid
    obtain ⟨hresults, houtcomes⟩ := ih hfollows.memory hrest
    refine ⟨congrArg₂ List.cons hfollows.result hresults, fun outcome houtcome => ?_⟩
    rcases List.mem_cons.mp houtcome with rfl | houtcome
    · exact ⟨hfollows.memory, hfollows.remembers⟩
    · obtain ⟨hmemory, hkept⟩ := houtcomes outcome houtcome
      exact ⟨hmemory, hfollows.remembers.trans hkept⟩

end Demands

end Evaluator

/-! ## Built graphs -/

open Evaluator in
/--
The nodes outside of all bodies can be asked for in any order and as often as one likes: each has the
value or the failure that it has for an evaluation that is asked for nothing else, and it fails only for
a reason that lies in the arguments.  Afterwards there is one scope, with the arguments and with values
of nodes outside of all bodies.
-/
theorem demands_independent {defs : List FunctionDef} {main : String} {options : Options}
    {f : FunctionGraph} (h : buildGraph defs main options = .ok f) {args : List Value}
    {given : GivenValues} {sizes : Table String Nat} (hbind : f.bindAll args = .ok (given, sizes))
    {ids : List NodeId} (hids : ∀ id ∈ ids, f.graph.Outside id) :
    let ctx : EvalContext := ⟨f.graph, sizes⟩
    let alone (id : NodeId) := (run (node ctx (depth ctx) id) [.ofTable given]).1
    (demands ctx ids [.ofTable given]).map Prod.fst = ids.map alone ∧
      (∀ id ∈ ids, ∀ fault, alone id = .error fault → fault.Explained (f.FitsWord args)) ∧
      ∀ outcome ∈ demands ctx ids [.ofTable given], ∃ scope, outcome.2 = [scope] ∧
        (∀ id v, given.get? id = some v → scope.get? id = some v) ∧
        ∀ id v, scope.get? id = some v → f.graph.Outside id ∧ alone id = .ok v := by
  intro ctx alone
  have hformed := buildGraph_formed h
  have hf := hformed.wellFormed
  have hgiven := hf.evaluable.givenBy (FunctionGraph.admits_of_bindAll hf.interface hbind)
  have houtside (id : NodeId) : f.graph.Outside id ↔ f.graph.Available f.entry id :=
    (hformed.enclosed trivial).outside_iff_available hf.valid (buildGraph_settled h).graph
      fun _ hresult => hresult
  have hstart : Memory ctx given f.entry [.ofTable given] := memory_start hgiven
  have halone {id : NodeId} (hid : f.graph.Available f.entry id) : alone id = meaning ctx given id :=
    (follows_node hf.valid.coherent hf.valid.entry hgiven hstart hid).result
  have havailable : ∀ id ∈ ids, ctx.graph.Available f.entry id := fun id hid =>
    (houtside id).mp (hids id hid)
  obtain ⟨hresults, houtcomes⟩ :=
    demands_spec hf.valid.coherent hf.valid.entry hgiven hstart havailable
  refine ⟨?_, fun id hid fault hfault => ?_, fun outcome houtcome => ?_⟩
  · rw [hresults]
    exact List.map_congr_left fun id hid => (halone (havailable id hid)).symm
  · rw [halone (havailable id hid)] at hfault
    exact ((hf.safe_node hbind (havailable id hid)).1 fault hfault).explained
  -- Each demand leaves a memory of the same graph, with the scopes that it was started with.
  · obtain ⟨hmemory, hkept⟩ := houtcomes outcome houtcome
    obtain ⟨scope, outer, hscopes⟩ := List.exists_cons_of_ne_nil hmemory.isOpen
    obtain rfl : outer = [] := by simpa [hscopes] using hkept.outer
    have hlookup (id : NodeId) : lookup outcome.2 id = scope.get? id := by
      rw [hscopes, lookup_cons]
      exact Option.or_none
    refine ⟨scope, hscopes, fun id v hv => ?_, fun id v hv => ?_⟩
    · rw [← hlookup]
      exact hmemory.holds hv
    · rw [← hlookup] at hv
      obtain ⟨hid, hmeaning⟩ := hmemory.remembered hv
      exact ⟨(houtside id).mpr hid, (halone hid).trans hmeaning⟩

/-- A kernel that divides a number by each element of a vector and adds it to each of them. -/
def sharedOut : FunctionDef :=
  let name (id : String) : Expr := .name id .nowhere
  ⟨"share", [⟨"x", some (.subscript (name "int64") (name "N") .nowhere), .nowhere⟩,
    ⟨"k", some (name "int64"), .nowhere⟩], .missing,
    [.assign (name "q") (.binary (name "k") .floorDiv (name "x") .nowhere) .nowhere,
      .assign (name "s") (.binary (name "k") .add (name "x") .nowhere) .nowhere,
      .returns (some (.binary (name "q") .add (name "s") .nowhere)) .nowhere], .nowhere⟩

open Evaluator in
theorem demands_independent_sharedOut :
    let args := [Value.tensor [2] #[.int 1, .int 0], .scalar (.int 6)]
    -- The quotients, whose second element fails inside of the body, the sums, and both again.
    let ids : List NodeId := [⟨6⟩, ⟨10⟩, ⟨6⟩, ⟨10⟩]
    ∃ f given sizes, buildGraph [sharedOut] "share" .default = .ok f ∧
      f.bindAll args = .ok (given, sizes) ∧ (∀ id ∈ ids, f.graph.Outside id) ∧
      let outcomes := demands ⟨f.graph, sizes⟩ ids [.ofTable given]
      outcomes.map Prod.fst =
        [.error (.arithmetic .divisionByZero), .ok (.tensor [2] #[.int 7, .int 6]),
          .error (.arithmetic .divisionByZero), .ok (.tensor [2] #[.int 7, .int 6])] ∧
      ∀ outcome ∈ outcomes, outcome.2.length = 1 := by
  intro args ids
  have hbuilds : (buildGraph [sharedOut] "share" .default).toOption.any (fun f =>
      (f.bindAll args).toOption.any fun bound =>
        let ctx : EvalContext := ⟨f.graph, bound.2⟩
        decide ((∀ id ∈ ids, f.graph.Outside id) ∧
          ids.map (fun id => (run (node ctx (depth ctx) id) [.ofTable bound.1]).1) =
            [.error (.arithmetic .divisionByZero), .ok (.tensor [2] #[.int 7, .int 6]),
              .error (.arithmetic .divisionByZero), .ok (.tensor [2] #[.int 7, .int 6])])) =
      true := by decide +kernel
  obtain ⟨f, hbuild, hbinds⟩ := exists_of_any_toOption hbuilds
  obtain ⟨⟨given, sizes⟩, hbind, hchecks⟩ := exists_of_any_toOption hbinds
  obtain ⟨houtside, halone⟩ := of_decide_eq_true hchecks
  obtain ⟨hresults, -, hscopes⟩ := demands_independent hbuild hbind houtside
  refine ⟨f, given, sizes, hbuild, hbind, houtside, hresults.trans halone, fun outcome houtcome => ?_⟩
  obtain ⟨scope, hscope, -⟩ := hscopes outcome houtcome
  rw [hscope]
  rfl

end TensorKernel
