import TensorKernel.Proofs.Build.Instantiation
import TensorKernel.Proofs.Eval.Demand
import TensorKernel.Proofs.Eval.Faults
import TensorKernel.Proofs.Lower.Demand
import TensorKernel.Proofs.Lower.Function

/-!
# Evaluation and lowering end

Evaluation and lowering go from a node to the nodes that its rule asks for, down to some depth.  In
a graph that was built every node they go to is one that is needed, needs have no cycle, and ranks
are at most the number of operators.  So a depth above that number is as good as none: what the
recursion computes is the one solution of its equations.

The order in which nodes and operators were created plays no part, and could not:
`buildGraph_acyclic_splicedTotal` has a graph in which both go against the needs.
-/

namespace TensorKernel

open Relation (ReflTransGen TransGen)

/-! ## Recursion along needs -/

/-- A rule for nodes that asks only for the nodes that are needed. -/
def Graph.Demands {γ : Type} (g : Graph) (rule : (NodeId → γ) → NodeId → γ) : Prop :=
  ∀ ⦃need need' id⦄, (∀ other, g.Needs id other → need other = need' other) →
    rule need id = rule need' id

/-- The equations of a rule have one solution. -/
def OnlySolution {γ : Type} (rule : (NodeId → γ) → NodeId → γ) (value : NodeId → γ) : Prop :=
  ∀ other, other = rule other ↔ other = value

namespace Graph

variable {γ : Type} {g : Graph} {rule : (NodeId → γ) → NodeId → γ} (hrule : g.Demands rule)
include hrule

/-- Without an infinite chain of needs the equations of a rule have at most one solution. -/
theorem Demands.unique (hwf : WellFounded fun other id => g.Needs id other)
    {value other : NodeId → γ} (hvalue : value = rule value) (hother : other = rule other) :
    value = other := by
  funext id
  induction id using hwf.induction with
  | h id ih =>
    rw [congrFun hvalue id, congrFun hother id]
    exact hrule ih

/-- A recursion does not come down to a bound that is above the rank. -/
theorem Demands.bound_irrelevant (hrank : ∀ {id other}, g.Needs id other → g.rank other < g.rank id)
    {bounded : Nat → NodeId → γ} (hbounded : ∀ k id, bounded (k + 1) id = rule (bounded k) id) :
    ∀ {k k' id}, g.rank id < k → g.rank id < k' → bounded k id = bounded k' id := by
  intro k
  induction k with
  | zero => exact fun h => absurd h (Nat.not_lt_zero _)
  | succ k ih =>
    intro k' id hk hk'
    obtain ⟨k', rfl⟩ := Nat.exists_eq_add_of_le' (Nat.one_le_of_lt hk')
    rw [hbounded, hbounded]
    refine hrule fun other hneeds => ?_
    have hlt := hrank hneeds
    exact ih (by omega) (by omega)

/-- A recursion with a bound above the number of operators solves the equations of its rule. -/
theorem Demands.onlySolution {e : Entry} (hv : g.Valid e) (hs : g.Settled e)
    (hresult : ∀ id, ¬ e.result id) {bounded : Nat → NodeId → γ}
    (hbounded : ∀ k id, bounded (k + 1) id = rule (bounded k) id) {k : Nat} (hk : g.ops.size < k) :
    OnlySolution rule (bounded k) := by
  have hsolves : bounded k = rule (bounded k) := by
    funext id
    have hlt : g.rank id < k := Nat.lt_of_le_of_lt (rank_le id) hk
    rw [← hbounded]
    exact hrule.bound_irrelevant (hv.rank_lt hs hresult) hbounded hlt (Nat.lt_succ_of_lt hlt)
  refine fun other => ⟨fun hother => ?_, fun h => h ▸ hsolves⟩
  exact hrule.unique (hv.wellFounded_needs hs hresult) hother hsolves

end Graph

/-! ## Graphs that were built -/

/--
In a graph that was built no node needs itself, however long the way is.  Evaluating and lowering a
node ask only for nodes that it needs, and what they compute down to any depth above the number of
operators is the only solution of their equations.  So they never run out of depth.
-/
theorem buildGraph_acyclic {defs : List FunctionDef} {main : String} {options : Options}
    {f : FunctionGraph} (h : buildGraph defs main options = .ok f) :
    (∀ id, ¬ TransGen f.graph.Needs id id) ∧
      (∀ sizes, f.graph.Demands (Evaluator.nodeRule ⟨f.graph, sizes⟩) ∧
        ∀ depth, f.graph.ops.size < depth →
          OnlySolution (Evaluator.nodeRule ⟨f.graph, sizes⟩)
            (Evaluator.node ⟨f.graph, sizes⟩ depth)) ∧
      (f.graph.Demands (LowerM.nodeRule f.graph) ∧
        ∀ depth, f.graph.ops.size < depth →
          OnlySolution (LowerM.nodeRule f.graph) (LowerM.node f.graph depth)) ∧
      (∀ args id, f.eval args ≠ .error (.cyclicGraph id)) ∧
      ∀ lowering, ∃ fn, f.lower lowering = .ok fn := by
  have hf := buildGraph_wellFormed h
  have hs := (buildGraph_settled h).graph
  have hresult : ∀ id, ¬ f.entry.result id := fun _ h => h
  have heval : ∀ sizes, f.graph.Demands (Evaluator.nodeRule ⟨f.graph, sizes⟩) := fun sizes _ _ _ =>
    @Evaluator.nodeRule_congr ⟨f.graph, sizes⟩ _ _ _ hf.valid hs _
  have hlower : f.graph.Demands (LowerM.nodeRule f.graph) := fun _ _ _ =>
    LowerM.nodeRule_congr hf.valid hs
  refine ⟨hf.valid.acyclic hs hresult, fun sizes => ⟨heval sizes, fun depth hdepth => ?_⟩,
    ⟨hlower, fun depth hdepth => ?_⟩, fun args id heq => ?_, hf.exists_lower⟩
  · exact (heval sizes).onlySolution hf.valid hs hresult (fun _ _ => rfl) hdepth
  · exact hlower.onlySolution hf.valid hs hresult (fun _ _ => rfl) hdepth
  · rcases (hf.safe_eval args).1 _ heq with hkind | ⟨hkind, -⟩ <;> cases hkind

/--
A kernel with an annotated result that calls another one, which uses the size of its argument.  The
node for the result comes before everything that is computed, and the operators of the called kernel
come before the ones that give its parameter and its shape symbol their values.
-/
def splicedTotal : List FunctionDef :=
  let name (id : String) : Expr := .name id .nowhere
  let vector (size : String) : Option Expr :=
    some (.subscript (name "int64") (name size) .nowhere)
  let sum : Expr := .call (.member (name "np") "sum" .nowhere) [name "y"] [] .nowhere
  let total : Expr := .call (name "total") [name "x"] [] .nowhere
  [⟨"main", [⟨"x", vector "N", .nowhere⟩], .type (name "int64"),
      [.returns (some total) .nowhere], .nowhere⟩,
    ⟨"total", [⟨"y", vector "K", .nowhere⟩], .missing,
      [.returns (some (.binary sum .mul (name "K") .nowhere)) .nowhere], .nowhere⟩]

theorem buildGraph_acyclic_splicedTotal :
    ∃ f, buildGraph splicedTotal "main" .default = .ok f ∧
      f.graph.Needs ⟨2⟩ ⟨10⟩ ∧ f.graph.Needs ⟨9⟩ ⟨3⟩ ∧
      (f.graph.node ⟨9⟩).producer = some ⟨1⟩ ∧ (f.graph.node ⟨3⟩).producer = some ⟨3⟩ ∧
      ∀ id, ¬ TransGen f.graph.Needs id id := by
  have hbuilds : (buildGraph splicedTotal "main" .default).toOption.any (fun f =>
      decide (((f.graph.node ⟨2⟩).producer = some ⟨5⟩ ∧
        ⟨10⟩ ∈ (f.graph.op ⟨5⟩).reads) ∧ ⟨3⟩ ∈ (f.graph.op ⟨1⟩).reads ∧
        (f.graph.node ⟨9⟩).producer = some ⟨1⟩ ∧
        (f.graph.node ⟨3⟩).producer = some ⟨3⟩)) = true := by decide +kernel
  obtain ⟨f, hbuild, hchecks⟩ := exists_of_any_toOption hbuilds
  obtain ⟨⟨hreturned, hresult⟩, hread, hsum, hparam⟩ := of_decide_eq_true hchecks
  exact ⟨f, hbuild, .read hreturned hresult, .read hsum hread, hsum, hparam,
    (buildGraph_acyclic hbuild).1⟩

end TensorKernel
