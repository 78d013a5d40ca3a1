import TensorKernel.Proofs.Build.View
import TensorKernel.Proofs.Graph.Bodies
import TensorKernel.Proofs.Graph.Settled

/-!
# What operators with bodies mean in builders

An operator with a body is added in two steps, of which the first computes the result of the body.
Here these nodes are given their meaning, and a node that has a value gives it in every evaluation:
the function may have grown since, and other nodes may have been evaluated before.
-/

namespace TensorKernel

variable {sz : ElemSize} {b b' : FunctionBuilder} {inputs : List Value} {given : GivenValues}
  {sizes : Table String Nat}

/-! ## Bound builders -/

namespace FunctionBuilder

/-- What a builder is given for some inputs. -/
structure Bound (sz : ElemSize) (b : FunctionBuilder) (inputs : List Value) (given : GivenValues)
    (sizes : Table String Nat) : Prop where
  wellFormed : b.WellFormed sz
  bindAll : (b.view []).bindAll inputs = .ok (given, sizes)

namespace Bound

/-- Nodes that can be evaluated have values. -/
theorem of_eval (hb : b.WellFormed sz) {ids : List NodeId} {vs : List Value}
    (h : (b.view ids).eval inputs = .ok vs) : ∃ given sizes, Bound sz b inputs given sizes ∧
      (∀ id ∈ ids, b.Has id) ∧ ids.mapM (meaning ⟨b.graph, sizes⟩ given) = .ok vs := by
  have hids := hb.has_of_eval h
  rw [hb.eval_view hids] at h
  obtain ⟨⟨given, sizes⟩, hbind, h⟩ := exists_of_bind_ok h
  exact ⟨given, sizes, ⟨hb, hbind⟩, hids, h⟩

variable (h : Bound sz b inputs given sizes)
include h

theorem admits : (b.view []).Admits inputs given sizes :=
  FunctionGraph.admits_of_bindAll (h.wellFormed.evaluable []).interface h.bindAll

theorem givenBy : b.entry.GivenBy given :=
  (h.wellFormed.evaluable []).givenBy h.admits

/-- Values have the types of their nodes. -/
theorem types {id : NodeId} (hid : b.Has id) {v : Value}
    (hv : meaning ⟨b.graph, sizes⟩ given id = .ok v) :
    Meaning.Types ⟨b.graph, sizes⟩ (meaning ⟨b.graph, sizes⟩ given) id v :=
  types_meaning h.wellFormed.valid.coherent h.wellFormed.valid.entry h.givenBy
    (fun _ _ hget => h.admits.types (h.wellFormed.evaluable []) _ hget) hid hv

theorem grow (hgrown : b.Grown b') : Bound sz b' inputs given sizes :=
  ⟨hgrown.wellFormed h.wellFormed, (h.wellFormed.bindAll_view hgrown [] [] inputs).trans h.bindAll⟩

/-- What has a value has it in a larger graph as well. -/
theorem meaning_grown (hgrown : b.Grown b') {id : NodeId} (hid : b.Has id) :
    meaning ⟨b'.graph, sizes⟩ given id = meaning ⟨b.graph, sizes⟩ given id :=
  h.wellFormed.meaning_grown hgrown h.givenBy sizes hid

/-- A node gives its value in every larger function, whatever was evaluated before it. -/
theorem eval_append (hgrown : b.Grown b') {id : NodeId} (hid : b.Has id) {v : Value}
    (hv : meaning ⟨b.graph, sizes⟩ given id = .ok v) {before : List NodeId} {vs : List Value}
    (hbefore : (b'.view before).eval inputs = .ok vs) :
    (b'.view (before ++ [id])).eval inputs = .ok (vs ++ [v]) := by
  have hb' := hgrown.wellFormed h.wellFormed
  have hhas : ∀ other ∈ before ++ [id], b'.Has other := by
    intro other hother
    rcases List.mem_append.mp hother with hother | hother
    · exact hb'.has_of_eval hbefore other hother
    · rw [List.mem_singleton.mp hother]
      exact hgrown.has hid
  rw [hb'.eval_view (hb'.has_of_eval hbefore), (h.grow hgrown).bindAll] at hbefore
  rw [hb'.eval_view hhas, (h.grow hgrown).bindAll]
  have hlast : [id].mapM (meaning ⟨b'.graph, sizes⟩ given) = .ok [v] := by
    rw [List.mapM_cons, h.meaning_grown hgrown hid, hv]
    rfl
  show (before ++ [id]).mapM (meaning ⟨b'.graph, sizes⟩ given) = _
  rw [List.mapM_append]
  exact bind_of_ok hbefore (bind_of_ok hlast rfl)

end Bound

/-- A node has a value, in this function and in every larger one, whatever is evaluated before it. -/
def Computes (b : FunctionBuilder) (inputs : List Value) (dst : NodeId) (v : Value) : Prop :=
  (b.view [dst]).eval inputs = .ok [v] ∧
    ∀ b', b.Grown b' → ∀ before vs, (b'.view before).eval inputs = .ok vs →
      (b'.view (before ++ [dst])).eval inputs = .ok (vs ++ [v])

theorem Bound.computes (h : Bound sz b inputs given sizes) {id : NodeId} (hid : b.Has id) {v : Value}
    (hv : meaning ⟨b.graph, sizes⟩ given id = .ok v) : b.Computes inputs id v := by
  refine ⟨?_, fun b' hb' before vs hbefore => h.eval_append hb' hid hv hbefore⟩
  have hnothing : (b.view []).eval inputs = .ok [] := by
    rw [h.wellFormed.eval_view (by simp), h.bindAll]
    rfl
  exact h.eval_append (.refl h.wellFormed.valid) hid hv hnothing

end FunctionBuilder

/-! ## Closed bodies -/

namespace Graph.Opens

variable {pairs : List (NodeId × NodeId)} {g₁ : Graph}
  (hopen : b.graph.Opens b.entry pairs g₁) {size : ElemSize} {op₁ op₂ : OpKind}
  {ins₁ ins₂ : List NodeId} {kind : NodeKind}
include hopen

/-- The result of a body is what its operator makes of the elements. -/
theorem innerValue_closeBody (val : Valuation) (holes : List NodeId) (elems : List Literal) :
    Meaning.innerValue ⟨g₁.closeBody size op₁ ins₁ none kind op₂ ins₂, sizes⟩ val holes
      ⟨g₁.nodes.size⟩ elems =
        Meaning.scalarOp (Meaning.inside val holes elems) ⟨op₁, ins₁, [⟨g₁.nodes.size⟩]⟩ size := by
  have hext := compute_extends (g₁.compute none (.scalar size) op₁ ins₁).2 none kind op₂ ins₂
  have hlt : (NodeId.mk g₁.nodes.size).index <
      (g₁.compute none (.scalar size) op₁ ins₁).2.nodes.size := by simp
  have hconstant : ((g₁.closeBody size op₁ ins₁ none kind op₂ ins₂).node
      ⟨g₁.nodes.size⟩).constant? = none := by
    rw [closeBody, hext.constant_eq hlt, constant?_eq_none_of_kind fun v sz => by simp]
  have hsize : (g₁.closeBody size op₁ ins₁ none kind op₂ ins₂).elemSize ⟨g₁.nodes.size⟩ = size := by
    rw [closeBody, hext.elemSize_eq hlt, elemSize_of_type (type_compute_scalar ..)]
    rfl
  rw [Meaning.innerValue, hconstant, hopen.closeBody_producer_first]
  dsimp only
  rw [hopen.closeBody_first, hsize]

end Graph.Opens

namespace FunctionBuilder.Bound

variable (h : Bound sz b inputs given sizes)
include h

/-- A node that is added with a body is what the operator with the body makes of its operands. -/
theorem meaning_closeBody {pairs : List (NodeId × NodeId)} {g₁ : Graph}
    (hopen : b.graph.Opens b.entry pairs g₁) {size : ElemSize} {op₁ op₂ : OpKind}
    {ins₁ ins₂ : List NodeId} {kind : NodeKind} {ty : KernelType} (hkind : ∀ v sz, kind ≠ .constant v sz)
    (hproduces : b.graph.Produces b.entry
      (⟨g₁.nodes.size + 1⟩, g₁.closeBody size op₁ ins₁ none kind op₂ ins₂) ty) :
    meaning ⟨g₁.closeBody size op₁ ins₁ none kind op₂ ins₂, sizes⟩ given ⟨g₁.nodes.size + 1⟩ =
      Meaning.operator ⟨g₁.closeBody size op₁ ins₁ none kind op₂ ins₂, sizes⟩
        (meaning ⟨g₁.closeBody size op₁ ins₁ none kind op₂ ins₂, sizes⟩ given)
        ⟨op₂, ins₂, [⟨g₁.nodes.size + 1⟩]⟩ ⟨g₁.nodes.size + 1⟩ := by
  have hnew : b.graph.nodes.size ≤ (NodeId.mk (g₁.nodes.size + 1)).index :=
    Nat.le_succ_of_le hopen.ext.nodes_le
  have hnode : (NodeId.mk (g₁.nodes.size + 1)) =
      ⟨(g₁.compute none (.scalar size) op₁ ins₁).2.nodes.size⟩ := by
    rw [Graph.compute_nodes_size]
  have hconstant : ((g₁.closeBody size op₁ ins₁ none kind op₂ ins₂).node
      ⟨g₁.nodes.size + 1⟩).constant? = none := by
    rw [hnode]
    exact Graph.constant?_eq_none_of_kind fun v sz => by
      rw [Graph.closeBody, Graph.compute_kind]
      exact hkind v sz
  have hoperator := @meaning_of_producer ⟨g₁.closeBody size op₁ ins₁ none kind op₂ ins₂, sizes⟩ _ _
    hproduces.valid.coherent hproduces.valid.entry h.givenBy _ hproduces.available _
    (h.givenBy.get?_eq_none (h.wellFormed.valid.entry.not_given hnew).1) hconstant
    (hopen.closeBody_producer_second size op₁ ins₁ none kind op₂ ins₂)
  rw [hoperator]
  dsimp only
  rw [hopen.closeBody_second]

end FunctionBuilder.Bound

end TensorKernel
