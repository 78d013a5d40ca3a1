import TensorKernel.Proofs.Build.WellFormed
import TensorKernel.Proofs.Graph.Measured

/-!
# Closed bodies while a function is built

`FunctionBuilder.Encloses` says of a step that it keeps the bodies of the graph closed, the sizes of
its slices those that their indices stand for, and the shapes of operators on elements those that
their operands broadcast to (`Graph.Orderly`).  What calls are given must be so as well, so a cached
graph is well-formed and, where that is asked for, orderly (`FunctionGraph.Formed`).
-/

namespace TensorKernel

/-- A well-formed graph, which is orderly where that is asked for. -/
structure FunctionGraph.Formed (sz : ElemSize) (closed : Prop) (f : FunctionGraph) : Prop where
  wellFormed : f.WellFormed sz
  orderly : closed → f.graph.Orderly f.entry sz f.symbols

theorem FunctionGraph.Formed.enclosed {sz : ElemSize} {closed : Prop} {f : FunctionGraph}
    (h : f.Formed sz closed) (hclosed : closed) : f.graph.Enclosed f.entry :=
  (h.orderly hclosed).enclosed

/-- Every cached graph is well-formed, and orderly where that is asked for. -/
def GraphCache.Formed (sz : ElemSize) (closed : Prop) (cache : GraphCache) : Prop :=
  ∀ key f, cache.get? key = some f → f.Formed sz closed

namespace GraphCache

variable {sz : ElemSize} {closed : Prop} {cache : GraphCache}

theorem Sound.empty (sz : ElemSize) : GraphCache.Sound sz .empty := by
  intro key f hf
  cases hf

theorem Sound.insert (h : cache.Sound sz) {key : String} {g : FunctionGraph}
    (hg : g.WellFormed sz) : GraphCache.Sound sz (cache.insert key g) :=
  Table.forall_get?_insert h key hg

theorem Formed.empty (sz : ElemSize) (closed : Prop) : GraphCache.Formed sz closed .empty := by
  intro key f hf
  cases hf

theorem Formed.insert (h : cache.Formed sz closed) {key : String} {g : FunctionGraph}
    (hg : g.Formed sz closed) : GraphCache.Formed sz closed (cache.insert key g) :=
  Table.forall_get?_insert h key hg

theorem Sound.formed (h : cache.Sound sz) : cache.Formed sz False :=
  fun key f hf => ⟨h key f hf, False.elim⟩

end GraphCache

namespace FunctionBuilder

/-- The graph of the second builder is orderly if that of the first one is. -/
def Encloses (sz : ElemSize) (b b' : FunctionBuilder) : Prop :=
  b.graph.Orderly b.entry sz b.symbols → b'.graph.Orderly b'.entry sz b'.symbols

theorem Encloses.trans {sz : ElemSize} {b b' b'' : FunctionBuilder} (h : b.Encloses sz b')
    (h' : b'.Encloses sz b'') : b.Encloses sz b'' :=
  fun hb => h' (h hb)

namespace Grown

variable {sz : ElemSize} {b b' : FunctionBuilder} (h : b.Grown b')
include h

theorem symbols_eq : b'.symbols = b.symbols := by
  rw [h.eq]

theorem carries : b.graph.Carries b'.graph .identity := h.ext.carries

theorem spans {d : Dim} {id : NodeId} (hd : b.graph.Spans sz b.symbols d id) :
    b'.graph.Spans sz b'.symbols d id := by
  rw [h.symbols_eq]
  exact hd.extend h.carries

theorem measures {axis d : Dim} {i : SliceIndex} (hd : b.graph.Measures sz b.symbols axis i d) :
    b'.graph.Measures sz b'.symbols axis i d := by
  rw [h.symbols_eq]
  exact hd.extend h.carries

end Grown

/-- Once the declared result is computed, it counts as little as a placeholder as it did before. -/
theorem orderly_finished {sz : ElemSize} {b : FunctionBuilder} (hv : b.graph.Valid b.entry)
    (hresult : ∀ id, b.entry.result id → b.Has id) (h : b.graph.Orderly b.entry sz b.symbols) :
    b.graph.Orderly (.ofFunction b.inputs b.symbols fun _ => False) sz b.symbols := by
  refine ⟨h.enclosed.congr fun x => ⟨fun hx => ?_, fun hx => ?_⟩, h.measured,
    h.combined⟩
  · refine ⟨hx.lt, hx.notGiven, fun hpending => ?_, hx.producer, hx.constant⟩
    have hpending' : b.graph.Pending b.entry x := ⟨hpending, hx.producer⟩
    exact hpending'.not_available hv.coherent hv.entry (hresult x hpending)
  · exact ⟨hx.lt, hx.notGiven, id, hx.producer, hx.constant⟩

end FunctionBuilder

end TensorKernel
