import TensorKernel.Proofs.Build.WellFormed
import TensorKernel.Proofs.Eval.Given
import TensorKernel.Proofs.Graph.Acyclic

/-!
# The values that nodes evaluate to

`FunctionGraph.value?` asks for one node of a function.  In a function that was built the answer is
what the node means under the bindings of the arguments, and a node that an operator computes means
what the operator makes of the meaning of its operands.
-/

namespace TensorKernel

namespace FunctionGraph

/-- The value that a node evaluates to. -/
def value? (f : FunctionGraph) (args : List Value) (id : NodeId) : Option Value :=
  match { f with outputs := [id] }.eval args with
  | .ok [v] => some v
  | _ => none

variable {f : FunctionGraph} {sz : ElemSize} {args : List Value} {given : GivenValues}
  {sizes : Table String Nat} {id : NodeId} {v : Value}

/-- An available node is evaluated by binding the arguments and asking for its meaning. -/
theorem WellFormed.eval_single (hf : f.WellFormed sz) (hid : f.graph.Available f.entry id)
    (args : List Value) : ({ f with outputs := [id] } : FunctionGraph).eval args = (do
      let (given, sizes) ← f.bindAll args
      let v ← meaning ⟨f.graph, sizes⟩ given id
      .ok [v]) := by
  have hsingle : ({ f with outputs := [id] } : FunctionGraph).Evaluable sz f.entry :=
    ⟨hf.valid.coherent, hf.valid.entry, fun _ => Iff.rfl, fun _ => Iff.rfl, hf.interface⟩
  rw [hsingle.eval_eq (fun _ h => List.mem_singleton.mp h ▸ hid) args]
  show (f.bindAll args >>= fun p => [id].mapM (meaning ⟨f.graph, p.2⟩ p.1)) = _
  simp only [List.mapM_cons, List.mapM_nil]
  rfl

/-- What an available node evaluates to is what it means once the arguments are bound. -/
theorem WellFormed.value?_eq_some (hf : f.WellFormed sz) (hid : f.graph.Available f.entry id) :
    f.value? args id = some v ↔ ∃ given sizes, f.bindAll args = .ok (given, sizes) ∧
      meaning ⟨f.graph, sizes⟩ given id = .ok v := by
  rw [value?, hf.eval_single hid]
  cases hbind : f.bindAll args with
  | error fault =>
    refine ⟨fun h => ?_, fun ⟨_, _, h, _⟩ => ?_⟩
    · cases h
    · cases h
  | ok bound =>
    obtain ⟨given, sizes⟩ := bound
    cases hvalue : meaning ⟨f.graph, sizes⟩ given id with
    | error fault =>
      refine ⟨fun h => ?_, fun ⟨_, _, h, hv⟩ => ?_⟩
      · simp only [Except.bind, bind, hvalue] at h
        cases h
      · obtain ⟨rfl, rfl⟩ := Prod.mk.inj (Except.ok.inj h)
        rw [hvalue] at hv
        cases hv
    | ok w =>
      simp only [Except.bind, bind, hvalue]
      refine ⟨fun h => ⟨given, sizes, rfl, ?_⟩, fun ⟨_, _, h, hv⟩ => ?_⟩
      · rw [hvalue, Option.some.inj h]
      · obtain ⟨rfl, rfl⟩ := Prod.mk.inj (Except.ok.inj h)
        rw [Except.ok.inj (hvalue.symm.trans hv)]

section Bound

variable (hf : f.WellFormed sz) (hbind : f.bindAll args = .ok (given, sizes))
include hf hbind

/-- Under the bindings of arguments a node evaluates to what it means. -/
theorem WellFormed.value?_iff_of_bind (hid : f.graph.Available f.entry id) :
    f.value? args id = some v ↔ meaning ⟨f.graph, sizes⟩ given id = .ok v := by
  rw [hf.value?_eq_some hid]
  constructor
  · rintro ⟨given', sizes', hbind', hv⟩
    obtain ⟨rfl, rfl⟩ := Prod.mk.inj (Except.ok.inj (hbind.symm.trans hbind'))
    exact hv
  · exact fun hv => ⟨given, sizes, hbind, hv⟩

/-- Under the bindings of arguments a node has a value of its type. -/
theorem WellFormed.types_of_bind (hid : f.graph.Available f.entry id)
    (hv : meaning ⟨f.graph, sizes⟩ given id = .ok v) :
    Meaning.Types ⟨f.graph, sizes⟩ (meaning ⟨f.graph, sizes⟩ given) id v :=
  have hadmits := admits_of_bindAll hf.interface hbind
  types_meaning hf.valid.coherent hf.valid.entry hadmits.givenBy
    (fun _ _ hget => Admits.types hf.evaluable hadmits _ hget) hid hv

/-- Under the bindings of arguments a computed node means what its operator makes of its operands. -/
theorem WellFormed.meaning_of_bind (hs : f.graph.Settled f.entry) {o : OpId}
    (hid : f.graph.Available f.entry id) (hproducer : (f.graph.node id).producer = some o) :
    meaning ⟨f.graph, sizes⟩ given id =
      Meaning.operator ⟨f.graph, sizes⟩ (meaning ⟨f.graph, sizes⟩ given) (f.graph.op o) id := by
  have hgivenBy := (admits_of_bindAll hf.interface hbind).givenBy
  have hnotGiven : ¬ f.entry.node id := fun hgiven => by
    rw [hf.valid.entry.producer hgiven] at hproducer
    cases hproducer
  exact @meaning_of_producer ⟨f.graph, sizes⟩ _ _ hf.valid.coherent hf.valid.entry hgivenBy _ hid
    _ (hgivenBy.get?_eq_none hnotGiven)
    (hs.computed (by rw [hproducer]; exact Option.some_ne_none o)) hproducer

/-- Under the bindings of arguments a constant has its value. -/
theorem WellFormed.meaning_constant_of_bind {c : Literal}
    (hconstant : (f.graph.node id).constant? = some c) :
    meaning ⟨f.graph, sizes⟩ given id = .ok (.scalar (c.convert (f.graph.elemSize id))) := by
  have hgivenBy := (admits_of_bindAll hf.interface hbind).givenBy
  refine meaning_of_constant (hgivenBy.get?_eq_none fun hgiven => ?_) hconstant
  rw [hf.valid.entry.constant hgiven] at hconstant
  cases hconstant

end Bound

end FunctionGraph

end TensorKernel
