import TensorKernel.Proofs.Eval.Picks
import TensorKernel.Proofs.Table

/-!
# What is computed element by element

The body of an operator reads an operand through a placeholder if it is a tensor, and itself if it is
a scalar.  `Graph.ReadsFor` says which node that is.  For an index vector of the result both stand for
`Value.element?`: an element of the tensor, or the scalar, which is the same everywhere.

From there on nothing is left of placeholders and scopes: `exists_elementwise` gives the tensor whose
elements are those that the body computes.
-/

namespace TensorKernel

/-- The element of an operand that belongs to an index vector of the result. -/
def Value.element? : Value → List Nat → Option Literal
  | .scalar v, _ => some v
  | .tensor shape data, idx => data[Index.place shape (Index.broadcast shape idx)]?

/-- The node that a body reads for an operand: the operand itself or its placeholder. -/
def Graph.ReadsFor (g : Graph) (pairs : List (NodeId × NodeId)) (id x : NodeId) : Prop :=
  if g.isScalar id then x = id else (id, x) ∈ pairs

namespace Meaning

variable {ctx : EvalContext} {val : Valuation} {pairs : List (NodeId × NodeId)}
  {operands : List (List Nat × Array Literal)} {idx : List Nat}

theorem tensor_eq_ok {id : NodeId} {shape : List Nat} {data : Array Literal} :
    tensor val id = .ok (shape, data) ↔ val id = .ok (.tensor shape data) := by
  constructor
  · intro h
    obtain ⟨value, hvalue, h⟩ := exists_of_bind_ok h
    cases value with
    | scalar v => cases h
    | tensor shape' data' =>
      obtain ⟨rfl, rfl⟩ := Prod.mk.inj (Except.ok.inj h)
      exact hvalue
  · exact fun h => bind_of_ok h rfl

theorem scalar_eq_ok {id : NodeId} {v : Literal} :
    scalar val id = .ok v ↔ val id = .ok (.scalar v) := by
  constructor
  · intro h
    obtain ⟨value, hvalue, h⟩ := exists_of_bind_ok h
    cases value with
    | scalar w =>
      obtain rfl := Except.ok.inj h
      exact hvalue
    | tensor shape data => cases h
  · exact fun h => bind_of_ok h rfl

/-! ## Placeholders -/

/-- The elements that stand for the placeholders are those of the values of the operands. -/
theorem exists_elements (hoperands : pairs.mapM (fun p => tensor val p.1) = .ok operands)
    (helement : ∀ p ∈ pairs, ∀ v, val p.1 = .ok v → (v.element? idx).isSome) :
    ∃ elems, elements operands idx = .ok elems ∧
      List.Forall₂ (fun p a => ∃ v, val p.1 = .ok v ∧ v.element? idx = some a) pairs elems := by
  have hall := forall₂_of_mapM hoperands
  clear hoperands
  induction hall with
  | nil => exact ⟨[], rfl, .nil⟩
  | @cons p operand pairs operands hoperand _ ih =>
    obtain ⟨hhead, hrest⟩ := List.forall_mem_cons.mp helement
    obtain ⟨elems, helems, hall⟩ := ih hrest
    have hvalue := tensor_eq_ok.mp hoperand
    obtain ⟨a, ha⟩ := Option.isSome_iff_exists.mp (hhead _ hvalue)
    exact ⟨a :: elems, List.mapM_cons.trans (bind_of_ok (element_eq_ok.mpr ha) (bind_of_ok helems rfl)),
      .cons ⟨_, hvalue, ha⟩ hall⟩

theorem inside_of_notMem {holes : List NodeId} {elems : List Literal} {id : NodeId}
    (hid : id ∉ holes) : inside val holes elems id = val id := by
  have hnone : (Scope.ofList (holes.zip elems)).get? id = none := by
    rw [Option.eq_none_iff_forall_ne_some]
    intro v hv
    have hmem := Table.mem_of_lookup hv
    exact hid (List.of_mem_zip (List.mem_reverse.mp hmem)).1
  rw [inside, hnone]

/-- A placeholder stands for its element. -/
theorem exists_inside_of_mem {R : NodeId × NodeId → Literal → Prop} {elems : List Literal}
    (hnodup : (pairs.map Prod.snd).Nodup) (hall : List.Forall₂ R pairs elems) {p : NodeId × NodeId}
    (hp : p ∈ pairs) :
    ∃ a, R p a ∧ inside val (pairs.map Prod.snd) elems p.2 = .ok (.scalar a) := by
  have hlength : pairs.length = elems.length := hall.length_eq
  obtain ⟨i, hi, rfl⟩ := List.getElem_of_mem hp
  have hlt : i < ((pairs.map Prod.snd).zip elems).length := by simpa [← hlength] using hi
  have hzip : (pairs[i].2, elems[i]) ∈ (pairs.map Prod.snd).zip elems := by
    simpa using List.getElem_mem hlt
  have hkeys : ((pairs.map Prod.snd).zip elems).map Prod.fst = pairs.map Prod.snd :=
    List.map_fst_zip (by rw [List.length_map, hlength])
  refine ⟨elems[i], hall.get hi (hlength ▸ hi), ?_⟩
  rw [inside, Scope.get?_ofList_of_mem (hkeys.symm ▸ hnodup) hzip]

/-- What a body reads for an operand is the element of the operand. -/
theorem scalar_inside {elems : List Literal} (hnodup : (pairs.map Prod.snd).Nodup)
    (hall : List.Forall₂ (fun p a => ∃ v, val p.1 = .ok v ∧ v.element? idx = some a) pairs elems)
    {id x : NodeId} (hread : ctx.graph.ReadsFor pairs id x) (hid : id ∉ pairs.map Prod.snd) {v : Value}
    (hv : val id = .ok v) (htypes : Types ctx val id v) {a : Literal} (ha : v.element? idx = some a) :
    scalar (inside val (pairs.map Prod.snd) elems) x = .ok a := by
  unfold Graph.ReadsFor at hread
  cases v with
  | scalar w =>
    rw [if_pos htypes.1] at hread
    subst hread
    rw [scalar_eq_ok, inside_of_notMem hid, hv, ← Option.some.inj ha]
  | tensor shape data =>
    rw [if_neg (by simp [htypes.1])] at hread
    obtain ⟨b, ⟨w, hw, hb⟩, hinside⟩ := exists_inside_of_mem hnodup hall hread
    obtain rfl := Except.ok.inj (hv.symm.trans hw)
    rw [scalar_eq_ok, hinside, Option.some.inj (hb.symm.trans ha)]

/-! ## Elements -/

/-- Results that are listed for every index vector of a shape stand at the places of the vectors. -/
theorem exists_data {ε : Type} {f : List Nat → Except ε Literal} {shape : List Nat}
    (h : ∀ idx, Index.InRange shape idx → ∃ v, f idx = .ok v) :
    ∃ data, (Index.rowMajor shape).mapM f = .ok data ∧ data.length = Index.size shape ∧
      ∀ idx, Index.InRange shape idx → ∃ v, f idx = .ok v ∧ data[Index.linear shape idx]? = some v := by
  rw [Index.rowMajor_eq_enumerate]
  obtain ⟨data, hdata⟩ := exists_mapM_ok fun idx hidx => h idx (Index.inRange_of_mem_enumerate hidx)
  refine ⟨data, hdata, (length_of_mapM_ok hdata).trans (Index.length_enumerate shape),
    fun idx hidx => ?_⟩
  obtain ⟨v, hplace, hv⟩ := hidx.exists_getElem? (forall₂_of_mapM hdata)
  exact ⟨v, hv, hplace⟩

/-- The tensor of the elements that a body computes. -/
theorem exists_elementwise {inputs : List NodeId} {inner dst : NodeId} {shape : List Nat}
    (hinputs : ∀ id ∈ inputs, ∃ v, val id = .ok v) (hshape : dims ctx val (ctx.graph.shape dst) = .ok shape)
    (hoperands : pairs.mapM (fun p => tensor val p.1) = .ok operands) {f : List Nat → Option Literal}
    (hbody : ∀ idx, Index.InRange shape idx → ∃ elems v, elements operands idx = .ok elems ∧
      body ctx val (pairs.map Prod.snd) inner dst elems = .ok v ∧ f idx = some v) :
    ∃ data, elementwise ctx val inputs ⟨pairs, [(inner, dst)]⟩ = .ok (.tensor shape data) ∧
      data.size = Index.size shape ∧
      ∀ idx, Index.InRange shape idx → data[Index.linear shape idx]? = f idx := by
  obtain ⟨values, hvalues⟩ := exists_mapM_ok hinputs
  have hok : ∀ idx, Index.InRange shape idx → ∃ v, (do
      let elems ← elements operands idx
      body ctx val (pairs.map Prod.snd) inner dst elems) = .ok v := by
    intro idx hidx
    obtain ⟨elems, v, helems, hv, -⟩ := hbody idx hidx
    exact ⟨v, bind_of_ok helems hv⟩
  obtain ⟨data, hdata, hlength, hplaces⟩ := exists_data hok
  refine ⟨data.toArray, bind_of_ok hvalues (bind_of_ok hshape (bind_of_ok hoperands
    (bind_of_ok hdata rfl))), by simpa using hlength, fun idx hidx => ?_⟩
  obtain ⟨elems, v, helems, hv, hf⟩ := hbody idx hidx
  obtain ⟨w, hw, hplace⟩ := hplaces idx hidx
  obtain rfl := Except.ok.inj (hw.symm.trans (bind_of_ok helems hv))
  rw [hf, ← hplace]
  simp

end Meaning

end TensorKernel
