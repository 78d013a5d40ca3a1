import TensorKernel.Proofs.Binary32
import TensorKernel.Proofs.Broadcast
import TensorKernel.Proofs.Build.Closing
import TensorKernel.Proofs.Build.Function
import TensorKernel.Proofs.Build.Operand
import TensorKernel.Proofs.Eval.Elementwise

/-!
# Operators on tensors are pointwise

An operator that is applied to a tensor gives a tensor whose shape is the one that the shapes of the
operands broadcast to.  Each element is what the operator makes of the elements of the operands.
-/

namespace TensorKernel

/-! ## Sizes -/

namespace Meaning

variable {ctx : EvalContext} {val : Valuation} {id : NodeId} {v : Value}

/-- The size that evaluation gives a dimension, and zero for one without a size. -/
def size (ctx : EvalContext) (val : Valuation) (d : Dim) : Nat :=
  (dim ctx val d).toOption.getD 0

theorem size_eq {d : Dim} {n : Nat} (h : dim ctx val d = .ok n) : size ctx val d = n := by
  rw [size, h]
  rfl

theorem eq_map_size {shape : Shape} {ns : List Nat} (h : dims ctx val shape = .ok ns) :
    ns = shape.map (size ctx val) := by
  have hall := forall₂_of_mapM h
  induction hall with
  | nil => rfl
  | cons hd _ ih => rw [List.map_cons, size_eq hd, ← ih (mapM_of_forall₂ ‹_›)]

theorem dims_eq_map_size {shape : Shape} (h : ∀ d ∈ shape, ∃ n, dim ctx val d = .ok n) :
    dims ctx val shape = .ok (shape.map (size ctx val)) := by
  obtain ⟨ns, hns⟩ := exists_mapM_ok h
  exact eq_map_size hns ▸ hns

/-- The sizes of a value are those of the dimensions of its node. -/
theorem Types.dims_eq (h : Types ctx val id v) : dims ctx val (ctx.graph.shape id) = .ok v.shape := by
  cases v with
  | scalar w =>
    rw [Graph.shape_of_isScalar h.1]
    rfl
  | tensor shape data => exact h.2.1

/--
An operand has an element for every index vector of a shape that it fits into.  Elements are counted
in a word, so this needs an operand with no more elements than a word counts.
-/
theorem Types.isSome_element? (h : Types ctx val id v) {space : Shape}
    (hfits : (ctx.graph.shape id).Fits space) {ns : List Nat} (hns : dims ctx val space = .ok ns)
    (hcount : Index.size v.shape < Word.count) {idx : List Nat} (hidx : Index.InRange ns idx) :
    (v.element? idx).isSome := by
  cases v with
  | scalar w => rfl
  | tensor shape data =>
    obtain ⟨hle, halong⟩ := fitsAlong_of_fits hfits h.dims_eq hns
    have hplace := (Index.inRange_broadcast hle halong hidx).place_lt hcount
    have hsize : Index.size shape ≤ data.size := by
      have hwrap : Word.wrap data.size = Index.size shape :=
        h.2.2.1.trans (Word.wrap_of_lt hcount)
      exact hwrap ▸ Nat.mod_le _ _
    exact Option.isSome_iff_exists.mpr ⟨_, Array.getElem?_eq_getElem (hplace.trans_le hsize)⟩

end Meaning

/-- Where shapes broadcast, so do the sizes that evaluation gives them. -/
theorem Shape.isBroadcast_sizes {ctx : EvalContext} {val : Valuation} {l r s : Shape}
    (h : broadcast? l r = some s) {ls rs : List Nat} (hl : Meaning.dims ctx val l = .ok ls)
    (hr : Meaning.dims ctx val r = .ok rs) : ∃ ss, Meaning.dims ctx val s = .ok ss ∧
      IsBroadcast (ls.map Nat.cast) (rs.map Nat.cast) (ss.map Nat.cast) := by
  obtain ⟨-, -, hmem⟩ := broadcast?_eq_some h
  refine ⟨s.map (Meaning.size ctx val), Meaning.dims_eq_map_size fun d hd => ?_, ?_⟩
  · rcases hmem d hd with hd | hd
    · exact (exists_ok_of_mem hl d hd).imp fun _ h => h.2
    · exact (exists_ok_of_mem hr d hd).imp fun _ h => h.2
  · have hone : ((Meaning.size ctx val (.const 1) : Nat) : Int) = 1 := rfl
    rw [Meaning.eq_map_size hl, Meaning.eq_map_size hr]
    simp only [List.map_map]
    exact isBroadcast_map h (f := fun d => ((Meaning.size ctx val d : Nat) : Int)) hone

/-! ## Placeholders -/

namespace Graph

theorem ReadsFor.mono {g : Graph} {pairs pairs' : List (NodeId × NodeId)} {id x : NodeId}
    (h : g.ReadsFor pairs id x) (hsub : pairs ⊆ pairs') : g.ReadsFor pairs' id x := by
  unfold ReadsFor at *
  split
  · next hscalar => rwa [if_pos hscalar] at h
  · next htensor =>
    rw [if_neg htensor] at h
    exact hsub h

theorem ReadsFor.grow {g g' : Graph} {pairs : List (NodeId × NodeId)} {id x : NodeId}
    (h : g.ReadsFor pairs id x) (hscalar : g'.isScalar id = g.isScalar id) :
    g'.ReadsFor pairs id x := by
  rwa [ReadsFor, hscalar]

theorem readsFor_bindOperand (g : Graph) (pairs : List (NodeId × NodeId)) (id : NodeId) :
    g.ReadsFor (g.bindOperand pairs id).2.1 id (g.bindOperand pairs id).1 := by
  unfold ReadsFor bindOperand
  split
  · rfl
  · cases hfound : Body.placeholder? ⟨pairs, []⟩ id with
    | some inner =>
      obtain ⟨p, hp, rfl⟩ := Option.map_eq_some_iff.mp hfound
      have hfst : p.1 = id := by simpa using List.find?_some hp
      rw [← hfst]
      exact List.mem_of_find?_eq_some hp
    | none => simp

end Graph

/-! ## Applying operators -/

namespace BuildM

variable {b b' : FunctionBuilder} {cache cache' : GraphCache} {span : Span} {dst : NodeId}

/-- A result of a step has the property that the step gives its results. -/
theorem Meets.of_run {α : Type} {m : BuildM α} {Q : α → FunctionBuilder → Prop} {a : α}
    (hm : Meets (fun _ => True) False m b Q) (h : run m b cache = (.ok (a, b'), cache')) : Q a b' := by
  have houtcome := (hm cache trivial).2
  rw [h] at houtcome
  exact houtcome

/-- What a binary operator adds when it is applied: its result and the operator with its body. -/
structure AddsBinary (b : FunctionBuilder) (op : BinOp) (lhs rhs : NodeId) (shape : Option Shape)
    (dst : NodeId) (b' : FunctionBuilder) : Prop where
  typed : op.Typed (b.graph.elemSize lhs) (b.graph.elemSize rhs)
    (op.resultSize (b.graph.elemSize lhs) (b.graph.elemSize rhs))
  scalars : shape = none → b.graph.isScalar lhs = true ∧ b.graph.isScalar rhs = true
  tensors : ∀ s, shape = some s → (b.graph.isScalar lhs = false ∨ b.graph.isScalar rhs = false) ∧
    Shape.broadcast? (b.graph.shape lhs) (b.graph.shape rhs) = some s
  added : b.graph.applyBinary op lhs rhs
    (op.resultSize (b.graph.elemSize lhs) (b.graph.elemSize rhs)) shape = (dst, b'.graph)
  rest : b' = { b with graph := b'.graph }

theorem meets_applyBinary {caches : GraphCache → Prop} {strict : Prop} (op : BinOp) (lhs rhs : NodeId)
    (span : Span) : Meets caches strict (applyBinary op lhs rhs span) b fun dst b' =>
      ∃ shape, AddsBinary b op lhs rhs shape dst b' := by
  refine meets_get_bind (meets_ite (fun _ => meets_fail (by rintro ⟨⟩))
    fun hbits => (meets_resultShape op _ _ span).bind fun shape b₁ hshape => ?_)
  obtain ⟨rfl, hscalars, htensors⟩ := hshape
  exact meets_onGraph ⟨shape, .of_accepted hbits, hscalars, htensors, rfl, rfl⟩

/-- What a unary operator adds when it is applied. -/
structure AddsUnary (b : FunctionBuilder) (op : UnOp) (arg dst : NodeId) (b' : FunctionBuilder) :
    Prop where
  typed : op.Typed (b.graph.elemSize arg) (if op = .not then .bool else b.graph.elemSize arg)
  added : b.graph.applyUnary op arg (if op = .not then .bool else b.graph.elemSize arg) =
    (dst, b'.graph)
  rest : b' = { b with graph := b'.graph }

theorem meets_applyUnary {caches : GraphCache → Prop} {strict : Prop} (op : UnOp) (arg : NodeId)
    (span : Span) : Meets caches strict (applyUnary op arg span) b fun dst b' =>
      AddsUnary b op arg dst b' := by
  refine meets_get_bind (meets_ite (fun _ => meets_fail (by rintro ⟨⟩))
    fun hneg => meets_ite (fun _ => meets_fail (by rintro ⟨⟩)) fun hnot => ?_)
  refine meets_onGraph ⟨⟨rfl, fun hop => ?_, fun hop => ?_⟩, rfl, rfl⟩
  · simpa [hop] using hneg
  · simpa [hop] using hnot

end BuildM

/-! ## Elements of results -/

/-- What a binary operator makes of the elements of two operands. -/
def Value.binary? (x : Value) (op : BinOp) (sz : ElemSize) (y : Value) (idx : List Nat) :
    Option Literal := do
  let a ← x.element? idx
  let c ← y.element? idx
  (a.binary op c sz).toOption

theorem Value.binary?_eq_some {op : BinOp} {sz : ElemSize} {x y : Value} {idx : List Nat}
    {w : Literal} (h : x.binary? op sz y idx = some w) : ∃ a c, x.element? idx = some a ∧
      y.element? idx = some c ∧ a.binary op c sz = .ok w := by
  obtain ⟨a, ha, h⟩ := Option.bind_eq_some_iff.mp h
  obtain ⟨c, hc, h⟩ := Option.bind_eq_some_iff.mp h
  exact ⟨a, c, ha, hc, ok_of_toOption h⟩

/-- What a unary operator makes of the elements of an operand. -/
def Value.unary? (x : Value) (op : UnOp) (sz : ElemSize) (idx : List Nat) : Option Literal := do
  let a ← x.element? idx
  (a.unary op sz).toOption

theorem Value.unary?_eq_some {op : UnOp} {sz : ElemSize} {x : Value} {idx : List Nat} {w : Literal}
    (h : x.unary? op sz idx = some w) : ∃ a, x.element? idx = some a ∧ a.unary op sz = .ok w := by
  obtain ⟨a, ha, h⟩ := Option.bind_eq_some_iff.mp h
  exact ⟨a, ha, ok_of_toOption h⟩

namespace Literal

/-- The result of a binary operator is in the representation of its type. -/
theorem convert_of_binary {op : BinOp} {l r w : Literal} {sz : ElemSize}
    (h : l.binary op r sz = .ok w) (hsz : (op.isComparison || op.isBoolean) = true → sz = .bool) :
    w.convert sz = w := by
  obtain ⟨u, rfl⟩ := exists_convert_of_binary h hsz
  exact convert_convert u sz

theorem convert_of_unary {op : UnOp} {v w : Literal} {sz : ElemSize} (h : v.unary op sz = .ok w) :
    w.convert sz = w := by
  obtain ⟨u, rfl⟩ := exists_convert_of_unary h
  exact convert_convert u sz

end Literal

namespace FunctionBuilder

variable {sz : ElemSize} {b : FunctionBuilder} {inputs : List Value} {given : GivenValues}
  {sizes : Table String Nat}

/-- A node whose value is a tensor with the given elements, if there is one for every index vector. -/
def ComputesTensor (b : FunctionBuilder) (inputs : List Value) (dst : NodeId) (shape : List Nat)
    (f : List Nat → Option Literal) : Prop :=
  (∀ idx, Index.InRange shape idx → (f idx).isSome) → ∃ data : Array Literal,
    data.size = Index.size shape ∧
    (∀ idx, Index.InRange shape idx → data[Index.linear shape idx]? = f idx) ∧
    b.Computes inputs dst (.tensor shape data)

theorem ComputesTensor.congr {dst : NodeId} {shape : List Nat} {f f' : List Nat → Option Literal}
    (h : b.ComputesTensor inputs dst shape f)
    (hf : ∀ idx, Index.InRange shape idx → f' idx = f idx) : b.ComputesTensor inputs dst shape f' := by
  intro hsome
  obtain ⟨data, hcount, hplaces, heval⟩ := h fun idx hidx => by rw [← hf idx hidx]; exact hsome idx hidx
  exact ⟨data, hcount, fun idx hidx => (hplaces idx hidx).trans (hf idx hidx).symm, heval⟩

/-- An operator with a body that is evaluated for every index vector computes a tensor. -/
theorem Bound.computesTensor (h : Bound sz b inputs given sizes) {pairs : List (NodeId × NodeId)}
    {g₁ : Graph} (hopen : b.graph.Opens b.entry pairs g₁) {size : ElemSize} {shape : Shape}
    {op : OpKind} {ins args : List NodeId} {g' : Graph}
    (hg' : g' = g₁.closeBody size op ins none (.tensor size shape)
      (.elementwise ⟨pairs, [(⟨g₁.nodes.size⟩, ⟨g₁.nodes.size + 1⟩)]⟩) args)
    (hproduces : b.graph.Produces b.entry (⟨g₁.nodes.size + 1⟩, g') (.tensor size shape))
    (hargs : ∀ id ∈ args, ∃ v, meaning ⟨g', sizes⟩ given id = .ok v)
    (houter : ∀ p ∈ pairs, ∃ ns data, meaning ⟨g', sizes⟩ given p.1 = .ok (.tensor ns data))
    {ns : List Nat} (hdims : Meaning.dims ⟨g', sizes⟩ (meaning ⟨g', sizes⟩ given) shape = .ok ns)
    {f : List Nat → Option Literal}
    (helement : ∀ idx w, f idx = some w → ∀ p ∈ pairs, ∀ v,
      meaning ⟨g', sizes⟩ given p.1 = .ok v → (v.element? idx).isSome)
    (hop : ∀ idx w elems, f idx = some w → List.Forall₂ (fun p a => ∃ v,
        meaning ⟨g', sizes⟩ given p.1 = .ok v ∧ v.element? idx = some a) pairs elems →
      Meaning.scalarOp (Meaning.inside (meaning ⟨g', sizes⟩ given) (pairs.map Prod.snd) elems)
        ⟨op, ins, [⟨g₁.nodes.size⟩]⟩ size = .ok w ∧ w.convert size = w) :
    ({ b with graph := g' } : FunctionBuilder).ComputesTensor inputs ⟨g₁.nodes.size + 1⟩ ns f := by
  intro hsome
  have hgrown : b.Grown { b with graph := g' } := .of_produces h.wellFormed.valid hproduces
  have hmeaning : meaning ⟨g', sizes⟩ given ⟨g₁.nodes.size + 1⟩ =
      Meaning.elementwise ⟨g', sizes⟩ (meaning ⟨g', sizes⟩ given) args
        ⟨pairs, [(⟨g₁.nodes.size⟩, ⟨g₁.nodes.size + 1⟩)]⟩ := by
    rw [hg']
    exact h.meaning_closeBody hopen nofun (hg' ▸ hproduces)
  obtain ⟨operands, hoperands⟩ : ∃ operands, pairs.mapM (fun p => Meaning.tensor
      (meaning ⟨g', sizes⟩ given) p.1) = .ok operands := exists_mapM_ok fun p hp => by
    obtain ⟨ns, data, hp⟩ := houter p hp
    exact ⟨_, Meaning.tensor_eq_ok.mpr hp⟩
  have hsize : g'.elemSize ⟨g₁.nodes.size + 1⟩ = size := Graph.elemSize_of_type hproduces.type
  have hshape : g'.shape ⟨g₁.nodes.size + 1⟩ = shape := Graph.shape_of_type hproduces.type
  have hdims' : Meaning.dims ⟨g', sizes⟩ (meaning ⟨g', sizes⟩ given)
      (g'.shape ⟨g₁.nodes.size + 1⟩) = .ok ns := hshape.symm ▸ hdims
  -- The body gives every element, so the operator with the body has a value.
  obtain ⟨data, hvalue, hcount, hplaces⟩ := Meaning.exists_elementwise hargs hdims' hoperands
    fun idx hidx => by
      obtain ⟨w, hw⟩ := Option.isSome_iff_exists.mp (hsome idx hidx)
      obtain ⟨elems, helems, hall⟩ := Meaning.exists_elements hoperands (helement idx w hw)
      obtain ⟨hscalar, hconvert⟩ := hop idx w elems hw hall
      have hinner : Meaning.innerValue ⟨g', sizes⟩ (meaning ⟨g', sizes⟩ given)
          (pairs.map Prod.snd) ⟨g₁.nodes.size⟩ elems = .ok w := by
        rw [hg', hopen.innerValue_closeBody, ← hg']
        exact hscalar
      refine ⟨elems, w, helems, bind_of_ok hinner ?_, hw⟩
      rw [hsize, hconvert]
  exact ⟨data, hcount, hplaces,
    (h.grow hgrown).computes hproduces.available (hmeaning.trans hvalue)⟩

/-- A node that is no scalar has a tensor as its value, if it has one. -/
theorem Bound.exists_tensor (h : Bound sz b inputs given sizes) {id : NodeId} (hid : b.Has id)
    (hscalar : b.graph.isScalar id = false) {v : Value}
    (hv : meaning ⟨b.graph, sizes⟩ given id = .ok v) : ∃ ns data, v = .tensor ns data := by
  have htypes := h.types hid hv
  cases v with
  | scalar w => exact absurd (hscalar.symm.trans htypes.1) (by decide)
  | tensor ns data => exact ⟨ns, data, rfl⟩

end FunctionBuilder

namespace BuildM

open FunctionBuilder

variable {sz : ElemSize} {b b' : FunctionBuilder} {inputs : List Value} {given : GivenValues}
  {sizes : Table String Nat} {dst : NodeId} {x y : Value}

theorem AddsBinary.grown {op : BinOp} {lhs rhs : NodeId} {shape : Option Shape}
    (h : AddsBinary b op lhs rhs shape dst b') (hv : b.graph.Valid b.entry) (hlhs : b.Has lhs)
    (hrhs : b.Has rhs) : b.Grown b' := by
  have hgrown := Grown.of_produces hv
    (Graph.produces_binary hv hlhs hrhs h.typed h.scalars h.tensors)
  rwa [h.added, ← h.rest] at hgrown

theorem AddsUnary.grown {op : UnOp} {arg : NodeId} (h : AddsUnary b op arg dst b')
    (hv : b.graph.Valid b.entry) (harg : b.Has arg) : b.Grown b' := by
  have hgrown := Grown.of_produces hv (Graph.produces_unary hv harg h.typed)
  rwa [h.added, ← h.rest] at hgrown

/-- The sizes of the result are those that the operands broadcast to, and all places can be read. -/
theorem AddsBinary.exists_sizes {op : BinOp} {lhs rhs : NodeId} {shape : Shape}
    (h : AddsBinary b op lhs rhs (some shape) dst b') (hb : Bound sz b inputs given sizes)
    (hlhs : b.Has lhs) (hrhs : b.Has rhs) (hx : meaning ⟨b.graph, sizes⟩ given lhs = .ok x)
    (hy : meaning ⟨b.graph, sizes⟩ given rhs = .ok y) :
    ∃ s, Meaning.dims ⟨b'.graph, sizes⟩ (meaning ⟨b'.graph, sizes⟩ given) shape = .ok s ∧
      IsBroadcast (x.shape.map Nat.cast) (y.shape.map Nat.cast) (s.map Nat.cast) ∧
      ∀ v ∈ [x, y], Index.size v.shape < Word.count →
        ∀ idx, Index.InRange s idx → (v.element? idx).isSome := by
  have hgrown := h.grown hb.wellFormed.valid hlhs hrhs
  have hb' := hb.grow hgrown
  rw [← hb.meaning_grown hgrown hlhs] at hx
  rw [← hb.meaning_grown hgrown hrhs] at hy
  have htx := hb'.types (hgrown.has hlhs) hx
  have hty := hb'.types (hgrown.has hrhs) hy
  obtain ⟨s, hs, hbroadcast⟩ := Shape.isBroadcast_sizes (h.tensors shape rfl).2
    (hgrown.shape_eq hlhs ▸ htx.dims_eq) (hgrown.shape_eq hrhs ▸ hty.dims_eq)
  refine ⟨s, hs, hbroadcast, fun v hmem hcount idx hidx => ?_⟩
  obtain ⟨hfitsl, hfitsr, -⟩ := Shape.broadcast?_eq_some (h.tensors shape rfl).2
  rw [← hgrown.shape_eq hlhs] at hfitsl
  rw [← hgrown.shape_eq hrhs] at hfitsr
  simp only [List.mem_cons, List.not_mem_nil, or_false] at hmem
  rcases hmem with rfl | rfl
  · exact htx.isSome_element? hfitsl hs hcount hidx
  · exact hty.isSome_element? hfitsr hs hcount hidx

/-- A binary operator on a tensor computes the results of the operator on elements. -/
theorem AddsBinary.computesTensor {op : BinOp} {lhs rhs : NodeId} {shape : Shape}
    (h : AddsBinary b op lhs rhs (some shape) dst b') (hb : Bound sz b inputs given sizes)
    (hlhs : b.Has lhs) (hrhs : b.Has rhs) (hx : meaning ⟨b.graph, sizes⟩ given lhs = .ok x)
    (hy : meaning ⟨b.graph, sizes⟩ given rhs = .ok y) {s : List Nat}
    (hs : Meaning.dims ⟨b'.graph, sizes⟩ (meaning ⟨b'.graph, sizes⟩ given) shape = .ok s) :
    b'.ComputesTensor inputs dst s
      (x.binary? op (op.resultSize (b.graph.elemSize lhs) (b.graph.elemSize rhs)) y) := by
  have hv := hb.wellFormed.valid
  have hproduces := Graph.produces_binary hv hlhs hrhs h.typed h.scalars h.tensors
  have hgrown := h.grown hv hlhs hrhs
  have hb' := hb.grow hgrown
  rw [← hb.meaning_grown hgrown hlhs] at hx
  rw [← hb.meaning_grown hgrown hrhs] at hy
  have htx := hb'.types (hgrown.has hlhs) hx
  have hty := hb'.types (hgrown.has hrhs) hy
  -- The placeholders of the body, and what it reads for the operands.
  have hl := Graph.bindOperand_spec hv Graph.Placeholders.nil (hlhs.lt hv.entry)
  have hr := Graph.bindOperand_spec hl.valid hl.placeholders
    (Nat.lt_of_lt_of_le (hrhs.lt hv.entry) hl.ext.nodes_le)
  have hopen := (((Graph.Opens.nil hv.entry).bindOperand lhs).1.bindOperand rhs).1
  have hreadl := (b.graph.readsFor_bindOperand [] lhs).mono hr.subset
  have hreadr := Graph.readsFor_bindOperand (b.graph.bindOperand [] lhs).2.2
    (b.graph.bindOperand [] lhs).2.1 rhs
  have hclosed := h.added
  rw [Graph.applyBinary_eq_closeBody] at hclosed hproduces
  generalize b.graph.bindOperand [] lhs = l at *
  dsimp only at hclosed hproduces
  generalize l.2.2.bindOperand l.2.1 rhs = r at *
  obtain ⟨hdst, hgraph⟩ := Prod.mk.inj hclosed
  rw [hgraph] at hproduces
  rw [h.rest, ← hdst]
  have hscalarr : b'.graph.isScalar rhs = l.2.2.isScalar rhs :=
    (hgrown.isScalar_eq hrhs).trans (hl.ext.isScalar_eq (hrhs.lt hv.entry)).symm
  have houter : ∀ p ∈ r.2.1,
      meaning ⟨b'.graph, sizes⟩ given p.1 = .ok x ∧ (∃ ns data, x = .tensor ns data) ∨
      meaning ⟨b'.graph, sizes⟩ given p.1 = .ok y ∧ ∃ ns data, y = .tensor ns data := by
    intro p hp
    rcases hl.outer_pair hr hp with ⟨hfst, hscalar⟩ | ⟨hfst, hscalar⟩
    · rw [hfst]
      exact .inl ⟨hx, hb'.exists_tensor (hgrown.has hlhs)
        ((hgrown.isScalar_eq hlhs).trans hscalar) hx⟩
    · rw [hfst]
      exact .inr ⟨hy, hb'.exists_tensor (hgrown.has hrhs) (hscalarr.trans hscalar) hy⟩
  refine hb.computesTensor hopen hgraph.symm hproduces ?_ ?_ hs ?_ ?_
  · intro id hid
    simp only [List.mem_cons, List.not_mem_nil, or_false] at hid
    rcases hid with rfl | rfl
    · exact ⟨x, hx⟩
    · exact ⟨y, hy⟩
  · intro p hp
    rcases houter p hp with ⟨hp, ns, data, rfl⟩ | ⟨hp, ns, data, rfl⟩ <;> exact ⟨ns, data, hp⟩
  · intro idx w hw p hp v hvalue
    obtain ⟨a, c, ha, hc, -⟩ := Value.binary?_eq_some hw
    rcases houter p hp with ⟨hp, -⟩ | ⟨hp, -⟩
    · rw [← Except.ok.inj (hp.symm.trans hvalue), ha]
      rfl
    · rw [← Except.ok.inj (hp.symm.trans hvalue), hc]
      rfl
  · intro idx w elems hw hall
    obtain ⟨a, c, ha, hc, hw⟩ := Value.binary?_eq_some hw
    have hfresh : ∀ {id : NodeId}, b.Has id → id ∉ r.2.1.map Prod.snd := fun hid hmem =>
      Nat.not_lt.mpr (hopen.fresh _ hmem) (hid.lt hv.entry)
    rw [Meaning.scalarOp_binary,
      Meaning.scalar_inside hopen.nodup hall (hreadl.grow (hgrown.isScalar_eq hlhs)) (hfresh hlhs) hx
        htx ha,
      Meaning.scalar_inside hopen.nodup hall (hreadr.grow hscalarr) (hfresh hrhs) hy hty hc]
    refine ⟨?_, Literal.convert_of_binary hw fun hbool => ?_⟩
    · show Meaning.ofArithmetic _ = _
      rw [hw]
      rfl
    · rw [BinOp.resultSize, if_pos hbool]

/-- A unary operator on a tensor computes the results of the operator on elements. -/
theorem AddsUnary.computesTensor {op : UnOp} {arg : NodeId} (h : AddsUnary b op arg dst b')
    (hb : Bound sz b inputs given sizes) (harg : b.Has arg) (hscalar : b.graph.isScalar arg = false)
    {ns : List Nat} {src : Array Literal}
    (hx : meaning ⟨b.graph, sizes⟩ given arg = .ok (.tensor ns src)) :
    b'.ComputesTensor inputs dst ns
      ((Value.tensor ns src).unary? op (if op = .not then .bool else b.graph.elemSize arg)) := by
  have hv := hb.wellFormed.valid
  have hproduces := Graph.produces_unary hv harg h.typed
  have hgrown := h.grown hv harg
  rw [← hb.meaning_grown hgrown harg] at hx
  have htypes := (hb.grow hgrown).types (hgrown.has harg) hx
  -- The body of the operator has one placeholder, that of its operand.
  have hopen : b.graph.Opens b.entry [(arg, (b.graph.placeholder arg).1)]
      (b.graph.placeholder arg).2 := (Graph.Opens.nil hv.entry).addScalar arg _ _
  have hclosed := h.added
  rw [Graph.applyUnary_eq_closeBody _ _ _ hscalar] at hclosed hproduces
  rw [Graph.type_of_not_isScalar hscalar] at hproduces
  obtain ⟨hdst, hgraph⟩ := Prod.mk.inj hclosed
  dsimp only at hproduces
  rw [hgraph] at hproduces
  rw [h.rest, ← hdst]
  refine hb.computesTensor hopen hgraph.symm hproduces ?_ ?_ (hgrown.shape_eq harg ▸ htypes.dims_eq) ?_ ?_
  · intro id hid
    obtain rfl := List.mem_singleton.mp hid
    exact ⟨_, hx⟩
  · intro p hp
    obtain rfl := List.mem_singleton.mp hp
    exact ⟨ns, src, hx⟩
  · intro idx w hw p hp v hvalue
    obtain rfl := List.mem_singleton.mp hp
    obtain ⟨a, ha, -⟩ := Value.unary?_eq_some hw
    rw [← Except.ok.inj (hx.symm.trans hvalue), ha]
    rfl
  · intro idx w elems hw hall
    obtain ⟨a, ha, hw⟩ := Value.unary?_eq_some hw
    have hread : b.graph.ReadsFor [(arg, (b.graph.placeholder arg).1)] arg
        (b.graph.placeholder arg).1 := by simp [Graph.ReadsFor, hscalar]
    have hfresh : arg ∉ [(arg, (b.graph.placeholder arg).1)].map Prod.snd := fun hmem =>
      Nat.not_lt.mpr (hopen.fresh _ hmem) (harg.lt hv.entry)
    rw [Meaning.scalarOp_unary, Meaning.scalar_inside hopen.nodup hall
      (hread.grow (hgrown.isScalar_eq harg)) hfresh hx htypes ha]
    refine ⟨?_, Literal.convert_of_unary hw⟩
    show Meaning.ofArithmetic _ = _
    rw [hw]
    rfl

/--
Operators on tensors are pointwise.  A binary operator whose result is a tensor computes the tensor
of the shape that the shapes of its operands broadcast to, and a unary one keeps the shape of its
operand.  The elements are what the operator makes of the elements of the operands in the element
size of the result, if it makes something of all of them.  What was evaluated before does not matter.
-/
theorem applied_pointwise (hb : b.WellFormed sz) (inputs : List Value) :
    (∀ op lhs rhs span cache dst b' cache' x y,
      run (applyBinary op lhs rhs span) b cache = (.ok (dst, b'), cache') →
      b'.graph.isScalar dst = false → (b.view [lhs, rhs]).eval inputs = .ok [x, y] →
      ∃ s, IsBroadcast (x.shape.map Nat.cast) (y.shape.map Nat.cast) (s.map Nat.cast) ∧
        (∀ v ∈ [x, y], Index.size v.shape < Word.count →
          ∀ idx, Index.InRange s idx → (v.element? idx).isSome) ∧
        b'.ComputesTensor inputs dst s
          (x.binary? op (op.resultSize (b.graph.elemSize lhs) (b.graph.elemSize rhs)) y)) ∧
    (∀ op arg span cache dst b' cache' x,
      run (applyUnary op arg span) b cache = (.ok (dst, b'), cache') →
      b'.graph.isScalar dst = false → (b.view [arg]).eval inputs = .ok [x] →
      ∃ s data, x = .tensor s data ∧ b'.ComputesTensor inputs dst s fun idx => do
        let a ← data[Index.place s idx]?
        (a.unary op (if op = .not then .bool else b.graph.elemSize arg)).toOption) := by
  refine ⟨fun op lhs rhs span cache dst b' cache' x y hrun hscalar heval => ?_,
    fun op arg span cache dst b' cache' x hrun hscalar heval => ?_⟩
  · obtain ⟨given, sizes, hbound, hhas, hvalues⟩ := Bound.of_eval hb heval
    obtain ⟨shape, hadds⟩ := (meets_applyBinary op lhs rhs span).of_run hrun
    have hlhs : b.Has lhs := hhas lhs (by simp)
    have hrhs : b.Has rhs := hhas rhs (by simp)
    cases shape with
    -- Without a shape the result would be a scalar.
    | none =>
      have htype := (Graph.produces_binary hb.valid hlhs hrhs hadds.typed hadds.scalars
        hadds.tensors).type
      rw [hadds.added] at htype
      exact (Bool.false_ne_true (hscalar.symm.trans (Graph.isScalar_of_type htype))).elim
    | some shape =>
      have hall := forall₂_of_mapM hvalues
      rw [List.forall₂_cons] at hall
      obtain ⟨hx, hall⟩ := hall
      rw [List.forall₂_cons] at hall
      obtain ⟨s, hs, hbroadcast, hsome⟩ := hadds.exists_sizes hbound hlhs hrhs hx hall.1
      exact ⟨s, hbroadcast, hsome, hadds.computesTensor hbound hlhs hrhs hx hall.1 hs⟩
  · obtain ⟨given, sizes, hbound, hhas, hvalues⟩ := Bound.of_eval hb heval
    have hadds := (meets_applyUnary op arg span).of_run hrun
    have harg : b.Has arg := hhas arg (by simp)
    have hx := (List.forall₂_cons.mp (forall₂_of_mapM hvalues)).1
    cases hsarg : b.graph.isScalar arg with
    | true =>
      have htype := (Graph.produces_unary hb.valid harg hadds.typed).type
      rw [hadds.added, Graph.type_of_isScalar hsarg] at htype
      exact (Bool.false_ne_true (hscalar.symm.trans (Graph.isScalar_of_type htype))).elim
    | false =>
      obtain ⟨s, data, rfl⟩ := hbound.exists_tensor harg hsarg hx
      refine ⟨s, data, rfl, (hadds.computesTensor hbound harg hsarg hx).congr fun idx hidx => ?_⟩
      rw [Value.unary?, Value.element?, hidx.broadcast_eq]

end BuildM

/-- A kernel with a vector of two integers, after it has added the vector to itself. -/
def FunctionBuilder.doubled : FunctionBuilder :=
  let b := tensorParam "f" "x" .i64 [2]
  { b with graph := (b.graph.applyBinary .add ⟨0⟩ ⟨0⟩ .i64 (some [.const 2])).2 }

theorem BuildM.applied_pointwise_doubled : ∃ data : Array Literal,
    data[0]? = some (.int 6) ∧ data[1]? = some (.int 8) ∧
      (FunctionBuilder.doubled.view [⟨3⟩]).eval [.tensor [2] #[.int 3, .int 4]] =
        .ok [.tensor [2] data] := by
  have hb := FunctionBuilder.tensorParam_wellFormed "f" "x" .i64 .i64 [2]
  have hrun : BuildM.run (applyBinary .add ⟨0⟩ ⟨0⟩ .nowhere) (.tensorParam "f" "x" .i64 [2]) .empty =
      (.ok (⟨3⟩, FunctionBuilder.doubled), .empty) := rfl
  have hargs : ((FunctionBuilder.tensorParam "f" "x" .i64 [2]).view [⟨0⟩, ⟨0⟩]).eval
      [.tensor [2] #[.int 3, .int 4]] =
        .ok [.tensor [2] #[.int 3, .int 4], .tensor [2] #[.int 3, .int 4]] := by cbv
  obtain ⟨s, hs, -, hcomputes⟩ :=
    (applied_pointwise hb [.tensor [2] #[.int 3, .int 4]]).1 _ _ _ _ _ _ _ _ _ _ hrun rfl hargs
  obtain ⟨n, rfl⟩ : ∃ n, s = [n] := List.length_eq_one_iff.mp (by simpa [Value.shape] using hs.rank)
  obtain rfl : n = 2 := by
    have hsize : (n : Int) = 2 := hs.size 0
    exact_mod_cast hsize
  have hlist : Index.enumerate [2] = [[0], [1]] := rfl
  obtain ⟨data, -, hplaces, heval⟩ := hcomputes fun idx hidx => by
    have hmem := Index.mem_enumerate_iff.mpr hidx
    rw [hlist] at hmem
    simp only [List.mem_cons, List.not_mem_nil, or_false] at hmem
    rcases hmem with rfl | rfl <;> rfl
  exact ⟨data, (hplaces [0] (.cons (by decide) .nil)).trans rfl,
    (hplaces [1] (.cons (by decide) .nil)).trans rfl, heval.1⟩

end TensorKernel
