import TensorKernel.Proofs.Eval.Nodes
import TensorKernel.Proofs.Except
import TensorKernel.Proofs.Literal

/-!
# Values have the types of their nodes

What a node means is a value of its type: a scalar in the representation of the element size, or a
tensor whose sizes are those of the node's dimensions and whose elements are as many as the sizes
require.  Elements are counted in a word, as evaluation counts them.
-/

namespace TensorKernel

/-! ## Counting elements -/

namespace Index

theorem length_enumerate (shape : List Nat) : (enumerate shape).length = size shape := by
  have hfold : ∀ (shape : List Nat) (n : Nat),
      shape.foldl (· * ·) n = n * shape.foldl (· * ·) 1 := by
    intro shape
    induction shape with
    | nil => exact fun n => (Nat.mul_one n).symm
    | cons m rest ih =>
      intro n
      show rest.foldl (· * ·) (n * m) = n * rest.foldl (· * ·) (1 * m)
      rw [ih (n * m), ih (1 * m), Nat.one_mul, Nat.mul_assoc]
  induction shape with
  | nil => rfl
  | cons n rest ih =>
    have hsize : size (n :: rest) = n * size rest := by
      show rest.foldl (· * ·) (1 * n) = n * rest.foldl (· * ·) 1
      rw [hfold, Nat.one_mul]
    rw [hsize, ← ih, enumerate, List.length_flatMap]
    simp

theorem length_rowMajor (shape : List Nat) : (rowMajor shape).length = size shape := by
  rw [rowMajor_eq_enumerate, length_enumerate]

/-- An axis of size one counts for nothing. -/
theorem size_one_cons (rest : List Nat) : size (1 :: rest) = size rest := rfl

end Index

namespace Meaning

/-! ## Types of values -/

/-- A value of the type of a node, where a valuation decides the computed dimensions. -/
def Types (ctx : EvalContext) (val : Valuation) (id : NodeId) : Value → Prop
  | .scalar v => ctx.graph.isScalar id = true ∧ (ctx.graph.elemSize id).Holds v
  | .tensor shape data => ctx.graph.isScalar id = false ∧
    dims ctx val (ctx.graph.shape id) = .ok shape ∧ Word.wrap data.size = Index.count shape ∧
    ∀ v ∈ data, (ctx.graph.elemSize id).Holds v

section Operators

variable {ctx : EvalContext} {val : Valuation} {e : Entry} {avail : NodeId → Prop}
  (hval : ∀ id, avail id → ∀ v, val id = .ok v → Types ctx val id v)
include hval

theorem holds_scalar {id : NodeId} (hid : avail id) {v : Literal} (h : scalar val id = .ok v) :
    (ctx.graph.elemSize id).Holds v := by
  obtain ⟨value, hvalue, h⟩ := exists_of_bind_ok h
  have htypes := hval id hid value hvalue
  cases value with
  | scalar w =>
    obtain rfl := Except.ok.inj h
    exact htypes.2
  | tensor shape data => cases h

theorem types_tensor {id : NodeId} (hid : avail id) {operand : List Nat × Array Literal}
    (h : tensor val id = .ok operand) : Types ctx val id (.tensor operand.1 operand.2) := by
  obtain ⟨value, hvalue, h⟩ := exists_of_bind_ok h
  have htypes := hval id hid value hvalue
  cases value with
  | scalar w => cases h
  | tensor shape data =>
    obtain rfl := Except.ok.inj h
    exact htypes

omit hval

theorem mem_of_element {data : Array Literal} {i : Nat} {v : Literal}
    (h : element data i = .ok v) : v ∈ data := by
  unfold element at h
  split at h
  · next w hw =>
    obtain rfl := Except.ok.inj h
    exact Array.mem_of_getElem? hw
  · cases h

theorem holds_scalarOp {ok : NodeId → Prop} {op : Op} {dst : NodeId}
    (hop : ctx.graph.ScalarOp ok op dst) {val : Valuation} {v : Literal}
    (h : scalarOp val op (ctx.graph.elemSize dst) = .ok v) : (ctx.graph.elemSize dst).Holds v := by
  have harithmetic : ∀ {x : Except ArithmeticFault Literal},
      ofArithmetic x = .ok v → x = .ok v := by
    intro x hx
    cases x with
    | error fault => cases hx
    | ok w => exact congrArg Except.ok (Except.ok.inj hx)
  cases hop with
  | unary _ _ _ _ =>
    rw [scalarOp_unary] at h
    obtain ⟨arg, -, h⟩ := exists_of_bind_ok h
    exact Literal.holds_unary (harithmetic h)
  | binary _ _ _ _ _ typed =>
    rw [scalarOp_binary] at h
    obtain ⟨l, -, h⟩ := exists_of_bind_ok h
    obtain ⟨r, -, h⟩ := exists_of_bind_ok h
    refine Literal.holds_binary (harithmetic h) fun hbool => ?_
    rw [typed.result, BinOp.resultSize, if_pos hbool]

theorem holds_body {holes : List NodeId} {inner dst : NodeId} {elems : List Literal} {v : Literal}
    (h : body ctx val holes inner dst elems = .ok v) : (ctx.graph.elemSize dst).Holds v := by
  obtain ⟨w, -, h⟩ := exists_of_bind_ok h
  obtain rfl := Except.ok.inj h
  exact Literal.holds_convert w _

/-- Changing cells one after another keeps how many there are and what is true of each. -/
theorem fold_spec {combine : Literal → Literal → Except EvalFault Literal}
    {axes outShape : List Nat} {data : Array Literal} {P : Literal → Prop}
    (hcombine : ∀ v cell w, combine v cell = .ok w → P w) {idxs : List (List Nat)} :
    ∀ {i : Nat} {cells out : Array Literal},
      fold combine axes outShape data idxs i cells = .ok out → (∀ v ∈ cells, P v) →
      out.size = cells.size ∧ ∀ v ∈ out, P v := by
  induction idxs with
  | nil =>
    intro i cells out h hcells
    obtain rfl := Except.ok.inj h
    exact ⟨rfl, hcells⟩
  | cons idx rest ih =>
    intro i cells out h hcells
    obtain ⟨v, -, h⟩ := exists_of_bind_ok h
    obtain ⟨cell, -, h⟩ := exists_of_bind_ok h
    obtain ⟨next, hnext, h⟩ := exists_of_bind_ok h
    obtain ⟨hsize, hall⟩ := ih h fun w hw => by
      rcases Array.mem_or_eq_of_mem_setIfInBounds hw with hw | rfl
      · exact hcells w hw
      · exact hcombine _ _ _ hnext
    exact ⟨by rw [hsize, Array.size_setIfInBounds], hall⟩

/-- Elements that are listed for every index vector of a shape. -/
theorem wrap_size_rowMajor {β : Type} {f : List Nat → Except EvalFault β} {shape : List Nat}
    {data : List β} (h : (Index.rowMajor shape).mapM f = .ok data) :
    Word.wrap data.toArray.size = Index.count shape := by
  rw [List.size_toArray, length_of_mapM_ok h, Index.length_rowMajor]
  rfl

/-- Dropping axes of size one in front changes neither the sizes behind nor their number. -/
theorem dims_trims {sizes shape : Shape} (htrims : sizes.Trims shape) {ns ms : List Nat}
    (hns : dims ctx val sizes = .ok ns) (hms : dims ctx val shape = .ok ms) :
    Index.size ns = Index.size ms := by
  obtain ⟨k, rfl, -, hones⟩ := htrims
  induction k generalizing sizes ns with
  | zero =>
    rw [List.drop_zero, hns] at hms
    rw [Except.ok.inj hms]
  | succ k ih =>
    cases sizes with
    | nil =>
      rw [List.drop_nil] at hms
      rw [hns] at hms
      rw [Except.ok.inj hms]
    | cons d rest =>
      unfold dims at hns
      rw [List.mapM_cons] at hns
      obtain ⟨n, hn, hns⟩ := exists_of_bind_ok hns
      obtain ⟨tail, htail, hns⟩ := exists_of_bind_ok hns
      obtain rfl := Except.ok.inj hns
      have hone : d = .const 1 := by
        simpa [Dim.isOne] using hones d (by simp)
      subst hone
      have hn1 : n = 1 := (Except.ok.inj hn).symm
      subst hn1
      rw [Index.size_one_cons]
      exact ih htail hms fun d hd => hones d (by simp [hd])

/-- A converted value has the type of a node of the same shape. -/
theorem types_convert {src dst : NodeId} {w : Value}
    (same : (ctx.graph.type dst).sameShape (ctx.graph.type src) = true) (h : Types ctx val src w) :
    Types ctx val dst (w.convert (ctx.graph.elemSize dst)) := by
  obtain ⟨hscalar, hshape⟩ := Graph.shape_eq_of_sameShape same
  cases w with
  | scalar w => exact ⟨hscalar.trans h.1, Literal.holds_convert w _⟩
  | tensor shape data =>
    obtain ⟨hnot, hdims, hcount, -⟩ := h
    refine ⟨hscalar.trans hnot, ?_, ?_, fun u hu => ?_⟩
    · rw [show ctx.graph.shape dst = ctx.graph.shape src from hshape]
      exact hdims
    · rw [Array.size_map]
      exact hcount
    · obtain ⟨u', -, rfl⟩ := Array.mem_map.mp hu
      exact Literal.holds_convert u' _

/-- A tensor with one element changed has the type of any node of its type. -/
theorem types_setIfInBounds {target dst : NodeId} {shape : List Nat} {data : Array Literal} {i : Nat}
    {w : Literal} (type : ctx.graph.type dst = ctx.graph.type target)
    (h : Types ctx val target (.tensor shape data)) (hw : (ctx.graph.elemSize dst).Holds w) :
    Types ctx val dst (.tensor shape (data.setIfInBounds i w)) := by
  obtain ⟨hscalar, hdims, hcount, hall⟩ := h
  have hsize : ctx.graph.elemSize dst = ctx.graph.elemSize target := congrArg KernelType.elemSize type
  have hshape : ctx.graph.shape dst = ctx.graph.shape target := congrArg KernelType.shape type
  refine ⟨(congrArg KernelType.isScalar type).trans hscalar, ?_, ?_, fun u hu => ?_⟩
  · rw [hshape]
    exact hdims
  · rw [Array.size_setIfInBounds]
    exact hcount
  · rcases Array.mem_or_eq_of_mem_setIfInBounds hu with hu | rfl
    · rw [hsize]
      exact hall u hu
    · exact hw

include hval

/-- An operator gives a value of the type of the node that it computes. -/
theorem types_operator {op : Op} {dst : NodeId} (hop : ctx.graph.Computes e avail op dst)
    {v : Value} (h : operator ctx val op dst = .ok v) : Types ctx val dst v := by
  obtain ⟨-, hvalid⟩ := hop
  cases hvalid with
  | scalar hop =>
    have hscalar : ctx.graph.isScalar dst = true := by cases hop <;> assumption
    have hresult : (do
        let w ← scalarOp val op (ctx.graph.elemSize dst)
        .ok (.scalar w)) = Except.ok v := by cases hop <;> exact h
    obtain ⟨w, hw, hresult⟩ := exists_of_bind_ok hresult
    obtain rfl := Except.ok.inj hresult
    exact ⟨hscalar, holds_scalarOp hop hw⟩
  | elementwise hinputs houter sdst size body =>
    obtain ⟨_, -, h⟩ := exists_of_bind_ok h
    obtain ⟨shape, hshape, h⟩ := exists_of_bind_ok h
    obtain ⟨operands, -, h⟩ := exists_of_bind_ok h
    obtain ⟨data, hdata, h⟩ := exists_of_bind_ok h
    obtain rfl := Except.ok.inj h
    refine ⟨sdst, hshape, wrap_size_rowMajor hdata, fun w hw => ?_⟩
    obtain ⟨idx, -, hidx⟩ := exists_of_mem_mapM hdata w (List.mem_toArray.mp hw)
    obtain ⟨elems, -, hbody⟩ := exists_of_bind_ok hidx
    exact holds_body hbody
  | @reduction axes arg init x acc inner dst harg hinit sarg sinit isize full partly size body =>
    obtain ⟨operand, hoperand, h⟩ := exists_of_bind_ok h
    obtain ⟨start, hstart, h⟩ := exists_of_bind_ok h
    obtain ⟨cells, hcells, h⟩ := exists_of_bind_ok h
    have hstartHolds : (ctx.graph.elemSize dst).Holds start := by
      rw [← isize]
      exact holds_scalar hval hinit hstart
    obtain ⟨hsize, hall⟩ := fold_spec (fun _ _ _ hw => holds_body hw) hcells fun w hw => by
      rw [(Array.mem_replicate.mp hw).2]
      exact hstartHolds
    split at h
    · next hscalar =>
      obtain ⟨w, hw, h⟩ := exists_of_bind_ok h
      obtain rfl := Except.ok.inj h
      exact ⟨hscalar, hall w (mem_of_element hw)⟩
    · next hscalar =>
      obtain rfl := Except.ok.inj h
      have hnot : ctx.graph.isScalar dst = false := by simpa using hscalar
      obtain ⟨-, hdims, -, -⟩ := types_tensor hval harg hoperand
      refine ⟨hnot, ?_, ?_, hall⟩
      · rw [partly hnot]
        exact mapM_filterMap_zipIdx (fun i => !axes.contains i) hdims
      · rw [hsize, Array.size_replicate]
        exact Nat.mod_mod _ _
  | getItem htarget starget hindices rank sdst size =>
    obtain ⟨operand, -, h⟩ := exists_of_bind_ok h
    obtain ⟨idx, -, h⟩ := exists_of_bind_ok h
    obtain ⟨w, -, h⟩ := exists_of_bind_ok h
    obtain rfl := Except.ok.inj h
    exact ⟨sdst, Literal.holds_convert w _⟩
  | setItem htarget starget hvalue svalue hindices rank type =>
    obtain ⟨operand, hoperand, h⟩ := exists_of_bind_ok h
    obtain ⟨w, -, h⟩ := exists_of_bind_ok h
    obtain ⟨idx, -, h⟩ := exists_of_bind_ok h
    obtain ⟨_, -, h⟩ := exists_of_bind_ok h
    obtain rfl := Except.ok.inj h
    exact types_setIfInBounds type (types_tensor hval htarget hoperand) (Literal.holds_convert w _)
  | slice htarget starget hselected selectedLe rank hsizes trims sdst size =>
    obtain ⟨operand, hoperand, h⟩ := exists_of_bind_ok h
    obtain ⟨ns, hns, h⟩ := exists_of_bind_ok h
    obtain ⟨steps, -, h⟩ := exists_of_bind_ok h
    obtain ⟨out, hout, h⟩ := exists_of_bind_ok h
    obtain ⟨ms, hms, h⟩ := exists_of_bind_ok h
    obtain rfl := Except.ok.inj h
    obtain ⟨-, -, -, hall⟩ := types_tensor hval htarget hoperand
    refine ⟨sdst, hms, ?_, fun w hw => ?_⟩
    · rw [wrap_size_rowMajor hout]
      exact congrArg Word.wrap (dims_trims trims hns hms)
    · obtain ⟨idx, -, hidx⟩ := exists_of_mem_mapM hout w (List.mem_toArray.mp hw)
      obtain ⟨source, -, helement⟩ := exists_of_bind_ok hidx
      rw [size]
      exact hall w (mem_of_element helement)
  | @copy kind src dst hkind hsrc same =>
    have hresult : (do
        let w ← val src
        .ok (w.convert (ctx.graph.elemSize dst))) = Except.ok v := by
      rcases hkind with rfl | rfl <;> exact h
    obtain ⟨w, hw, hresult⟩ := exists_of_bind_ok hresult
    obtain rfl := Except.ok.inj hresult
    exact types_convert same (hval src hsrc w hw)

end Operators

end Meaning

/-- What a node means is a value of its type, if that is so of the nodes that values are given to. -/
theorem types_meaning {ctx : EvalContext} {e : Entry} {given : GivenValues}
    (hc : ctx.graph.Coherent) (he : ctx.graph.EntryValid e) (hgiven : e.GivenBy given)
    (htypes : ∀ id v, given.get? id = some v → Meaning.Types ctx (meaning ctx given) id v)
    {id : NodeId} (hid : ctx.graph.Available e id) {v : Value} (h : meaning ctx given id = .ok v) :
    Meaning.Types ctx (meaning ctx given) id v := by
  revert v
  refine hid.induction (P := fun id => ∀ {v}, meaning ctx given id = .ok v →
    Meaning.Types ctx (meaning ctx given) id v) (fun {id} hid v h => ?_)
    fun hall hid hnot hconstant hproducer hop v h => ?_
  · rcases hgiven.source_cases hid with ⟨w, hw⟩ | ⟨hnone, w, hw⟩
    · rw [meaning_of_given hw] at h
      obtain rfl := Except.ok.inj h
      exact htypes id w hw
    · rw [meaning_of_constant hnone hw] at h
      obtain rfl := Except.ok.inj h
      exact ⟨Graph.isScalar_of_constant hw, Literal.holds_convert w _⟩
  · rw [meaning_of_producer hc he hgiven hid (hgiven.get?_eq_none hnot) hconstant hproducer] at h
    exact Meaning.types_operator (fun id hid v h => (hall id hid).2 h) hop h

end TensorKernel
