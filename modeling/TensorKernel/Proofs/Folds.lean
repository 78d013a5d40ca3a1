import Mathlib.Data.List.Sublists
import TensorKernel.Proofs.Build.Closing
import TensorKernel.Proofs.Build.Registry
import TensorKernel.Proofs.Eval.Elementwise
import TensorKernel.Proofs.Eval.Totals

/-!
# Reductions compute sums, products, maxima and minima

A call of a function of the numeric library adds a reduction to a builder.  `Reduction.folds_fibers`
says which calls succeed and what the result is: each of its elements is folded from the elements of
the tensor that project to it.  As totals can be taken in any order, all axes can also be folded one
after another.
-/

namespace TensorKernel

/-! ## Calls of reductions -/

namespace Reduction

/-- All axes if none is given, and otherwise the one that is given, counted from the start or the end. -/
def Selects (rank : Nat) (axes : List Nat) : Option Int64 → Prop
  | none => axes = List.range rank
  | some axis => ∃ i < rank, axes = [i] ∧ (axis.toInt = i ∨ axis.toInt = (i : Int) - rank)

/-- A call folds the axes that its argument selects, and has no other argument. -/
theorem axes_eq_ok_iff {f : Reduction} {rank : Nat} {keywords : Table String Int64}
    {axes : List Nat} : f.axes rank keywords = .ok axes ↔
      (∀ keyword ∈ keywords.keys, keyword = "axis") ∧ Selects rank axes (keywords.get? "axis") := by
  unfold Reduction.axes
  cases hother : keywords.keys.find? fun keyword => keyword != "axis" with
  | some keyword =>
    have hkeyword : keyword ≠ "axis" := by simpa using List.find?_some hother
    exact ⟨nofun, fun h => absurd (h.1 keyword (List.mem_of_find?_eq_some hother)) hkeyword⟩
  | none =>
    have hkeys : ∀ keyword ∈ keywords.keys, keyword = "axis" := by
      simpa using List.find?_eq_none.mp hother
    cases keywords.get? "axis" with
    | none => exact ⟨fun h => ⟨hkeys, (Except.ok.inj h).symm⟩, fun h => congrArg Except.ok h.2.symm⟩
    | some axis =>
      have hnegative : axis < 0 ↔ axis.toInt < 0 := Int64.lt_iff_toInt_lt
      simp only [hnegative]
      -- A negative axis counts from behind, so the place that it selects is found on either side.
      generalize hindex : (if axis.toInt < 0 then axis.toInt + rank else axis.toInt) = index
      constructor
      · intro h
        split at h
        · cases h
        · next hbounds =>
          refine ⟨hkeys, index.toNat, by omega, (Except.ok.inj h).symm, ?_⟩
          split at hindex <;> omega
      · rintro ⟨-, i, hi, rfl, haxis⟩
        obtain rfl : index = i := by
          subst hindex
          split <;> omega
        rw [if_neg (by omega)]
        rfl

theorem Sound.apply_eq_ok_iff {f : Reduction} (hf : f.Sound) {g : Graph} {arg : NodeId}
    (hscalar : g.isScalar arg = false) {keywords : Table String Int64} :
    (∃ result, f.apply g [arg] keywords = .ok result) ↔
      ∃ axes, f.axes (g.shape arg).length keywords = .ok axes := by
  constructor
  · rintro ⟨result, h⟩
    obtain ⟨-, axes, -, haxes, -⟩ := of_apply h
    exact ⟨axes, haxes⟩
  · rintro ⟨axes, haxes⟩
    obtain ⟨first, hfirst⟩ := hf.neutral (f.op.accumulatorSize (g.elemSize arg))
    refine ⟨g.applyReduction f.op arg axes (f.op.accumulatorSize (g.elemSize arg)) first, ?_⟩
    rw [apply, hscalar]
    refine bind_of_ok haxes ?_
    dsimp only
    rw [hfirst]

/-- Folds one axis after another. -/
def applyEach (f : Reduction) (g : Graph) (arg : NodeId) :
    List Int64 → Except BuildFault (NodeId × Graph)
  | [] => .ok (arg, g)
  | axis :: rest => do
    let (dst, g') ← f.apply g [arg] (Table.empty.insert "axis" axis)
    f.applyEach g' dst rest

/-- Axes that can be folded one after another, until none is left. -/
def Orders : Nat → List Int64 → Prop
  | 0, [] => True
  | rank + 1, axis :: rest => (∃ axes, Selects (rank + 1) axes (some axis)) ∧ Orders rank rest
  | _, _ => False

end Reduction

/-- A body over two placeholders applies its operator to what stands for them. -/
theorem Graph.Opens.innerValue_pair {b : FunctionBuilder} {g₁ : Graph} {outer outer' x y : NodeId}
    (h : b.graph.Opens b.entry [(outer, x), (outer', y)] g₁) (sizes : Table String Nat)
    (size : ElemSize) (op : BinOp) (kind : NodeKind) (op₂ : OpKind) (ins₂ : List NodeId)
    (val : Valuation) (v w : Literal) :
    Meaning.innerValue ⟨g₁.closeBody size (.binary op) [x, y] none kind op₂ ins₂, sizes⟩ val [x, y]
      ⟨g₁.nodes.size⟩ [v, w] = Meaning.ofArithmetic (v.binary op w size) := by
  have hread : ∀ p ∈ [(x, v), (y, w)],
      Meaning.scalar (Meaning.inside val [x, y] [v, w]) p.1 = .ok p.2 := by
    intro p hp
    have hget : (Scope.ofList ([x, y].zip [v, w])).get? p.1 = some p.2 :=
      Scope.get?_ofList_of_mem h.nodup hp
    rw [Meaning.scalar_eq_ok, Meaning.inside, hget]
  rw [h.innerValue_closeBody, Meaning.scalarOp_binary, hread (x, v) (by simp),
    hread (y, w) (by simp)]
  rfl

namespace FunctionBuilder.Bound

variable {sz : ElemSize} {b : FunctionBuilder} {inputs : List Value} {given : GivenValues}
  {sizes : Table String Nat}

/-- A reduction that is added starts from its constant, and its body applies its operator. -/
theorem exists_reduction (h : Bound sz b inputs given sizes) {op : BinOp} {arg : NodeId}
    (harg : b.Has arg) (hscalar : b.graph.isScalar arg = false) {axes : List Nat} {size : ElemSize}
    {first : Literal} {dst : NodeId} {g' : Graph} (htyped : op.Typed (b.graph.elemSize arg) size size)
    (hadded : b.graph.applyReduction op arg axes size first = (dst, g')) :
    ∃ init inner holes, meaning ⟨g', sizes⟩ given init = .ok (.scalar (first.convert size)) ∧
      meaning ⟨g', sizes⟩ given dst =
        Meaning.reduction ⟨g', sizes⟩ (meaning ⟨g', sizes⟩ given) axes arg init holes inner dst ∧
      ∀ v w, Meaning.innerValue ⟨g', sizes⟩ (meaning ⟨g', sizes⟩ given) holes inner [v, w] =
        Meaning.ofArithmetic (v.binary op w size) := by
  have hv := h.wellFormed.valid
  have hproduces : b.graph.Produces b.entry (dst, g') _ :=
    hadded ▸ Graph.produces_reduction hv harg hscalar htyped
  rw [Graph.applyReduction_eq_closeBody] at hadded
  -- The body has placeholders for an element and for its cell, which starts from a constant.
  have hinit := (Graph.Opens.nil hv.entry).addConstant first size
  have hnode : (b.graph.addConstant first size).2.node (b.graph.addConstant first size).1 =
      ⟨none, .constant first size, none, []⟩ := Graph.addNode_node_self ..
  have hlt : (b.graph.addConstant first size).1.index <
      (b.graph.addConstant first size).2.nodes.size := by simp
  have hnew : b.graph.nodes.size ≤ (b.graph.addConstant first size).1.index := Nat.le_refl _
  generalize b.graph.addConstant first size = init at *
  have hx : b.graph.Opens b.entry [(arg, (init.2.placeholder arg).1)] (init.2.placeholder arg).2 :=
    hinit.addScalar arg _ _
  have hext : init.2.Extends (init.2.placeholder arg).2 := (Graph.Extends.refl _).addNode _ _
  dsimp only at hadded
  generalize init.2.placeholder arg = x at *
  have hopen : b.graph.Opens b.entry [(arg, x.1), (init.1, (x.2.addScalar none size).1)]
      (x.2.addScalar none size).2 := hx.addScalar init.1 none size
  have hext := hext.addNode none (.scalar size)
  change init.2.Extends (x.2.addScalar none size).2 at hext
  generalize x.2.addScalar none size = acc at *
  obtain ⟨rfl, rfl⟩ := Prod.mk.inj hadded
  have hext := hext.trans (acc.2.closeBody_extends size (.binary op) [x.1, acc.1] none
    (Graph.reductionKind size (Graph.withoutAxes axes (b.graph.shape arg)))
    (.reduction axes ⟨[(arg, x.1), (init.1, acc.1)], [(⟨acc.2.nodes.size⟩,
      ⟨acc.2.nodes.size + 1⟩)]⟩ [init.1]) [arg, init.1])
  refine ⟨init.1, ⟨acc.2.nodes.size⟩, [x.1, acc.1], ?_, ?_, fun v w =>
    hopen.innerValue_pair sizes size op _ _ _ _ v w⟩
  · have hconstant : (init.2.node init.1).constant? = some first := by rw [hnode]; rfl
    have hsize : init.2.elemSize init.1 = size := by rw [Graph.elemSize, hnode]; rfl
    rw [← hext.constant_eq hlt] at hconstant
    rw [← hext.elemSize_eq hlt] at hsize
    generalize acc.2.closeBody _ _ _ _ _ _ _ = g' at hconstant hsize ⊢
    rw [@meaning_of_constant ⟨g', sizes⟩ given init.1 first
      (h.givenBy.get?_eq_none (hv.entry.not_given hnew).1) hconstant, hsize]
  · exact h.meaning_closeBody hopen (fun v sz => by unfold Graph.reductionKind; split <;> simp)
      hproduces

/-- A call of a reduction with a tensor of booleans or integers computes totals. -/
theorem exists_totals (h : Bound sz b inputs given sizes) {f : Reduction} (hf : f.Sound)
    {arg : NodeId} (harg : b.Has arg) {keywords : Table String Int64} {dst : NodeId} {g' : Graph}
    (happly : f.apply b.graph [arg] keywords = .ok (dst, g'))
    (hesz : (b.graph.elemSize arg).isFloatingPoint = false) {shape : List Nat} {data : Array Literal}
    (hvalue : meaning ⟨b.graph, sizes⟩ given arg = .ok (.tensor shape data))
    (hfits : Index.size shape < Word.count) {axes : List Nat}
    (haxes : f.axes shape.length keywords = .ok axes)
    (hout : Index.size (Graph.withoutAxes axes shape) < Word.count) :
    b.Grown { b with graph := g' } ∧ ({ b with graph := g' } : FunctionBuilder).Has dst ∧
      g'.elemSize dst = f.op.accumulatorSize (b.graph.elemSize arg) ∧
      ∃ y, meaning ⟨g', sizes⟩ given dst = .ok y ∧ Value.Totals f.op
        (f.op.accumulatorSize (b.graph.elemSize arg)) axes (.tensor shape data) y := by
  have hv := h.wellFormed.valid
  obtain ⟨-, hdims, hcount, hdata⟩ := h.types harg hvalue
  have hlengths := Meaning.forall₂_of_dims hdims
  obtain ⟨hscalar, axes', first, haxes', hfirst, hadded⟩ := Reduction.of_apply happly
  obtain rfl : axes' = axes := by
    rw [hlengths.length_eq, haxes] at haxes'
    exact (Except.ok.inj haxes').symm
  have hsz := f.op.accumulatorSize_not_float hesz
  have hcombine := fun v cell => @Literal.exists_combine f.op hf _ hesz v cell
  have htyped := hf.typed (b.graph.elemSize arg)
  generalize f.op.accumulatorSize (b.graph.elemSize arg) = size at *
  obtain ⟨init, inner, holes, hinit, hdst, hbody⟩ := h.exists_reduction harg hscalar htyped hadded
  have hproduces : b.graph.Produces b.entry (dst, g') _ :=
    hadded ▸ Graph.produces_reduction hv harg hscalar htyped
  have hgrown : b.Grown { b with graph := g' } := .of_produces hv hproduces
  have hsize : g'.elemSize dst = size := by
    rw [Graph.elemSize_of_type hproduces.type, Graph.elemSize_reductionType]
  refine ⟨hgrown, hproduces.available, hsize, ?_⟩
  rw [← h.meaning_grown hgrown harg] at hvalue
  have hholds := BinOp.holds_neutralElement hfirst
  rw [Literal.convert_eq_self hholds hsz] at hinit
  have hstart : first.asInt = f.op.start size := by rw [BinOp.start, hfirst]; rfl
  have hnone : g'.isScalar dst = true ↔ Graph.withoutAxes axes' shape = [] := by
    have hshapes := forall₂_withoutAxes axes' hlengths
    rw [Graph.isScalar_of_type hproduces.type, Graph.isScalar_reductionType, List.isEmpty_iff,
      ← List.length_eq_zero_iff, hshapes.length_eq, List.length_eq_zero_iff]
  rw [hdst]
  -- One step of the loop combines a cell with an element in the type of the accumulator.
  refine Meaning.exists_totals hvalue hinit hstart hholds (fun v cell hvElem hcell => ?_)
    (fun idx hidx => Value.exists_get? hcount hdata hfits hidx) hout hnone
  obtain ⟨w, hw, hwHolds, hword⟩ := hcombine v cell hvElem hcell
  have hinner := (hbody v cell).trans (congrArg Meaning.ofArithmetic hw)
  refine ⟨w, bind_of_ok hinner ?_, hwHolds, hword⟩
  rw [hsize, Literal.convert_eq_self hwHolds hsz]

/-- A call with a tensor succeeds if its axes are in range. -/
theorem apply_eq_ok_iff (h : Bound sz b inputs given sizes) {f : Reduction} (hf : f.Sound)
    {arg : NodeId} (harg : b.Has arg) {shape : List Nat} {data : Array Literal}
    (hvalue : meaning ⟨b.graph, sizes⟩ given arg = .ok (.tensor shape data))
    {keywords : Table String Int64} : (∃ result, f.apply b.graph [arg] keywords = .ok result) ↔
      ∃ axes, f.axes shape.length keywords = .ok axes := by
  obtain ⟨hscalar, hdims, -⟩ := h.types harg hvalue
  rw [hf.apply_eq_ok_iff hscalar, (Meaning.forall₂_of_dims hdims).length_eq]

/-- Folding all axes one after another leaves the total of all elements. -/
theorem exists_applyEach {f : Reduction} (hf : f.Sound) {order : List Int64} :
    ∀ {b : FunctionBuilder} {arg : NodeId} {shape : List Nat} {data : Array Literal},
      Bound sz b inputs given sizes → b.Has arg →
      (b.graph.elemSize arg).isFloatingPoint = false →
      meaning ⟨b.graph, sizes⟩ given arg = .ok (.tensor shape data) →
      (∀ sub : List Nat, sub.Sublist shape → Index.size sub < Word.count) → shape ≠ [] →
      Reduction.Orders shape.length order →
      ∃ last g' v, f.applyEach b.graph arg order = .ok (last, g') ∧
        ({ b with graph := g' } : FunctionBuilder).Computes inputs last (.scalar v) ∧
        (f.op.accumulatorSize (b.graph.elemSize arg)).Holds v ∧
        v.asInt = f.op.total (f.op.start (f.op.accumulatorSize (b.graph.elemSize arg)))
          (Value.tensor shape data).elements := by
  -- One axis is folded at a time, and the total of all elements stays what it is.
  induction order with
  | nil =>
    intro b arg shape data h harg hesz hvalue hfits hne horder
    cases shape with
    | nil => exact absurd rfl hne
    | cons n rest => exact horder.elim
  | cons axis order ih =>
    intro b arg shape data h harg hesz hvalue hfits hne horder
    cases hrank : shape.length with
    | zero => exact absurd (List.length_eq_zero_iff.mp hrank) hne
    | succ rank =>
      rw [hrank] at horder
      obtain ⟨⟨axes, hselects⟩, horder⟩ := horder
      obtain ⟨i, hi, rfl, -⟩ := id hselects
      have haxes : f.axes shape.length (Table.empty.insert "axis" axis) = .ok [i] :=
        Reduction.axes_eq_ok_iff.mpr ⟨fun _ => List.mem_singleton.mp, hrank ▸ hselects⟩
      obtain ⟨⟨dst, g'⟩, happly⟩ := (h.apply_eq_ok_iff hf harg hvalue).mpr ⟨_, haxes⟩
      have hleft := Graph.withoutAxes_sublist [i] shape
      obtain ⟨hgrown, hdst, hsize, y, hy, htotals⟩ := h.exists_totals hf harg happly hesz hvalue
        (hfits shape (.refl _)) haxes (hfits _ hleft)
      have hacc := f.op.accumulatorSize_not_float hesz
      have hlength : y.shape.length = rank := by
        rw [htotals.shape, withoutAxes_singleton, Value.shape, List.length_eraseIdx_of_lt (by omega)]
        omega
      cases y with
      | scalar v =>
        -- No axis is left, so this was the last one.
        obtain rfl : rank = 0 := hlength.symm
        cases order with
        | cons => exact horder.elim
        | nil =>
          obtain ⟨w, hw, hholds, hword⟩ := htotals.exists_scalar hacc rfl
          obtain rfl := Value.scalar.inj hw
          refine ⟨dst, g', v, bind_of_ok happly rfl, (h.grow hgrown).computes hdst hy, hholds, hword⟩
      | tensor shape' data' =>
        have hshape : shape' = Graph.withoutAxes [i] shape := htotals.shape
        have hsub : shape'.Sublist shape := hshape ▸ hleft
        have hne' : shape' ≠ [] := fun hnil => by
          obtain ⟨v, hv⟩ := htotals.scalar hnil
          cases hv
        obtain ⟨last, g₂, v, heach, hcomputes, hholds, hword⟩ := ih (h.grow hgrown) hdst
          (hsize ▸ hacc) hy (fun sub hsub' => hfits sub (hsub'.trans hsub)) hne' (hlength ▸ horder)
        have hagain : f.op.accumulatorSize (g'.elemSize dst) =
            f.op.accumulatorSize (b.graph.elemSize arg) := by
          rw [hsize, f.op.accumulatorSize_accumulatorSize]
        rw [hagain] at hholds hword
        exact ⟨last, g₂, v, bind_of_ok happly heach, hcomputes, hholds,
          hword.trans (htotals.total_eq hacc)⟩

end FunctionBuilder.Bound

/-! ## Reductions -/

/-- The functions of the numeric library, and the operators that they fold with. -/
theorem NumericLibrary.find_standard {package name : String} {op : BinOp}
    (hpackage : package ∈ ["np", "numpy"])
    (hname : (name, op) ∈ [("sum", .add), ("prod", .mul), ("max", .max), ("min", .min)]) :
    standard.find package name = .ok ⟨name, op⟩ := by
  have hget : standard.functions.get? name = some ⟨name, op⟩ := by
    simp only [List.mem_cons, Prod.mk.injEq, List.not_mem_nil, or_false] at hname
    rcases hname with ⟨rfl, rfl⟩ | ⟨rfl, rfl⟩ | ⟨rfl, rfl⟩ | ⟨rfl, rfl⟩ <;> decide
  have hcontains : standard.packages.contains package = true := List.contains_iff_mem.mpr hpackage
  rw [find, if_pos hcontains, hget]

/-- A kernel that sums a tensor along the last of three axes. -/
def summedAlongLast : FunctionDef :=
  let name (id : String) : Expr := .name id .nowhere
  let sizes : Expr := .tuple [name "M", name "N", name "K"] .nowhere
  let sum : Expr := .call (.member (name "np") "sum" .nowhere) [name "x"]
    [.mk "axis" (.int 2 .nowhere) .nowhere] .nowhere
  ⟨"f", [⟨"x", some (.subscript (name "int64") sizes .nowhere), .nowhere⟩], .missing,
    [.returns (some sum) .nowhere], .nowhere⟩

end TensorKernel
