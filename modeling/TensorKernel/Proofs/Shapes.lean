import TensorKernel.Proofs.ClosedBodies

/-!
# Shapes after a call

`Graph.Shaped` says of a graph that every operator gives its results the shapes that its operands call
for.  Every graph that is built for a kernel is shaped (`FunctionGraph.Formed.shaped`).

A call puts a copy of such a graph behind another one and replaces its symbols, and nothing is checked
again.  Two symbols may become one, and a symbol may become a one, which broadcasts.  The copy is
shaped all the same, because a dimension that is replaced by a one was paired with itself and with
ones only (`Shape.broadcast?_map`), and because the ones in front that a slice drops are constants.
-/

namespace TensorKernel

namespace Graph

/--
An operator gives its results the shapes that its operands call for.  A slice drops any number of ones
in front.  Operators on scalars have no shapes.
-/
def OpShaped (g : Graph) (op : Op) : Prop :=
  match op.kind, op.inputs with
  | .unary _, _ | .binary _, _ => True
  | .elementwise _, operands => ∀ dst ∈ op.outputs,
    Combination.chain (operands.map g.shape) (some []) = some (g.shape dst)
  | .reduction axes _ _, arg :: _ => ∀ dst ∈ op.outputs, g.shape dst = withoutAxes axes (g.shape arg)
  | .getItem, target :: is => is.length = (g.shape target).length
  | .setItem, target :: _ :: is => is.length = (g.shape target).length ∧
    ∀ dst ∈ op.outputs, g.shape dst = g.shape target
  | .slice _ sizes, _ => ∀ dst ∈ op.outputs, ∃ n,
    (∀ d ∈ sizes.take n, d = .const 1) ∧ g.shape dst = sizes.drop n
  | .copy, src :: _ | .deepCopy, src :: _ => ∀ dst ∈ op.outputs, g.shape dst = g.shape src
  | _, _ => False

/-- Every operator gives its results the shapes that its operands call for. -/
def Shaped (g : Graph) : Prop :=
  ∀ o : OpId, o.index < g.ops.size → g.OpShaped (g.op o)

/-! ## Copies of graphs -/

section Relocated

variable {g g' : Graph} {r : Relocation}
  (hshape : ∀ id, g'.shape (r.node id) = (g.shape id).map r.dim)
include hshape

/-- Operators stay shaped where all shapes have other dimensions in them. -/
theorem OpShaped.relocated {op : Op} (h : g.OpShaped op) : g'.OpShaped (r.opData op) := by
  obtain ⟨kind, inputs, outputs⟩ := op
  -- What is said of each result is said of its copy.
  have hall {P : NodeId → Prop} (hP : ∀ dst ∈ outputs, P (r.node dst)) :
      ∀ dst ∈ outputs.map r.node, P dst := by
    intro dst hdst
    obtain ⟨dst', hdst', rfl⟩ := List.mem_map.mp hdst
    exact hP dst' hdst'
  cases kind with
  | unary op | binary op => trivial
  | elementwise body =>
    refine hall fun dst hdst => ?_
    have hoperands : (inputs.map r.node).map g'.shape =
        (inputs.map g.shape).map (List.map r.dim) := by
      rw [List.map_map, List.map_map]
      exact List.map_congr_left fun id _ => hshape id
    show Combination.chain ((inputs.map r.node).map g'.shape) (some []) = _
    rw [hoperands, hshape]
    exact Combination.chain_map rfl (h dst hdst)
  | reduction axes body init =>
    cases inputs with
    | nil => cases h
    | cons arg rest =>
      refine hall fun dst hdst => ?_
      rw [hshape, hshape, h dst hdst, withoutAxes_map]
  | getItem =>
    cases inputs with
    | nil => cases h
    | cons target is =>
      show (is.map r.node).length = (g'.shape (r.node target)).length
      rw [hshape, List.length_map, List.length_map]
      exact h
  | setItem =>
    cases inputs with
    | nil => cases h
    | cons target rest =>
      cases rest with
      | nil => cases h
      | cons value is =>
        refine ⟨?_, hall fun dst hdst => ?_⟩
        · rw [hshape, List.length_map, List.length_map]
          exact h.1
        · rw [hshape, hshape, h.2 dst hdst]
  | slice selected sizes =>
    refine hall fun dst hdst => ?_
    obtain ⟨n, hones, hdrop⟩ := h dst hdst
    refine ⟨n, fun d hd => ?_, ?_⟩
    · rw [← List.map_take] at hd
      obtain ⟨d', hd', rfl⟩ := List.mem_map.mp hd
      rw [hones d' hd']
      rfl
    · rw [hshape, hdrop, List.map_drop]
  | copy | deepCopy =>
    cases inputs with
    | nil => cases h
    | cons src rest =>
      refine hall fun dst hdst => ?_
      rw [hshape, hshape, h dst hdst]

end Relocated

/-- Every node of a copy has its shape with other dimensions in it; places outside have none. -/
theorem shape_splice (g other : Graph) (symbol : String → Dim) (id : NodeId) :
    (g.splice other symbol).2.shape ((g.relocation symbol).node id) =
      (other.shape id).map (g.relocation symbol).dim := by
  by_cases hid : id.index < other.nodes.size
  · rw [shape, shape, Node.shape, Node.shape, splice_node_relocated g other symbol hid,
      Relocation.nodeData_type, Relocation.shape_type]
  · have hge := Nat.le_of_not_lt hid
    have houtside : (g.splice other symbol).2.nodes.size ≤
        ((g.relocation symbol).node id).index := by
      rw [splice_nodes_size]
      simp only [Relocation.node, relocation]
      omega
    rw [shape, shape, node_of_size_le hge, node_of_size_le houtside]
    rfl

/-! ## Built graphs -/

theorem ScalarOp.shaped {g : Graph} {ok : NodeId → Prop} {op : Op} {dst : NodeId}
    (h : g.ScalarOp ok op dst) : g.OpShaped op := by
  cases h <;> trivial

/-- The operators of a well-formed graph are shaped, those on elements if they combine shapes. -/
theorem OpValid.shaped {g : Graph} {e : Entry} {avail : NodeId → Prop} {op : Op} {dst : NodeId}
    (h : g.OpValid e avail op dst) (hcombines : g.Combines op) : g.OpShaped op := by
  cases h with
  | scalar hop => exact hop.shaped
  | elementwise hinputs houter sdst size body =>
    obtain ⟨dst', houtputs, -, -, hcombined⟩ := hcombines _ rfl
    obtain rfl := List.singleton_inj.mp houtputs
    simpa [OpShaped] using hcombined
  | reduction harg hinit sarg sinit isize full partly size body =>
    refine List.forall_mem_singleton.mpr ?_
    cases hscalar : g.isScalar dst with
    | true => rw [shape_of_isScalar hscalar, full hscalar]
    | false => exact partly hscalar
  | getItem htarget starget hindices rank sdst size => exact rank
  | setItem htarget starget hvalue svalue hindices rank type =>
    exact ⟨rank, List.forall_mem_singleton.mpr (congrArg KernelType.shape type)⟩
  | slice htarget starget hselected selectedLe rank hsizes trims sdst size =>
    obtain ⟨n, hdrop, -, hones⟩ := trims
    exact List.forall_mem_singleton.mpr ⟨n, fun d hd => Dim.isOne_iff.mp (hones d hd), hdrop⟩
  | copy hkind hsrc same =>
    have hsame := (shape_eq_of_sameShape same).2
    rcases hkind with rfl | rfl <;> exact List.forall_mem_singleton.mpr hsame

end Graph

/-- The graph of a kernel is shaped, whatever types its parameters were given. -/
theorem FunctionGraph.Formed.shaped {sz : ElemSize} {f : FunctionGraph} (h : f.Formed sz True)
    (hs : f.Settled) : f.graph.Shaped := by
  intro o ho
  have hcombines := (h.orderly trivial).combined o
  obtain ⟨dst, hop | ⟨ok, hop⟩⟩ := (h.enclosed trivial).op_cases h.wellFormed.valid hs.graph ho
  · exact hop.valid.shaped hcombines
  · exact hop.shaped

/--
A copy of a shaped graph behind any graph is shaped, whatever its symbols are replaced by, and each of
its nodes has the shape that comes of replacing them.  The graphs that are copied are shaped: every
graph that is built for a kernel of a module is, for any types of arguments whose constants are sizes.
-/
theorem Graph.splice_shaped :
    (∀ (g other : Graph) (symbol : String → Dim), other.Shaped →
      (∀ o : OpId, g.ops.size ≤ o.index → o.index < (g.splice other symbol).2.ops.size →
        (g.splice other symbol).2.OpShaped ((g.splice other symbol).2.op o)) ∧
      ∀ id, (g.splice other symbol).2.shape ((g.relocation symbol).node id) =
        (other.shape id).map (g.relocation symbol).dim) ∧
    ∀ (defs : List FunctionDef) (options : Options) (kernel : String) (given : List KernelType)
      (span : Span) (f : FunctionGraph), (∀ ty ∈ given, ty.Bounded) →
      ((Registry.ofDefs defs).instantiate .standard options kernel given span).1 = .ok f →
      f.graph.Shaped := by
  refine ⟨fun g other symbol hother => ⟨fun o hge hlt => ?_, shape_splice g other symbol⟩,
    fun defs options kernel given span f hgiven hf => ?_⟩
  · rw [splice_ops_size] at hlt
    obtain ⟨o', ho', rfl⟩ := exists_relocated_op g other symbol hge hlt
    rw [splice_op_relocated g other symbol ho']
    exact (hother o' ho').relocated (shape_splice g other symbol)
  · have hprovides := Registry.instantiate_provides options False True
      (Registry.ofDefs defs).functions False.elim (Registry.ofDefs defs).idle.length
      (Registry.ofDefs defs) rfl rfl (GraphCache.Formed.empty _ _) kernel given span
    have hempty : (Registry.ofDefs defs).cache.Settled := by
      intro key g hg
      cases hg
    have hsettled := Registry.instantiate_settled .standard options (Registry.ofDefs defs) hempty
      kernel given span hgiven
    exact (hprovides.ok f hf).shaped (hsettled.2 f hf)

/-- A kernel that adds a vector to every row of a matrix, in which two symbols stand for sizes. -/
def addedRows : List FunctionDef :=
  let name (id : String) : Expr := .name id .nowhere
  let tensor (sizes : List String) : Option Expr :=
    some (.subscript (name "int64") (.tuple (sizes.map name) .nowhere) .nowhere)
  [⟨"shift", [⟨"x", tensor ["M", "N"], .nowhere⟩, ⟨"y", tensor ["N"], .nowhere⟩], .missing,
    [.returns (some (.binary (name "x") .add (name "y") .nowhere)) .nowhere], .nowhere⟩]

theorem Graph.splice_shaped_ones :
    ∃ f, ((Registry.ofDefs addedRows).instantiate .standard .default "shift" [] .nowhere).1 =
        .ok f ∧ f.graph.Shaped ∧ f.graph.shape ⟨7⟩ = [.sym "M", .sym "N"] ∧
      (empty.splice f.graph fun _ => .const 1).2.Shaped ∧
      (empty.splice f.graph fun _ => .const 1).2.shape ⟨7⟩ = [.const 1, .const 1] := by
  have hbuilds : ((Registry.ofDefs addedRows).instantiate .standard .default "shift" []
      .nowhere).1.toOption.any (fun f =>
        decide (f.graph.shape ⟨7⟩ = [.sym "M", .sym "N"])) = true := by decide +kernel
  obtain ⟨f, hbuild, hchecks⟩ := exists_of_any_toOption hbuilds
  have hshape := of_decide_eq_true hchecks
  obtain ⟨hcopies, hbuilt⟩ := splice_shaped
  have hshaped := hbuilt addedRows .default "shift" [] .nowhere f (fun _ h => by cases h) hbuild
  obtain ⟨hops, hshapes⟩ := hcopies empty f.graph (fun _ => .const 1) hshaped
  refine ⟨f, hbuild, hshaped, hshape, fun o ho => hops o (Nat.zero_le _) ho, ?_⟩
  exact (hshapes ⟨7⟩).trans (by rw [hshape]; rfl)

end TensorKernel
