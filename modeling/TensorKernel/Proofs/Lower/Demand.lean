import TensorKernel.Lower.Operator
import TensorKernel.Proofs.Graph.Acyclic

/-!
# What lowering asks for

As in evaluation, the rules of lowering are given a function `need` for the names of other nodes,
and look at it only at the nodes that they ask for.  Besides what an operator reads these are the
nodes that the sizes of the allocated buffers are computed by.  The main statement is
`LowerM.nodeRule_congr`: lowering a node asks only for nodes that it needs.
-/

namespace TensorKernel

namespace LowerM

open Buffer (Operand)

variable {g : Graph} {need need' : NodeId → LowerM Name}

/-! ## Operands -/

theorem operand_congr {id : NodeId} (h : need id = need' id) :
    operand g need id = operand g need' id := by
  simp only [operand, h]

theorem typedName_congr {id : NodeId} (h : need id = need' id) :
    typedName g need id = typedName g need' id := by
  simp only [typedName, h]

theorem indexValue_congr {id : NodeId} (h : need id = need' id) :
    indexValue g need id = indexValue g need' id := by
  simp only [indexValue, typedName_congr h]

theorem operands_congr {ids : List NodeId} (h : ∀ id ∈ ids, need id = need' id) :
    operands g need ids = operands g need' ids := by
  induction ids with
  | nil => rfl
  | cons id ids ih =>
    obtain ⟨hid, hids⟩ := List.forall_mem_cons.mp h
    simp only [operands, operand_congr hid, ih hids]

theorem indexValues_congr {ids : List NodeId} (h : ∀ id ∈ ids, need id = need' id) :
    indexValues g need ids = indexValues g need' ids := by
  induction ids with
  | nil => rfl
  | cons id ids ih =>
    obtain ⟨hid, hids⟩ := List.forall_mem_cons.mp h
    simp only [indexValues, indexValue_congr hid, ih hids]

theorem prepare_congr {ids : List NodeId} (h : ∀ id ∈ ids, need id = need' id) :
    prepare need ids = prepare need' ids := by
  induction ids with
  | nil => rfl
  | cons id ids ih =>
    obtain ⟨hid, hids⟩ := List.forall_mem_cons.mp h
    simp only [prepare, hid, ih hids]

/-! ## Dimensions and buffers -/

theorem dimIndex_congr {d : Dim} (h : ∀ id, d = .node id → need id = need' id) :
    dimIndex g need d = dimIndex g need' d := by
  cases d with
  | const n | sym name => rfl
  | node id => simp only [dimIndex, indexValue_congr (h id rfl)]

theorem dynamicSizes_congr {shape : Shape} (h : ∀ id, .node id ∈ shape → need id = need' id) :
    dynamicSizes g need shape = dynamicSizes g need' shape := by
  induction shape with
  | nil => rfl
  | cons d shape ih =>
    have hd : dimIndex g need d = dimIndex g need' d :=
      dimIndex_congr fun id hid => h id (hid ▸ List.mem_cons_self ..)
    simp only [dynamicSizes, hd, ih fun id hid => h id (List.mem_cons_of_mem _ hid)]

theorem alloc_congr (sz : ElemSize) {shape : Shape}
    (h : ∀ id, .node id ∈ shape → need id = need' id) :
    alloc g need sz shape = alloc g need' sz shape := by
  simp only [alloc, dynamicSizes_congr h]

theorem allocNode_congr {dst : NodeId} (h : ∀ id, .node id ∈ g.shape dst → need id = need' id) :
    allocNode g need dst = allocNode g need' dst :=
  alloc_congr _ h

theorem allocNodes_congr {dsts : List NodeId}
    (h : ∀ dst ∈ dsts, ∀ id, .node id ∈ g.shape dst → need id = need' id) :
    allocNodes g need dsts = allocNodes g need' dsts := by
  induction dsts with
  | nil => rfl
  | cons dst dsts ih =>
    obtain ⟨hdst, hdsts⟩ := List.forall_mem_cons.mp h
    simp only [allocNodes, allocNode_congr hdst, ih hdsts]

/-! ## Bodies -/

theorem yielded_congr {outputs : List (NodeId × NodeId)}
    (h : ∀ id ∈ outputs.map Prod.fst, need id = need' id) :
    yielded g need outputs = yielded g need' outputs := by
  induction outputs with
  | nil => rfl
  | cons output outputs ih =>
    obtain ⟨houtput, houtputs⟩ := List.forall_mem_cons.mp h
    simp only [yielded, typedName_congr houtput, ih houtputs]

/-- The region of a body asks for the nodes that the body computes. -/
theorem bodyRegion_congr {rule : Body} (h : ∀ id ∈ rule.reads, need id = need' id)
    (args : List (NodeId × Operand)) : bodyRegion g need rule args = bodyRegion g need' rule args := by
  have houtputs : yielded g need rule.outputs = yielded g need' rule.outputs :=
    yielded_congr fun id hid => h id (List.mem_append_right _ hid)
  simp only [bodyRegion, houtputs]

/-! ## Operators -/

theorem elementwise_congr {op : Op} {rule : Body} (hinputs : ∀ id ∈ op.inputs, need id = need' id)
    (hrule : ∀ id ∈ rule.reads, need id = need' id)
    (hdims : ∀ dst ∈ rule.outputs.map Prod.snd, ∀ id, .node id ∈ g.shape dst →
      need id = need' id) :
    elementwise g need op rule = elementwise g need' op rule := by
  have houter : operands g need (rule.inputs.map Prod.fst) =
      operands g need' (rule.inputs.map Prod.fst) :=
    operands_congr fun id hid => hrule id (List.mem_append_left _ (List.mem_append_left _ hid))
  simp only [elementwise, prepare_congr hinputs, houter, allocNodes_congr hdims,
    bodyRegion_congr hrule]

theorem reduction_congr {op : Op} {axes : List Nat} {rule : Body}
    (hinputs : ∀ id ∈ op.inputs, need id = need' id)
    (hrule : ∀ id ∈ rule.reads, need id = need' id)
    (hdims : ∀ dst ∈ rule.outputs.map Prod.snd, ∀ id, .node id ∈ g.shape dst →
      need id = need' id) :
    reduction g need op axes rule = reduction g need' op axes rule := by
  unfold reduction
  split
  · next arg init _ _ _ _ heq _ =>
    have harg : operand g need arg = operand g need' arg :=
      operand_congr (hinputs arg (by simp [heq]))
    have hinit : need init = need' init := hinputs init (by simp [heq])
    split
    · next dst houtputs =>
      have hcell : tensorCell g need dst = tensorCell g need' dst := by
        funext start
        simp only [tensorCell, allocNode_congr (hdims dst (by simp [houtputs]))]
      simp only [harg, hinit, hcell, bodyRegion_congr hrule]
    · rfl
  · rfl

theorem getItem_congr {target : NodeId} {indices : List NodeId} (htarget : need target = need' target)
    (hindices : ∀ id ∈ indices, need id = need' id) (dst : NodeId) :
    getItem g need target indices dst = getItem g need' target indices dst := by
  simp only [getItem, operand_congr htarget, indexValues_congr hindices]

theorem setItem_congr {target value dst : NodeId} {indices : List NodeId}
    (htarget : need target = need' target) (hvalue : need value = need' value)
    (hindices : ∀ id ∈ indices, need id = need' id)
    (hdims : ∀ id, .node id ∈ g.shape dst → need id = need' id) :
    setItem g need target value indices dst = setItem g need' target value indices dst := by
  simp only [setItem, operand_congr htarget, typedName_congr hvalue, indexValues_congr hindices,
    allocNode_congr hdims]

theorem axisStart_congr {selected : Option SliceIndex}
    (h : ∀ i ∈ selected, ∀ id ∈ i.nodes, need id = need' id) :
    axisStart g need selected = axisStart g need' selected := by
  cases selected with
  | none => rfl
  | some i =>
    cases i with
    | element id => simp only [axisStart, indexValue_congr (h _ rfl id (List.mem_cons_self ..))]
    | range lower upper step =>
      have hlower : need lower = need' lower := h _ rfl lower (by simp [SliceIndex.nodes])
      have hstep : need step = need' step := h _ rfl step (by simp [SliceIndex.nodes])
      simp only [axisStart, indexValue_congr hlower, indexValue_congr hstep]

theorem axisViews_congr {sizes : Shape} (hsizes : ∀ id, .node id ∈ sizes → need id = need' id) :
    ∀ {selected : List SliceIndex}, (∀ i ∈ selected, ∀ id ∈ i.nodes, need id = need' id) →
      axisViews g need selected sizes = axisViews g need' selected sizes := by
  induction sizes with
  | nil => exact fun _ => rfl
  | cons size sizes ih =>
    intro selected hselected
    have hsize : dimIndex g need size = dimIndex g need' size :=
      dimIndex_congr fun id hid => hsizes id (hid ▸ List.mem_cons_self ..)
    have hstart : axisStart g need selected.head? = axisStart g need' selected.head? :=
      axisStart_congr fun i hi => hselected i (List.mem_of_head? hi)
    have hrest : axisViews g need selected.tail sizes = axisViews g need' selected.tail sizes :=
      ih (fun id hid => hsizes id (List.mem_cons_of_mem _ hid)) fun i hi =>
        hselected i (List.mem_of_mem_tail hi)
    simp only [axisViews, hsize, hstart, hrest]

theorem slice_congr {target dst : NodeId} {selected : List SliceIndex} {sizes : Shape}
    (htarget : need target = need' target)
    (hselected : ∀ i ∈ selected, ∀ id ∈ i.nodes, need id = need' id)
    (hsizes : ∀ id, .node id ∈ sizes → need id = need' id) :
    slice g need target selected sizes dst = slice g need' target selected sizes dst := by
  have hviews : axisViews g need selected (sizes.take (g.shape target).length) =
      axisViews g need' selected (sizes.take (g.shape target).length) :=
    axisViews_congr (fun id hid => hsizes id (List.mem_of_mem_take hid)) hselected
  simp only [slice, operand_congr htarget, hviews, alloc_congr _ hsizes]

theorem copy_congr {src dst : NodeId} (hsrc : need src = need' src)
    (hdims : ∀ id, .node id ∈ g.shape dst → need id = need' id) (deep : Bool) :
    copy g need src dst deep = copy g need' src dst deep := by
  have hconvert : convertTensor g need src dst = convertTensor g need' src dst := by
    simp only [convertTensor, operand_congr hsrc, allocNode_congr hdims]
  simp only [copy, typedName_congr hsrc, hconvert, operand_congr hsrc, allocNode_congr hdims, hsrc]

/-- Lowering an operator asks for what it reads and for the sizes of its result. -/
theorem operator_congr {op : Op} (h : ∀ other, g.Asks op other → need other = need' other) :
    operator g need op = operator g need' op := by
  have hinputs : ∀ id ∈ op.inputs, need id = need' id := fun id hid =>
    h id (Or.inl (List.mem_append_left _ hid))
  have hkind : ∀ id ∈ op.kind.reads, need id = need' id := fun id hid =>
    h id (Or.inl (List.mem_append_right _ hid))
  have hdims : ∀ dst ∈ op.outputs ++ op.kind.results, ∀ id, .node id ∈ g.shape dst →
      need id = need' id := fun dst hdst id hid => h id (Or.inr ⟨dst, hdst, hid⟩)
  -- Operators with too few operands or without a result ask for nothing and fail.
  obtain ⟨kind, inputs, outputs⟩ := op
  cases outputs with
  | nil => rfl
  | cons dst outputs =>
    have hdst := hdims dst (List.mem_append_left _ (List.mem_cons_self ..))
    cases kind with
    | unary unop =>
      cases inputs with
      | nil => rfl
      | cons arg inputs => simp only [operator, typedName_congr (hinputs arg (by simp))]
    | binary binop =>
      match inputs with
      | [] | [_] => rfl
      | lhs :: rhs :: inputs =>
        simp only [operator, typedName_congr (hinputs lhs (by simp)),
          typedName_congr (hinputs rhs (by simp))]
    | elementwise rule =>
      exact elementwise_congr hinputs hkind fun dst hdst =>
        hdims dst (List.mem_append_right _ hdst)
    | reduction axes rule init =>
      exact reduction_congr hinputs (fun id hid => hkind id (List.mem_append_left _ hid))
        fun dst hdst => hdims dst (List.mem_append_right _ hdst)
    | getItem =>
      cases inputs with
      | nil => rfl
      | cons target inputs =>
        obtain ⟨htarget, hindices⟩ := List.forall_mem_cons.mp hinputs
        exact getItem_congr htarget hindices dst
    | setItem =>
      match inputs with
      | [] | [_] => rfl
      | target :: value :: inputs =>
        obtain ⟨htarget, hrest⟩ := List.forall_mem_cons.mp hinputs
        obtain ⟨hvalue, hindices⟩ := List.forall_mem_cons.mp hrest
        exact setItem_congr htarget hvalue hindices hdst
    | slice selected sizes =>
      cases inputs with
      | nil => rfl
      | cons target inputs =>
        refine slice_congr (hinputs target (List.mem_cons_self ..)) (fun i hi id hid => ?_)
          fun id hid => ?_
        · exact hkind id (List.mem_append_left _ (List.mem_flatMap.mpr ⟨i, hi, hid⟩))
        · exact hkind id (List.mem_append_right _ (List.mem_filterMap.mpr ⟨_, hid, rfl⟩))
    | copy | deepCopy =>
      cases inputs with
      | nil => rfl
      | cons src inputs => exact copy_congr (hinputs src (List.mem_cons_self ..)) hdst _

/-- Lowering a node asks only for nodes that it needs. -/
theorem nodeRule_congr {e : Entry} (hv : g.Valid e) (hs : g.Settled e) {id : NodeId}
    (h : ∀ other, g.Needs id other → need other = need' other) :
    nodeRule g need id = nodeRule g need' id := by
  cases hconstant : (g.node id).constant? with
  | some v => simp only [nodeRule, hconstant]
  | none =>
    cases hproducer : (g.node id).producer with
    | none => simp only [nodeRule, hconstant, hproducer]
    | some o =>
      have hop : operator g need (g.op o) = operator g need' (g.op o) :=
        operator_congr fun other hasks => h other (hv.needs_of_asks hs hproducer hasks)
      simp only [nodeRule, hconstant, hproducer, hop]

end LowerM

end TensorKernel
