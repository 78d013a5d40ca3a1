import TensorKernel.Proofs.Emission.Operand
import TensorKernel.Proofs.Graph.Valid

/-!
# Statements for operators

The statements that an operator of a well-formed kind is lowered to are typed, if the nodes that it
reads get names of their types, and the node that it computes gets a name of its type.
-/

namespace TensorKernel

open Buffer (Holds Indices Operand Ty TypedIn Yields definitions)

/-- A node that lowering may ask for: it has a value, or it belongs to the body of an operator. -/
def Graph.Lowerable (g : Graph) (e : Entry) (id : NodeId) : Prop :=
  g.Available e id ∨ g.Hole e id ∨ ∃ o, (g.node id).producer = some o ∧
    g.ScalarOp (fun arg => g.Hole e arg ∨ g.Available e arg) (g.op o) id

/-- The type of the buffer that accumulates a reduction. -/
def Graph.cellType (g : Graph) (dst : NodeId) : Ty :=
  if g.isScalar dst then .memref (g.elemSize dst) [] else g.valueType dst

theorem isBuffer_cellType {g : Graph} (dst : NodeId) : (g.cellType dst).isBuffer = true := by
  unfold Graph.cellType
  cases sdst : g.isScalar dst with
  | true => rfl
  | false => exact isBuffer_valueType sdst

theorem element_cellType {g : Graph} (dst : NodeId) :
    (g.cellType dst).element = .scalar (g.elemSize dst) := by
  unfold Graph.cellType
  cases sdst : g.isScalar dst with
  | true => rfl
  | false => exact element_valueType sdst

namespace LowerM

variable {g : Graph} {castable : ElemSize → Prop} {fixed : Prop} {known : List Operand} {lo : Nat}
  {need : NodeId → LowerM Name} {s : LowerState} {ok : NodeId → Prop}

/-- The groups of merged axes split all axes in order. -/
theorem flatten_collapsedAxes {dropped rank : Nat} (h : dropped < rank) :
    (collapsedAxes dropped rank).flatten = List.range rank := by
  obtain ⟨rest, rfl⟩ := Nat.exists_eq_add_of_le (Nat.succ_le_of_lt h)
  have hsingle : ((List.range rest).map fun i => [dropped + 1 + i]).flatten =
      (List.range rest).map fun i => dropped + 1 + i := by
    rw [← List.flatMap_def, ← List.map_eq_flatMap]
  rw [collapsedAxes, List.flatten_cons, Nat.succ_eq_add_one, Nat.add_sub_cancel_left, hsingle,
    ← List.range_add]

theorem length_collapsedAxes {dropped rank : Nat} (h : dropped < rank) :
    (collapsedAxes dropped rank).length = rank - dropped := by
  simp only [collapsedAxes, List.length_cons, List.length_map, List.length_range]
  omega

theorem nil_not_mem_collapsedAxes (dropped rank : Nat) : [] ∉ collapsedAxes dropped rank := by
  simp [collapsedAxes]

/-! ## Bodies -/

theorem emits_bindArgs {args : List (NodeId × Operand)} : ∀ {known lo s},
    args.map Prod.snd ⊆ known → (∀ p ∈ args, p.2.type = g.valueType p.1) →
    Emits g castable fixed known lo (bindArgs args) s fun _ _ => True := by
  induction args with
  | nil => exact fun _ _ => emits_pure trivial
  | cons arg args ih =>
    intro known lo s hknown htypes
    rw [List.map_cons, List.cons_subset] at hknown
    obtain ⟨harg, htypes⟩ := List.forall_mem_cons.mp htypes
    refine (emits_name ?_).bind fun _ _ _ h₁ _ => ih (List.Subset.trans hknown.2 h₁) htypes
    rw [← harg]
    exact hknown.1

theorem emits_yielded (hneed : Gives g castable need ok) {pairs : List (NodeId × NodeId)} :
    ∀ {known lo s}, (∀ p ∈ pairs, ok p.1 ∧ g.isScalar p.1 = true) →
    Emits g castable fixed known lo (yielded g need pairs) s fun known' values =>
      (∀ v ∈ values, v ∈ known') ∧
        values.map Operand.type = pairs.map fun p => .scalar (g.elemSize p.2) := by
  induction pairs with
  | nil => exact fun _ => emits_pure (by simp)
  | cons p pairs ih =>
    intro known lo s hpairs
    obtain ⟨⟨hok, hscalar⟩, hpairs⟩ := List.forall_mem_cons.mp hpairs
    refine (emits_typedName hneed hok hscalar).bind fun v s₁ known₁ _ ⟨hv, _⟩ => ?_
    refine (emits_cast _ hv).bind fun n s₂ known₂ _ hn => ?_
    refine (ih hpairs).bind fun values s₃ known₃ h₃ ⟨hvalues, htypes⟩ => emits_pure ⟨?_, ?_⟩
    · exact List.forall_mem_cons.mpr ⟨h₃ hn, hvalues⟩
    · simp [htypes]

/-- The region of a body yields a value for every node that collects one. -/
theorem reserves_bodyRegion (hneed : Gives g castable need ok) {body : Body}
    (hbody : ∀ p ∈ body.outputs, ok p.1 ∧ g.isScalar p.1 = true) {args : List (NodeId × Operand)}
    (hargs : ∀ p ∈ args, p.2.type = g.valueType p.1) :
    Reserves g known (bodyRegion g need body args) s fun hi block =>
      Holds (TypedIn castable) (known ++ args.map Prod.snd) block ∧
        Yields (body.outputs.map fun p => .scalar (g.elemSize p.2)) block ∧
        Numbered s.counter hi (definitions block) := by
  rw [bodyRegion, ← bind_assoc]
  refine reserves_region ?_
  exact (emits_bindArgs (List.subset_append_right ..) hargs).bind fun _ _ _ _ _ =>
    emits_yielded hneed hbody

theorem reserves_elementArgs {pairs : List (NodeId × NodeId)} : ∀ {s},
    Reserves g known (elementArgs g pairs) s fun hi args =>
      (args.map fun p => (p.1, p.2.type)) =
          (pairs.map fun p => (p.2, Ty.scalar (g.elemSize p.1))) ∧
        Numbered s.counter hi (args.map Prod.snd) := by
  induction pairs with
  | nil => exact reserves_pure ⟨rfl, .nil⟩
  | cons p pairs ih =>
    intro s
    refine (reserves_nodeName p.2 "in").bind fun n s₁ h₁ hn => ?_
    refine ih.bind fun args s₂ h₂ ⟨htypes, hargs⟩ => reserves_pure ⟨by simp [htypes], ?_⟩
    exact (hn _).append h₁ h₂ hargs

theorem reserves_resultArgs {pairs : List (NodeId × NodeId)} : ∀ {s},
    Reserves g known (resultArgs g pairs) s fun hi args =>
      args.map Operand.type = (pairs.map fun p => .scalar (g.elemSize p.2)) ∧
        Numbered s.counter hi args := by
  induction pairs with
  | nil => exact reserves_pure ⟨rfl, .nil⟩
  | cons p pairs ih =>
    intro s
    refine (reserves_fresh "out").bind fun n s₁ h₁ hn => ?_
    refine ih.bind fun args s₂ h₂ ⟨htypes, hargs⟩ => reserves_pure ⟨by simp [htypes], ?_⟩
    exact (hn _).append h₁ h₂ hargs

/-! ## Operators -/

/-- A generic operation on the buffers of nodes. -/
theorem typedIn_generic {ids : List NodeId} (hids : ∀ id ∈ ids, g.isScalar id = false)
    {ins outs args : List Operand} (hknown : ins ++ outs ⊆ known)
    (htypes : (ins ++ outs).map Operand.type = ids.map g.valueType)
    (hargs : args.map Operand.type = ids.map fun id => .scalar (g.elemSize id))
    {block : List Buffer.Stmt}
    (hyields : Yields (outs.map fun o => o.type.element) block) (space : Shape) :
    TypedIn castable known (.generic (ids.map fun id => affineMap (g.shape id) space) space.length
      ins outs args block) := by
  have hmap : ∀ {β : Type} (f : Ty → β),
      ((ins ++ outs).map fun o => f o.type) = ids.map fun id => f (g.valueType id) := by
    intro β f
    simpa [Function.comp_def] using congrArg (List.map f) htypes
  refine ⟨⟨fun o ho => ⟨hknown ho, ?_⟩, ?_, hyields⟩, by simp [affineMap], ?_⟩
  · obtain ⟨id, hid, htype⟩ := List.mem_map.mp (htypes ▸ List.mem_map_of_mem ho)
    rw [← htype, isBuffer_valueType (hids id hid)]
  · rw [hargs, hmap Ty.element]
    exact List.map_congr_left fun id hid => (element_valueType (hids id hid)).symm
  · rw [hmap Ty.rank, List.map_map]
    refine List.map_congr_left fun id hid => ?_
    rw [rank_valueType (hids id hid)]
    exact length_affineResults ..

theorem emits_scalarOp (hneed : Gives g castable need ok) {op : Op} {dst : NodeId}
    (h : g.ScalarOp ok op dst) :
    Emits g castable fixed known lo (operator g need op) s fun _ _ => True := by
  cases h with
  | unary harg sarg sdst typed =>
    refine (emits_typedName hneed harg sarg).bind fun v _ _ _ ⟨hv, _⟩ => ?_
    refine (emits_unary _ hv).bind fun n _ _ _ hn => emits_name ?_
    rwa [g.valueType_scalar sdst]
  | binary hlhs hrhs slhs srhs sdst typed =>
    refine (emits_typedName hneed hlhs slhs).bind fun l _ _ _ ⟨hl, _⟩ => ?_
    refine (emits_typedName hneed hrhs srhs).bind fun r _ _ h₂ ⟨hr, _⟩ => ?_
    refine (emits_binary _ (h₂ hl) hr).bind fun n _ _ _ hn => emits_name ?_
    rwa [g.valueType_scalar sdst]

theorem emits_scalarCell {sz : ElemSize} {init : Name} (hinit : ⟨init, .scalar sz⟩ ∈ known) :
    Emits g castable fixed known lo (scalarCell sz init) s fun known' cell =>
      cell ∈ known' ∧ cell.type = .memref sz [] := by
  refine emits_define (fun _ => ⟨rfl, rfl, rfl, rfl⟩) (fun _ => rfl) fun name s₁ known₁ h₁ hn => ?_
  refine (emits_effect ⟨rfl, rfl, rfl, rfl⟩ ?_).bind fun _ _ _ h₂ _ => emits_pure ⟨h₂ hn, rfl⟩
  exact ⟨h₁ hinit, ⟨hn, rfl⟩, rfl, by simp⟩

section Operators

variable (hneed : Gives g castable need ok)
  (hcast : ∀ sz : ElemSize, sz.isSignedInteger = true → castable sz) {e : Entry}
include hneed hcast

theorem emits_elementwise {inputs : List NodeId} {pairs : List (NodeId × NodeId)}
    {inner dst : NodeId} (hinputs : ∀ id ∈ inputs, ok id)
    (houter : ∀ p ∈ pairs, p.1 ∈ inputs ∧ g.isScalar p.1 = false)
    (sdst : g.isScalar dst = false) (hdims : ∀ d ∈ g.shape dst, g.DimValid e ok d)
    (hinner : ok inner ∧ g.isScalar inner = true)
    (hplaces : ∀ p ∈ pairs, g.isScalar p.2 = true ∧ g.elemSize p.2 = g.elemSize p.1) :
    Emits g castable fixed known lo
      (operator g need ⟨.elementwise ⟨pairs, [(inner, dst)]⟩, inputs, [dst]⟩) s
      fun _ _ => True := by
  refine (emits_prepare hneed hinputs).bind fun _ s₁ known₁ _ _ => ?_
  have houters : ∀ id ∈ pairs.map Prod.fst, ok id := by
    intro id hid
    obtain ⟨p, hp, rfl⟩ := List.mem_map.mp hid
    exact hinputs _ (houter p hp).1
  refine (emits_operands hneed houters).bind fun ins s₂ known₂ _ ⟨hins, hinTypes⟩ => ?_
  have halloc : Emits g castable fixed known₂ s₂.counter (allocNodes g need [dst]) s₂
      fun known' outs => ∃ buffer ∈ known', buffer.type = g.valueType dst ∧ outs = [buffer] := by
    refine (emits_alloc hneed hcast _ hdims).bind fun buffer _ _ _ ⟨hbuffer, htype⟩ =>
      emits_pure ⟨buffer, hbuffer, ?_, rfl⟩
    rw [htype, g.valueType_buffer sdst]
  refine halloc.bind fun outs s₃ known₃ h₃ ⟨buffer, hbuffer, htype, houts⟩ => ?_
  subst houts
  refine reserves_elementArgs.bind_emits fun args s₄ h₄ ⟨hargTypes, hargs⟩ => ?_
  have hplaced : ∀ p ∈ args, p.2.type = g.valueType p.1 := by
    intro p hp
    obtain ⟨q, hq, heq⟩ := List.mem_map.mp (hargTypes ▸ List.mem_map_of_mem hp)
    obtain ⟨hid, htype⟩ := Prod.mk.inj heq
    rw [← htype, ← hid, g.valueType_scalar (hplaces q hq).1, (hplaces q hq).2]
  refine (reserves_bodyRegion hneed (by simpa using hinner) hplaced).bind_emits
    fun block s₅ h₅ ⟨hblock, hyields, hdefs⟩ => ?_
  refine reserves_resultArgs.bind_emits fun outArgs s₆ h₆ ⟨houtTypes, houtArgs⟩ => ?_
  refine (emits_emit ?_ ?_ rfl ?_).bind fun _ s₇ known₇ h₇ _ => ?_
  · refine typedIn_generic ?_ ?_ ?_ ?_ ?_ _
    · intro id hid
      rcases List.mem_append.mp hid with hid | hid
      · obtain ⟨p, hp, rfl⟩ := List.mem_map.mp hid
        exact (houter p hp).2
      · rwa [List.mem_singleton.mp hid]
    · exact List.append_subset.mpr ⟨List.Subset.trans hins h₃, by simpa using hbuffer⟩
    · simp [hinTypes, htype]
    · have hargs : (args.map fun p => p.2.type) = pairs.map fun p => .scalar (g.elemSize p.1) := by
        simpa [Function.comp_def] using congrArg (List.map Prod.snd) hargTypes
      simp [hargs, houtTypes, Function.comp_def]
    · simpa [htype, element_valueType sdst] using hyields
  · refine hblock.weaken TypedIn.persistent ?_
    exact List.append_subset.mpr ⟨List.subset_append_left .., List.subset_append_of_subset_right _
      (List.subset_append_left ..)⟩
  · have hall := hargs.append h₄ (Nat.le_trans h₅ h₆) (hdefs.append h₅ h₆ houtArgs)
    refine hall.perm ?_
    simpa [Buffer.definitions_cons, Buffer.Stmt.results, Buffer.Stmt.args, Buffer.Stmt.body]
      using List.perm_append_comm.append_left _
  · refine (emits_name ?_).bind fun _ _ _ _ _ => emits_pure trivial
    rw [← htype]
    exact h₇ hbuffer

theorem emits_tensorCell {dst : NodeId} {init : Name} (sdst : g.isScalar dst = false)
    (hdims : ∀ d ∈ g.shape dst, g.DimValid e ok d)
    (hinit : ⟨init, .scalar (g.elemSize dst)⟩ ∈ known) :
    Emits g castable fixed known lo (tensorCell g need dst init) s fun known' cell =>
      cell ∈ known' ∧ cell.type = g.cellType dst := by
  refine (emits_alloc hneed hcast _ hdims).bind fun cell s₁ known₁ h₁ ⟨hcell, htype⟩ => ?_
  refine (emits_effect ⟨rfl, rfl, rfl, rfl⟩ ?_).bind fun _ _ _ h₂ _ => emits_pure ⟨h₂ hcell, ?_⟩
  · exact ⟨h₁ hinit, ⟨hcell, by rw [htype, isBuffer_bufferType]⟩,
      by rw [htype, element_bufferType]⟩
  · rw [htype, Graph.cellType, sdst, g.valueType_buffer sdst]
    rfl

theorem emits_reduction {axes : List Nat} {arg init x acc inner dst : NodeId} (harg : ok arg)
    (hinit : ok init) (sarg : g.isScalar arg = false) (sinit : g.isScalar init = true)
    (isize : g.elemSize init = g.elemSize dst) (hdims : ∀ d ∈ g.shape dst, g.DimValid e ok d)
    (hinner : ok inner ∧ g.isScalar inner = true)
    (hx : g.isScalar x = true ∧ g.elemSize x = g.elemSize arg)
    (hacc : g.isScalar acc = true ∧ g.elemSize acc = g.elemSize init) :
    Emits g castable fixed known lo (operator g need
      ⟨.reduction axes ⟨[(arg, x), (init, acc)], [(inner, dst)]⟩ [init], [arg, init], [dst]⟩) s
      fun _ _ => True := by
  refine (emits_operand hneed harg).bind fun src s₁ known₁ _ ⟨hsrc, hsrcType⟩ => ?_
  refine (hneed hinit).bind fun start s₂ known₂ h₂ hstart => ?_
  rw [g.valueType_scalar sinit, isize] at hstart
  have hscalar : g.isScalar dst = true →
      Emits g castable fixed known₂ s₂.counter (scalarCell (g.elemSize dst) start) s₂
        fun known' cell => cell ∈ known' ∧ cell.type = g.cellType dst := fun sdst =>
    (emits_scalarCell hstart).mono fun _ _ _ ⟨hcell, htype⟩ =>
      ⟨hcell, by rw [htype, Graph.cellType, sdst]; rfl⟩
  -- The cells are a new buffer: of one element, or of the axes that are left.
  refine emits_ite_bind hscalar
    (fun sdst => emits_tensorCell hneed hcast (Bool.eq_false_of_not_eq_true sdst) hdims hstart)
    fun cell s₃ known₃ h₃ ⟨hcell, htype⟩ => ?_
  have hcellBuffer : cell.IsBuffer fun n type => ⟨n, type⟩ ∈ known₃ :=
    ⟨hcell, by rw [htype]; exact isBuffer_cellType dst⟩
  have hsrcBuffer : src.IsBuffer fun n type => ⟨n, type⟩ ∈ known₃ :=
    ⟨h₃ (h₂ hsrc), by rw [hsrcType]; exact isBuffer_valueType sarg⟩
  refine (reserves_nodeName x "in").bind_emits fun xName s₄ h₄ hxName => ?_
  refine (reserves_fresh "acc").bind_emits fun accName s₅ h₅ haccName => ?_
  have hplaced : ∀ p ∈ [(x, (⟨xName, .scalar (g.elemSize arg)⟩ : Operand)),
      (acc, ⟨accName, .scalar (g.elemSize dst)⟩)], p.2.type = g.valueType p.1 := by
    simp [g.valueType_scalar hx.1, g.valueType_scalar hacc.1, hx.2, hacc.2, isize]
  -- The region reads its own arguments only, which are set aside before it is lowered.
  refine (reserves_bodyRegion hneed (by simpa using hinner) hplaced).bind_emits
    fun block s₆ h₆ ⟨hblock, hyields, hdefs⟩ => ?_
  refine (emits_emit ?_ hblock rfl ?_).bind fun _ s₇ known₇ h₇ _ => ?_
  · refine ⟨?_, ?_, ?_⟩
    · simpa using ⟨hsrcBuffer, hcellBuffer⟩
    · simp [hsrcType, htype, element_cellType, element_valueType sarg]
    · simpa [htype, element_cellType] using hyields
  · have hargs := (hxName (.scalar (g.elemSize arg))).append h₄ h₅
      (haccName (.scalar (g.elemSize dst)))
    have hall := hargs.append (Nat.le_trans h₄ h₅) h₆ hdefs
    simpa [Buffer.definitions_cons, Buffer.Stmt.results, Buffer.Stmt.args, Buffer.Stmt.body]
      using hall
  -- A scalar is loaded from its one cell, and a tensor is the cells themselves.
  refine emits_ite (fun sdst => ?_) fun sdst => ?_
  · refine emits_define (fun _ => ⟨rfl, rfl, rfl, rfl⟩) (fun _ => ?_)
      fun v s₈ known₈ _ hv => emits_name ?_
    · refine ⟨⟨h₇ hcell, hcellBuffer.2⟩, ?_, by simp⟩
      simp [htype, Graph.cellType, sdst, Ty.rank]
    · rwa [htype, element_cellType, ← g.valueType_scalar sdst] at hv
  · refine emits_name (h₇ ?_)
    have hvalue : cell.type = g.valueType dst := by simp [htype, Graph.cellType, sdst]
    rw [← hvalue]
    exact hcell

theorem emits_getItem {target dst : NodeId} {indices : List NodeId} (htarget : ok target)
    (starget : g.isScalar target = false) (hindices : ∀ id ∈ indices, g.IsIndex ok id)
    (rank : indices.length = (g.shape target).length) (sdst : g.isScalar dst = true)
    (size : g.elemSize dst = g.elemSize target) :
    Emits g castable fixed known lo (getItem g need target indices dst) s fun _ _ => True := by
  refine (emits_operand hneed htarget).bind fun src s₁ known₁ _ ⟨hsrc, hsrcType⟩ => ?_
  refine (emits_indexValues hneed hcast hindices).bind fun is s₂ known₂ h₂ his => ?_
  refine emits_define (fun _ => ⟨rfl, rfl, rfl, rfl⟩) (fun _ => ⟨⟨h₂ hsrc, ?_⟩, ?_⟩)
    fun v s₃ known₃ _ hv => emits_name ?_
  · rw [hsrcType, isBuffer_valueType starget]
  · rwa [hsrcType, rank_valueType starget, ← rank]
  · rwa [hsrcType, element_valueType starget, ← size, ← g.valueType_scalar sdst] at hv

theorem emits_setItem {target value dst : NodeId} {indices : List NodeId} (htarget : ok target)
    (starget : g.isScalar target = false) (hvalue : ok value) (svalue : g.isScalar value = true)
    (hindices : ∀ id ∈ indices, g.IsIndex ok id)
    (rank : indices.length = (g.shape target).length) (type : g.type dst = g.type target)
    (hdims : ∀ d ∈ g.shape dst, g.DimValid e ok d) :
    Emits g castable fixed known lo (setItem g need target value indices dst) s
      fun _ _ => True := by
  have hsame : g.elemSize dst = g.elemSize target ∧ g.shape dst = g.shape target ∧
      g.isScalar dst = false :=
    ⟨congrArg KernelType.elemSize type, congrArg KernelType.shape type,
      (congrArg KernelType.isScalar type).trans starget⟩
  refine (emits_operand hneed htarget).bind fun src s₁ known₁ _ ⟨hsrc, hsrcType⟩ => ?_
  refine (emits_typedName hneed hvalue svalue).bind fun v s₂ known₂ h₂ ⟨hv, _⟩ => ?_
  refine (emits_indexValues hneed hcast hindices).bind fun is s₃ known₃ h₃ his => ?_
  refine (emits_alloc hneed hcast _ hdims).bind fun buffer s₄ known₄ h₄ ⟨hbuffer, htype⟩ => ?_
  -- First a copy of the tensor, then one store into the copy.
  refine (emits_effect ⟨rfl, rfl, rfl, rfl⟩ ?_).bind fun _ s₅ known₅ h₅ _ => ?_
  · refine ⟨⟨h₄ (h₃ (h₂ hsrc)), ?_⟩, ⟨hbuffer, ?_⟩, ?_, ?_⟩
    · rw [hsrcType, isBuffer_valueType starget]
    · rw [htype, isBuffer_bufferType]
    · rw [hsrcType, htype, element_valueType starget, element_bufferType, hsame.1]
    · rw [hsrcType, htype, rank_valueType starget, rank_bufferType, hsame.2.1]
  refine (emits_cast _ (h₅ (h₄ (h₃ hv)))).bind fun n s₆ known₆ h₆ hn => ?_
  have hbuffer₆ := h₆ (h₅ hbuffer)
  refine (emits_effect ⟨rfl, rfl, rfl, rfl⟩ ?_).bind fun _ s₇ known₇ h₇ _ => emits_name ?_
  · refine ⟨?_, ⟨hbuffer₆, ?_⟩, ?_, fun i hi => h₆ (h₅ (h₄ (his.2 i hi)))⟩
    · rwa [htype, element_bufferType]
    · rw [htype, isBuffer_bufferType]
    · rw [htype, rank_bufferType, hsame.2.1, ← rank, his.1]
  · rw [g.valueType_buffer hsame.2.2, ← htype]
    exact h₇ hbuffer₆

theorem emits_axisStart {selected : Option SliceIndex}
    (h : ∀ i ∈ selected, ∀ id ∈ i.nodes, g.IsIndex ok id) :
    Emits g castable fixed known lo (axisStart g need selected) s fun known' start =>
      ⟨start.1, .index⟩ ∈ known' ∧ ⟨start.2, .index⟩ ∈ known' := by
  match selected with
  | none =>
    refine (emits_indexConstant 0).bind fun offset _ _ _ ho => ?_
    exact (emits_indexConstant 1).bind fun stride _ _ h₂ hs => emits_pure ⟨h₂ ho, hs⟩
  | some (.element i) =>
    refine (emits_indexValue hneed hcast (h _ rfl i (by simp [SliceIndex.nodes]))).bind
      fun offset _ _ _ ho => ?_
    exact (emits_indexConstant 1).bind fun stride _ _ h₂ hs => emits_pure ⟨h₂ ho, hs⟩
  | some (.range lower upper step) =>
    refine (emits_indexValue hneed hcast (h _ rfl lower (by simp [SliceIndex.nodes]))).bind
      fun offset _ _ _ ho => ?_
    exact (emits_indexValue hneed hcast (h _ rfl step (by simp [SliceIndex.nodes]))).bind
      fun stride _ _ h₂ hs => emits_pure ⟨h₂ ho, hs⟩

theorem emits_axisViews {sizes : Shape} : ∀ {known lo s} {selected : List SliceIndex},
    (∀ i ∈ selected, ∀ id ∈ i.nodes, g.IsIndex ok id) → (∀ d ∈ sizes, g.DimValid e ok d) →
    Emits g castable fixed known lo (axisViews g need selected sizes) s fun known' views =>
      views.length = sizes.length ∧ ∀ v ∈ views,
        ⟨v.offset, .index⟩ ∈ known' ∧ ⟨v.size, .index⟩ ∈ known' ∧ ⟨v.stride, .index⟩ ∈ known' := by
  induction sizes with
  | nil => exact fun _ _ => emits_pure (by simp)
  | cons size sizes ih =>
    intro known lo s selected hselected hsizes
    obtain ⟨hsize, hsizes⟩ := List.forall_mem_cons.mp hsizes
    refine (emits_axisStart hneed hcast fun i hi =>
      hselected i (List.mem_of_mem_head? hi)).bind fun start s₁ known₁ _ ⟨hoffset, hstride⟩ => ?_
    refine (emits_dimIndex hneed hcast hsize).bind fun extent s₂ known₂ h₂ hextent => ?_
    refine (ih (fun i hi => hselected i (List.mem_of_mem_tail hi)) hsizes).bind
      fun views s₃ known₃ h₃ ⟨hlength, hviews⟩ => emits_pure ⟨by simp [hlength], ?_⟩
    exact List.forall_mem_cons.mpr ⟨⟨h₃ (h₂ hoffset), h₃ hextent, h₃ (h₂ hstride)⟩, hviews⟩

theorem emits_slice {target dst : NodeId} {selected : List SliceIndex} {sizes : Shape}
    (htarget : ok target) (starget : g.isScalar target = false)
    (hselected : ∀ i ∈ selected, ∀ id ∈ i.nodes, g.IsIndex ok id)
    (rank : sizes.length = (g.shape target).length) (hsizes : ∀ d ∈ sizes, g.DimValid e ok d)
    (trims : sizes.Trims (g.shape dst)) (sdst : g.isScalar dst = false)
    (size : g.elemSize dst = g.elemSize target) :
    Emits g castable fixed known lo (slice g need target selected sizes dst) s
      fun _ _ => True := by
  refine (emits_operand hneed htarget).bind fun src s₁ known₁ _ ⟨hsrc, hsrcType⟩ => ?_
  refine (emits_axisViews hneed hcast hselected fun d hd =>
    hsizes d (List.mem_of_mem_take hd)).bind fun views s₂ known₂ h₂ ⟨hlength, hviews⟩ => ?_
  rw [List.length_take, rank, Nat.min_self] at hlength
  have hsrcRank : src.type.rank = (g.shape target).length := by
    rw [hsrcType, rank_valueType starget]
  have haxes : ∀ f : AxisView → Name, (∀ v ∈ views, ⟨f v, .index⟩ ∈ known₂) →
      Indices (fun n type => ⟨n, type⟩ ∈ known₂) src.type.rank (views.map f) := by
    intro f hf
    refine ⟨by rw [List.length_map, hlength, hsrcRank], fun n hn => ?_⟩
    obtain ⟨v, hv, rfl⟩ := List.mem_map.mp hn
    exact hf v hv
  -- A view of the source, which has an offset, an extent and a stride for each of its axes.
  refine emits_define (fun _ => ⟨rfl, rfl, rfl, rfl⟩) (fun _ => ?_)
    fun name s₃ known₃ h₃ hview => ?_
  · refine ⟨⟨h₂ hsrc, by rw [hsrcType, isBuffer_valueType starget]⟩,
      haxes _ fun v hv => (hviews v hv).1, haxes _ fun v hv => (hviews v hv).2.1,
      haxes _ fun v hv => (hviews v hv).2.2, rfl, ?_, hsrcRank.symm⟩
    rw [hsrcType, element_valueType starget]
    rfl
  refine (emits_alloc hneed hcast _ hsizes).bind fun buffer s₄ known₄ h₄ ⟨hbuffer, htype⟩ => ?_
  have hisBuffer : buffer.type.isBuffer = true := by rw [htype, isBuffer_bufferType]
  refine (emits_effect ⟨rfl, rfl, rfl, rfl⟩ ?_).bind fun _ s₅ known₅ h₅ _ => ?_
  · refine ⟨⟨h₄ hview, rfl⟩, ⟨hbuffer, hisBuffer⟩, ?_, ?_⟩
    · rw [htype]
      rfl
    · rw [htype, rank_bufferType, rank]
      rfl
  -- Axes of single elements are dropped by collapsing the buffer, if there are any.
  obtain ⟨k, hshape, hk, -⟩ := trims
  have hdropped : (g.shape target).length - (g.shape dst).length = k := by
    rw [← rank, hshape, List.length_drop]
    omega
  have hlt : k < (g.shape target).length := by rwa [← rank]
  simp only [hdropped]
  refine emits_ite (fun hpos => ?_) fun hzero => ?_
  · refine emits_define (fun _ => ⟨rfl, rfl, rfl, rfl⟩) (fun _ => ?_)
      fun id s₆ known₆ _ hid => emits_name ?_
    · refine ⟨⟨h₅ hbuffer, hisBuffer⟩, rfl, ?_, ?_, ?_, nil_not_mem_collapsedAxes _ _⟩
      · rw [htype, element_bufferType, element_bufferType]
      · rw [htype, rank_bufferType, rank, flatten_collapsedAxes hlt]
      · rw [length_collapsedAxes hlt, rank_bufferType, hshape, List.length_drop, rank]
    · rwa [g.valueType_buffer sdst, size]
  · obtain rfl : k = 0 := by omega
    refine emits_name (h₅ ?_)
    rw [g.valueType_buffer sdst, size, hshape, List.drop_zero, ← htype]
    exact hbuffer

theorem emits_convertTensor {src dst : NodeId} (hsrc : ok src)
    (same : (g.type dst).sameShape (g.type src) = true) (sdst : g.isScalar dst = false)
    (hdims : ∀ d ∈ g.shape dst, g.DimValid e ok d) :
    Emits g castable fixed known lo (convertTensor g need src dst) s fun known' buffer =>
      buffer ∈ known' ∧ buffer.type = g.valueType dst := by
  obtain ⟨hscalar, hshape⟩ := same_of_sameShape same
  have ssrc := hscalar.symm.trans sdst
  refine (emits_operand hneed hsrc).bind fun input s₁ known₁ _ ⟨hinput, hinputType⟩ => ?_
  refine (emits_alloc hneed hcast _ hdims).bind fun buffer s₂ known₂ h₂ ⟨hbuffer, htype⟩ => ?_
  rw [← g.valueType_buffer sdst] at htype
  refine (reserves_nodeName src "in").bind_emits fun x s₃ h₃ hx => ?_
  refine (reserves_fresh "out").bind_emits fun out s₄ h₄ hout => ?_
  -- Each element is cast on its own, in a region with one argument for either side.
  have hregion : Reserves g known₂ (region do
      let v ← cast ⟨x, g.elemSize src⟩ (g.elemSize dst)
      emit (.yield [⟨v, .scalar (g.elemSize dst)⟩])) s₄ fun hi block =>
      Holds (TypedIn castable) (known₂ ++ [⟨x, .scalar (g.elemSize src)⟩]) block ∧
        Yields [.scalar (g.elemSize dst)] block ∧ Numbered s₄.counter hi (definitions block) := by
    refine reserves_region ((emits_cast _ ?_).mono fun _ v _ hv => ⟨?_, rfl⟩)
    · simp
    · simpa using hv
  refine hregion.bind_emits fun block s₅ h₅ ⟨hblock, hyields, hdefs⟩ => ?_
  refine (emits_emit ?_ ?_ rfl ?_).bind fun _ s₆ known₆ h₆ _ => emits_pure ⟨h₆ hbuffer, htype⟩
  · have hgeneric : TypedIn castable known₂ (.generic
        ([src, dst].map fun id => affineMap (g.shape id) (g.shape dst)) (g.shape dst).length
        [input] [buffer] [⟨x, .scalar (g.elemSize src)⟩, ⟨out, .scalar (g.elemSize dst)⟩]
        block) := by
      refine typedIn_generic ?_ ?_ ?_ rfl ?_ _
      · simp [ssrc, sdst]
      · simp [h₂ hinput, hbuffer]
      · simp [hinputType, htype]
      · simpa [htype, element_valueType sdst] using hyields
    simpa [hshape] using hgeneric
  · refine hblock.weaken TypedIn.persistent ?_
    exact List.append_subset.mpr ⟨List.subset_append_left .., List.subset_append_of_subset_right _
      (by simp [Buffer.Stmt.args])⟩
  · have hall := (hx (.scalar (g.elemSize src))).append h₃ (Nat.le_trans h₄ h₅)
      ((hout (.scalar (g.elemSize dst))).append h₄ h₅ hdefs)
    simpa [Buffer.definitions_cons, Buffer.Stmt.results, Buffer.Stmt.args, Buffer.Stmt.body]
      using hall

theorem emits_copy {src dst : NodeId} (hsrc : ok src)
    (same : (g.type dst).sameShape (g.type src) = true)
    (hdims : ∀ d ∈ g.shape dst, g.DimValid e ok d) (deep : Bool) :
    Emits g castable fixed known lo (copy g need src dst deep) s fun _ _ => True := by
  obtain ⟨hscalar, hshape⟩ := same_of_sameShape same
  refine emits_ite (fun sdst => ?_) fun sdst => ?_
  · refine (emits_typedName hneed hsrc (hscalar.symm.trans sdst)).bind fun v _ _ _ ⟨hv, _⟩ => ?_
    refine (emits_cast _ hv).bind fun n _ _ _ hn => emits_name ?_
    rwa [g.valueType_scalar sdst]
  have sdst := Bool.eq_false_of_not_eq_true sdst
  have ssrc := hscalar.symm.trans sdst
  -- Another element type needs a conversion; else the tensor is copied, or shared under a new name.
  refine emits_ite (fun hsize => ?_) fun hsize => ?_
  · refine (emits_convertTensor hneed hcast hsrc same sdst hdims).bind
      fun buffer _ _ _ ⟨hbuffer, htype⟩ => emits_name ?_
    rwa [← htype]
  have hsize : g.elemSize src = g.elemSize dst := not_not.mp hsize
  refine emits_ite (fun _ => ?_) fun _ => ?_
  · refine (emits_operand hneed hsrc).bind fun input s₁ known₁ _ ⟨hinput, hinputType⟩ => ?_
    refine (emits_alloc hneed hcast _ hdims).bind fun buffer s₂ known₂ h₂ ⟨hbuffer, htype⟩ => ?_
    rw [← g.valueType_buffer sdst] at htype
    refine (emits_effect ⟨rfl, rfl, rfl, rfl⟩ ?_).bind fun _ s₃ known₃ h₃ _ => emits_name ?_
    · refine ⟨⟨h₂ hinput, ?_⟩, ⟨hbuffer, ?_⟩, ?_, ?_⟩
      · rw [hinputType, isBuffer_valueType ssrc]
      · rw [htype, isBuffer_valueType sdst]
      · rw [hinputType, htype, element_valueType ssrc, element_valueType sdst, hsize]
      · rw [hinputType, htype, rank_valueType ssrc, rank_valueType sdst, hshape]
    · rw [← htype]
      exact h₃ hbuffer
  · refine (hneed hsrc).bind fun n _ _ _ hn => emits_name ?_
    rwa [g.valueType_buffer sdst, ← hsize, ← hshape, ← g.valueType_buffer ssrc]

end Operators

/-- The computation of one element may be asked for. -/
theorem lowerable_of_bodyValid {e : Entry} {outer : List NodeId} {pairs : List (NodeId × NodeId)}
    {inner : NodeId} (h : g.BodyValid e (g.Available e) outer pairs inner) :
    g.Lowerable e inner ∧ g.isScalar inner = true := by
  obtain ⟨o, hproducer, hop, -⟩ := h.inner
  refine ⟨Or.inr (Or.inr ⟨o, hproducer, hop.mono ?_⟩), ?_⟩
  · rintro id (hid | ⟨hid, -⟩)
    · obtain ⟨p, hp, rfl⟩ := List.mem_map.mp hid
      exact Or.inl (h.hole p hp)
    · exact Or.inr hid
  · exact hop.isScalar

/-- The statements of an operator of a well-formed kind are typed. -/
theorem emits_operator {e : Entry} (hneed : Gives g castable need (g.Lowerable e))
    (hcast : ∀ sz : ElemSize, sz.isSignedInteger = true → castable sz) {op : Op} {dst : NodeId}
    (h : g.Computes e (g.Available e) op dst) :
    Emits g castable fixed known lo (operator g need op) s fun _ _ => True := by
  have havail : ∀ id, g.Available e id → g.Lowerable e id := fun _ => Or.inl
  obtain ⟨hdims, hop⟩ := h
  have hdims : ∀ d ∈ g.shape dst, g.DimValid e (g.Lowerable e) d :=
    fun d hd => (hdims d hd).mono havail
  cases hop with
  | scalar hop => exact emits_scalarOp hneed (hop.mono havail)
  | elementwise hinputs houter sdst size body =>
    exact emits_elementwise hneed hcast (fun id hid => havail id (hinputs id hid))
      (fun p hp => ⟨(houter p hp).1, (houter p hp).2.1⟩) sdst hdims (lowerable_of_bodyValid body)
      fun p hp => ⟨body.scalar p hp, body.size p hp⟩
  | reduction harg hinit sarg sinit isize full partly size body =>
    obtain ⟨⟨hx, hxSize⟩, hacc, haccSize⟩ := by
      simpa using fun p hp => And.intro (body.scalar p hp) (body.size p hp)
    exact emits_reduction hneed hcast (havail _ harg) (havail _ hinit) sarg sinit isize hdims
      (lowerable_of_bodyValid body) ⟨hx, hxSize⟩ ⟨hacc, haccSize⟩
  | getItem htarget starget hindices rank sdst size =>
    exact emits_getItem hneed hcast (havail _ htarget) starget
      (fun id hid => (hindices id hid).mono havail) rank sdst size
  | setItem htarget starget hvalue svalue hindices rank type =>
    exact emits_setItem hneed hcast (havail _ htarget) starget (havail _ hvalue) svalue
      (fun id hid => (hindices id hid).mono havail) rank type hdims
  | slice htarget starget hselected selectedLe rank hsizes trims sdst size =>
    exact emits_slice hneed hcast (havail _ htarget) starget
      (fun i hi id hid => (hselected i hi id hid).mono havail) rank
      (fun d hd => (hsizes d hd).mono havail) trims sdst size
  | copy hkind hsrc same =>
    rcases hkind with rfl | rfl
    · exact emits_copy hneed hcast (havail _ hsrc) same hdims false
    · exact emits_copy hneed hcast (havail _ hsrc) same hdims true

end LowerM

end TensorKernel
