import TensorKernel.Proofs.Lower.Scalar
import TensorKernel.Proofs.Table

/-!
# Lowering operators succeeds

Every operator of a well-formed kind lowers completely if the nodes that it reads do, and names its
result.  What it takes of the nodes is `LowerM.Serves`, which the recursion over the graph provides.
-/

namespace TensorKernel

namespace LowerM

open LowerState (Grows Ready)

variable {g : Graph} {e : Entry} {n : Nat} {need : NodeId → LowerM Name} {s : LowerState}

/--
What operators rely on for the nodes that they read: nodes that need at most `n` operators in a row
get names, and so do the operators on scalars in a body, whose operands have names already.
-/
structure Serves (g : Graph) (e : Entry) (n : Nat) (need : NodeId → LowerM Name) : Prop where
  available : ∀ {s id}, Ready g e n s → g.AvailableAt e n id →
    Lowers g (need id) s fun _ s' => s'.Bound id
  body : ∀ {s id o}, Ready g e n s → (g.node id).producer = some o →
    g.ScalarOp s.Bound (g.op o) id → (∃ arg ∈ (g.op o).inputs, g.Hole e arg) →
    Lowers g (need id) s fun _ _ => True

/-! ## Operands and dimensions -/

/-- A name for a constant index concerns neither nodes nor operators. -/
theorem grows_indexConstant (s : LowerState) (k : Int) (dst : Name) :
    Grows g s (s.onScope fun scope =>
      { scope with indexConstants := scope.indexConstants.bind k dst }) where
  isOpen h := LowerState.onScope_open h _
  outer := LowerState.onScope_tail _ _
  known h := by rwa [LowerState.Known, LowerState.onScope_symbols]
  bound {id} h := by
    rwa [LowerState.Bound, LowerState.lookup_onScope]
    exact fun _ => rfl
  visited {o} h := by
    rw [LowerState.isVisited_onScope] at h
    · exact Or.inl h
    · exact fun _ => rfl

theorem lowers_indexConstant (k : Int) : Lowers g (indexConstant k) s fun _ _ => True := by
  refine lowers_get_bind ?_
  cases s.indexConstant? k with
  | some name => exact lowers_pure trivial
  | none =>
    refine (lowers_fresh _).bind fun dst _ _ _ => (lowers_emit _).bind fun _ s' _ _ => ?_
    exact (lowers_modify (R := fun _ _ => True) (grows_indexConstant s' k dst) trivial).bind
      fun _ _ _ _ => lowers_pure trivial

theorem lowers_toIndex (v : TypedName) : Lowers g (toIndex v) s fun _ _ => True :=
  lowers_define _ _

theorem lowers_nodeName (id : NodeId) (use : String) :
    Lowers g (nodeName g id use) s fun _ _ => True := by
  unfold nodeName
  cases (g.node id).name with
  | some name => exact lowers_fresh _
  | none => exact lowers_fresh use

section Reads

variable (hneed : Serves g e n need)
include hneed

theorem lowers_operand (hs : Ready g e n s) {id : NodeId} (hid : g.AvailableAt e n id) :
    Lowers g (operand g need id) s fun _ _ => True :=
  (hneed.available hs hid).bind fun _ _ _ _ => lowers_pure trivial

theorem lowers_typedName (hs : Ready g e n s) {id : NodeId} (hid : g.AvailableAt e n id) :
    Lowers g (typedName g need id) s fun v _ => v.size = g.elemSize id :=
  (hneed.available hs hid).bind fun _ _ _ _ => lowers_pure rfl

theorem lowers_operands {ids : List NodeId} : ∀ {s}, Ready g e n s →
    (∀ id ∈ ids, g.AvailableAt e n id) → Lowers g (operands g need ids) s fun _ _ => True := by
  induction ids with
  | nil => exact fun _ _ => lowers_pure trivial
  | cons id ids ih =>
    intro s hs hids
    refine (lowers_operand hneed hs (hids id (List.mem_cons_self ..))).bind fun _ _ h _ => ?_
    exact (ih (hs.grow h) fun id hid => hids id (List.mem_cons_of_mem _ hid)).bind
      fun _ _ _ _ => lowers_pure trivial

theorem lowers_prepare {ids : List NodeId} : ∀ {s}, Ready g e n s →
    (∀ id ∈ ids, g.AvailableAt e n id) →
    Lowers g (prepare need ids) s fun _ s' => ∀ id ∈ ids, s'.Bound id := by
  induction ids with
  | nil => exact fun _ _ => lowers_pure (by simp)
  | cons id ids ih =>
    intro s hs hids
    refine (hneed.available hs (hids id (List.mem_cons_self ..))).bind fun _ s₁ h₁ hbound => ?_
    refine (ih (hs.grow h₁) fun id hid => hids id (List.mem_cons_of_mem _ hid)).mono
      fun _ s₂ h₂ hall id' hid' => ?_
    rcases List.mem_cons.mp hid' with rfl | hid'
    · exact h₂.bound hbound
    · exact hall id' hid'

theorem lowers_indexValue (hs : Ready g e n s) {id : NodeId} (hid : g.AvailableAt e n id) :
    Lowers g (indexValue g need id) s fun _ _ => True :=
  (lowers_typedName hneed hs hid).bind fun v _ _ _ => lowers_toIndex v

theorem lowers_indexValues {ids : List NodeId} : ∀ {s}, Ready g e n s →
    (∀ id ∈ ids, g.AvailableAt e n id) → Lowers g (indexValues g need ids) s fun _ _ => True := by
  induction ids with
  | nil => exact fun _ _ => lowers_pure trivial
  | cons id ids ih =>
    intro s hs hids
    refine (lowers_indexValue hneed hs (hids id (List.mem_cons_self ..))).bind fun _ _ h _ => ?_
    exact (ih (hs.grow h) fun id hid => hids id (List.mem_cons_of_mem _ hid)).bind
      fun _ _ _ _ => lowers_pure trivial

theorem lowers_dimIndex (hs : Ready g e n s) {d : Dim} (hd : g.DimValid e (g.AvailableAt e n) d) :
    Lowers g (dimIndex g need d) s fun _ _ => True := by
  cases d with
  | const k => exact lowers_indexConstant k
  | sym name =>
    obtain ⟨size, hsize⟩ := Table.get?_eq_some_of_contains (hs.symbols hd)
    refine lowers_get_bind ?_
    rw [hsize]
    exact lowers_pure trivial
  | node id => exact lowers_indexValue hneed hs hd.avail

theorem lowers_dynamicSizes {shape : Shape} : ∀ {s}, Ready g e n s →
    (∀ d ∈ shape, g.DimValid e (g.AvailableAt e n) d) →
    Lowers g (dynamicSizes g need shape) s fun _ _ => True := by
  induction shape with
  | nil => exact fun _ _ => lowers_pure trivial
  | cons d ds ih =>
    intro s hs hdims
    have hrest := fun d hd => hdims d (List.mem_cons_of_mem _ hd)
    refine lowers_ite (fun _ => ih hs hrest) fun _ => ?_
    refine (lowers_dimIndex hneed hs (hdims d (List.mem_cons_self ..))).bind fun _ _ h _ => ?_
    exact (ih (hs.grow h) hrest).bind fun _ _ _ _ => lowers_pure trivial

theorem lowers_alloc (hs : Ready g e n s) (sz : ElemSize) {shape : Shape}
    (hdims : ∀ d ∈ shape, g.DimValid e (g.AvailableAt e n) d) :
    Lowers g (alloc g need sz shape) s fun _ _ => True :=
  (lowers_dynamicSizes hneed hs hdims).bind fun _ _ _ _ =>
    (lowers_fresh _).bind fun _ _ _ _ => (lowers_emit _).bind fun _ _ _ _ => lowers_pure trivial

end Reads

/-! ## Bodies -/

theorem lowers_bindArgs {args : List (NodeId × Buffer.Operand)} : ∀ {s : LowerState},
    s.scopes ≠ [] →
    Lowers g (bindArgs args) s fun _ s' => ∀ id ∈ args.map Prod.fst, s'.Bound id := by
  induction args with
  | nil => exact fun _ => lowers_pure (by simp)
  | cons arg args ih =>
    intro s hs
    refine (lowers_name hs arg.1 arg.2.name).bind fun _ s₁ h₁ hbound => ?_
    refine (ih (h₁.isOpen hs)).mono fun _ s₂ h₂ hall id hid => ?_
    rcases List.mem_cons.mp hid with rfl | hid
    · exact h₂.bound hbound
    · exact hall id hid

theorem lowers_elementArgs {pairs : List (NodeId × NodeId)} : ∀ {s},
    Lowers g (elementArgs g pairs) s fun args _ => args.map Prod.fst = pairs.map Prod.snd := by
  induction pairs with
  | nil => exact lowers_pure rfl
  | cons pair pairs ih =>
    intro s
    refine (lowers_nodeName pair.2 "in").bind fun _ _ _ _ => ih.bind fun args _ _ hargs => ?_
    exact lowers_pure (by simp [hargs])

theorem lowers_resultArgs {pairs : List (NodeId × NodeId)} : ∀ {s},
    Lowers g (resultArgs g pairs) s fun _ _ => True := by
  induction pairs with
  | nil => exact lowers_pure trivial
  | cons pair pairs ih =>
    intro s
    exact (lowers_fresh "out").bind fun _ _ _ _ => ih.bind fun _ _ _ _ => lowers_pure trivial

/-- The region of a body lowers if its arguments stand for the placeholders. -/
theorem lowers_bodyRegion (hneed : Serves g e n need) (hs : Ready g e n s) {outer : List NodeId}
    {pairs : List (NodeId × NodeId)} {inner dst : NodeId}
    (hbody : g.BodyValid e (g.AvailableAt e n) outer pairs inner)
    (houter : ∀ id ∈ outer, s.Bound id) {rule : Body} (hrule : rule.outputs = [(inner, dst)])
    {args : List (NodeId × Buffer.Operand)} (hargs : args.map Prod.fst = pairs.map Prod.snd) :
    Lowers g (bodyRegion g need rule args) s fun _ _ => True := by
  have henter := hs.enter
  refine lowers_region ((lowers_bindArgs henter.isOpen).bind fun _ s₁ h₁ hbound => ?_)
  obtain ⟨o, hproducer, hop, id, hread, hid⟩ := hbody.inner
  have hready := henter.grow h₁
  -- The placeholders are bound to the arguments, and scalars from outside to what they were.
  have hok : ∀ id, id ∈ pairs.map Prod.snd ∨ g.AvailableAt e n id ∧ id ∈ outer → s₁.Bound id := by
    rintro id (hid | hid)
    · exact hbound id (by rwa [hargs])
    · exact h₁.bound (LowerState.bound_enter (houter id hid.2))
  have hhole : ∃ arg ∈ (g.op o).inputs, g.Hole e arg := by
    obtain ⟨p, hp, rfl⟩ := List.mem_map.mp hid
    exact ⟨p.2, hread, hbody.hole p hp⟩
  have hinner := hneed.body hready hproducer (hop.mono hok) hhole
  have hyield : Lowers g (yielded g need rule.outputs) s₁ fun _ _ => True := by
    rw [hrule]
    have hvalue : Lowers g (typedName g need inner) s₁ fun _ _ => True :=
      hinner.bind fun _ _ _ _ => lowers_pure trivial
    refine hvalue.bind fun v _ _ _ => ?_
    exact (lowers_cast v _).bind fun _ _ _ _ => lowers_pure trivial
  exact hyield.bind fun values _ _ _ => lowers_emit _

/-! ## Operators -/

/-- An operator on scalars, whatever gives its operands their names. -/
theorem lowers_scalarOp (hs : s.scopes ≠ []) {ok : NodeId → Prop} {op : Op} {dst : NodeId}
    (h : g.ScalarOp ok op dst)
    (hok : ∀ {s' id}, Grows g s s' → ok id → Lowers g (need id) s' fun _ _ => True) :
    Lowers g (operator g need op) s fun _ s' => s'.Bound dst := by
  have htyped : ∀ {s' id}, Grows g s s' → ok id →
      Lowers g (typedName g need id) s' fun v _ => v.size = g.elemSize id := fun hgrows hid =>
    (hok hgrows hid).bind fun _ _ _ _ => lowers_pure rfl
  cases h with
  | unary harg sarg sdst typed =>
    refine (htyped (.refl s) harg).bind fun v s₁ h₁ hv => ?_
    refine (lowers_unary (by rwa [hv])).bind fun name s₂ h₂ _ => ?_
    exact lowers_name (h₂.isOpen (h₁.isOpen hs)) _ name
  | binary hlhs hrhs slhs srhs sdst typed =>
    refine (htyped (.refl s) hlhs).bind fun l s₁ h₁ hl => ?_
    refine (htyped h₁ hrhs).bind fun r s₂ h₂ hr => ?_
    refine (lowers_binary (by rwa [hl, hr])).bind fun name s₃ h₃ _ => ?_
    exact lowers_name (h₃.isOpen (h₂.isOpen (h₁.isOpen hs))) _ name

section Operators

variable (hneed : Serves g e n need) (hs : Ready g e n s)
include hneed hs

theorem lowers_elementwise {inputs : List NodeId} {pairs : List (NodeId × NodeId)}
    {inner dst : NodeId} (hinputs : ∀ id ∈ inputs, g.AvailableAt e n id)
    (houter : ∀ p ∈ pairs, p.1 ∈ inputs)
    (hdims : ∀ d ∈ g.shape dst, g.DimValid e (g.AvailableAt e n) d)
    (hbody : g.BodyValid e (g.AvailableAt e n) inputs pairs inner) :
    Lowers g (operator g need ⟨.elementwise ⟨pairs, [(inner, dst)]⟩, inputs, [dst]⟩) s
      fun _ s' => s'.Bound dst := by
  refine (lowers_prepare hneed hs hinputs).bind fun _ s₁ h₁ hprepared => ?_
  have hs₁ := hs.grow h₁
  have houters : ∀ id ∈ pairs.map Prod.fst, g.AvailableAt e n id := by
    intro id hid
    obtain ⟨p, hp, rfl⟩ := List.mem_map.mp hid
    exact hinputs _ (houter p hp)
  refine (lowers_operands hneed hs₁ houters).bind fun ins s₂ h₂ _ => ?_
  have hs₂ := hs₁.grow h₂
  have halloc : Lowers g (allocNodes g need [dst]) s₂ fun outs _ => ∃ buffer, outs = [buffer] :=
    (lowers_alloc hneed hs₂ _ hdims).bind fun buffer _ _ _ => lowers_pure ⟨buffer, rfl⟩
  refine halloc.bind fun outs s₃ h₃ ⟨buffer, houts⟩ => ?_
  refine lowers_elementArgs.bind fun args s₄ h₄ hargs => ?_
  have hs₄ := (hs₂.grow h₃).grow h₄
  have houter₄ : ∀ id ∈ inputs, s₄.Bound id := fun id hid =>
    h₄.bound (h₃.bound (h₂.bound (hprepared id hid)))
  refine (lowers_bodyRegion hneed hs₄ hbody houter₄ rfl hargs).bind fun block s₅ h₅ _ => ?_
  refine lowers_resultArgs.bind fun outArgs s₆ h₆ _ => ?_
  refine (lowers_emit _).bind fun _ s₇ h₇ _ => ?_
  subst houts
  exact (lowers_name (((hs₄.grow h₅).grow h₆).grow h₇).isOpen dst buffer.name).bind
    fun _ _ _ hbound => lowers_pure hbound

theorem lowers_reduction {axes : List Nat} {arg init x acc inner dst : NodeId}
    (harg : g.AvailableAt e n arg) (hinit : g.AvailableAt e n init)
    (hdims : ∀ d ∈ g.shape dst, g.DimValid e (g.AvailableAt e n) d)
    (hbody : g.BodyValid e (g.AvailableAt e n) [] [(arg, x), (init, acc)] inner) :
    Lowers g (operator g need ⟨.reduction axes ⟨[(arg, x), (init, acc)], [(inner, dst)]⟩ [init],
      [arg, init], [dst]⟩) s fun _ s' => s'.Bound dst := by
  refine (lowers_operand hneed hs harg).bind fun src s₁ h₁ _ => ?_
  have hs₁ := hs.grow h₁
  refine (hneed.available hs₁ hinit).bind fun start s₂ h₂ _ => ?_
  have hs₂ := hs₁.grow h₂
  have hscalar : Lowers g (scalarCell (g.elemSize dst) start) s₂ fun _ _ => True :=
    (lowers_fresh _).bind fun _ _ _ _ => (lowers_emit _).bind fun _ _ _ _ =>
      (lowers_emit _).bind fun _ _ _ _ => lowers_pure trivial
  have htensor : Lowers g (tensorCell g need dst start) s₂ fun _ _ => True :=
    (lowers_alloc hneed hs₂ _ hdims).bind fun _ _ _ _ =>
      (lowers_emit _).bind fun _ _ _ _ => lowers_pure trivial
  refine lowers_ite_bind hscalar htensor fun cell s₃ h₃ _ => ?_
  refine (lowers_nodeName x "in").bind fun xName s₄ h₄ _ => ?_
  refine (lowers_fresh "acc").bind fun accName s₅ h₅ _ => ?_
  have hs₅ := ((hs₂.grow h₃).grow h₄).grow h₅
  refine (lowers_bodyRegion hneed hs₅ hbody (by simp) rfl rfl).bind fun block s₆ h₆ _ => ?_
  refine (lowers_emit _).bind fun _ s₇ h₇ _ => ?_
  have hs₇ := (hs₅.grow h₆).grow h₇
  refine lowers_ite (fun _ => ?_) fun _ => lowers_name hs₇.isOpen dst cell.name
  refine (lowers_fresh _).bind fun v s₈ h₈ _ => (lowers_emit _).bind fun _ s₉ h₉ _ => ?_
  exact lowers_name ((hs₇.grow h₈).grow h₉).isOpen dst v

theorem lowers_getItem {target dst : NodeId} {indices : List NodeId}
    (htarget : g.AvailableAt e n target) (hindices : ∀ id ∈ indices, g.AvailableAt e n id) :
    Lowers g (getItem g need target indices dst) s fun _ s' => s'.Bound dst := by
  refine (lowers_operand hneed hs htarget).bind fun src s₁ h₁ _ => ?_
  have hs₁ := hs.grow h₁
  refine (lowers_indexValues hneed hs₁ hindices).bind fun is s₂ h₂ _ => ?_
  refine (lowers_fresh _).bind fun v s₃ h₃ _ => (lowers_emit _).bind fun _ s₄ h₄ _ => ?_
  exact lowers_name (((hs₁.grow h₂).grow h₃).grow h₄).isOpen dst v

theorem lowers_setItem {target value dst : NodeId} {indices : List NodeId}
    (htarget : g.AvailableAt e n target) (hvalue : g.AvailableAt e n value)
    (hindices : ∀ id ∈ indices, g.AvailableAt e n id)
    (hdims : ∀ d ∈ g.shape dst, g.DimValid e (g.AvailableAt e n) d) :
    Lowers g (setItem g need target value indices dst) s fun _ s' => s'.Bound dst := by
  refine (lowers_operand hneed hs htarget).bind fun src s₁ h₁ _ => ?_
  have hs₁ := hs.grow h₁
  refine (lowers_typedName hneed hs₁ hvalue).bind fun v s₂ h₂ _ => ?_
  have hs₂ := hs₁.grow h₂
  refine (lowers_indexValues hneed hs₂ hindices).bind fun is s₃ h₃ _ => ?_
  have hs₃ := hs₂.grow h₃
  refine (lowers_alloc hneed hs₃ _ hdims).bind fun buffer s₄ h₄ _ => ?_
  refine (lowers_emit _).bind fun _ s₅ h₅ _ => (lowers_cast v _).bind fun name s₆ h₆ _ => ?_
  refine (lowers_emit _).bind fun _ s₇ h₇ _ => ?_
  exact lowers_name ((((hs₃.grow h₄).grow h₅).grow h₆).grow h₇).isOpen dst buffer.name

theorem lowers_copy {src dst : NodeId} (hsrc : g.AvailableAt e n src)
    (hdims : ∀ d ∈ g.shape dst, g.DimValid e (g.AvailableAt e n) d) (deep : Bool) :
    Lowers g (copy g need src dst deep) s fun _ s' => s'.Bound dst := by
  refine lowers_ite (fun _ => ?_) fun _ => lowers_ite (fun _ => ?_) fun _ =>
    lowers_ite (fun _ => ?_) fun _ => ?_
  · refine (lowers_typedName hneed hs hsrc).bind fun v s₁ h₁ _ => ?_
    refine (lowers_cast v _).bind fun name s₂ h₂ _ => ?_
    exact lowers_name ((hs.grow h₁).grow h₂).isOpen dst name
  · have hconvert : Lowers g (convertTensor g need src dst) s fun _ _ => True := by
      refine (lowers_operand hneed hs hsrc).bind fun input s₁ h₁ _ => ?_
      refine (lowers_alloc hneed (hs.grow h₁) _ hdims).bind fun buffer s₂ h₂ _ => ?_
      refine (lowers_nodeName src "in").bind fun x s₃ h₃ _ => ?_
      refine (lowers_fresh "out").bind fun out s₄ h₄ _ => ?_
      refine (lowers_region ?_).bind fun block s₅ h₅ _ => ?_
      · exact (lowers_cast _ _).bind fun v _ _ _ => lowers_emit _
      · exact (lowers_emit _).bind fun _ _ _ _ => lowers_pure trivial
    exact hconvert.bind fun buffer s₁ h₁ _ => lowers_name (hs.grow h₁).isOpen dst buffer.name
  · refine (lowers_operand hneed hs hsrc).bind fun input s₁ h₁ _ => ?_
    refine (lowers_alloc hneed (hs.grow h₁) _ hdims).bind fun buffer s₂ h₂ _ => ?_
    refine (lowers_emit _).bind fun _ s₃ h₃ _ => ?_
    exact lowers_name (((hs.grow h₁).grow h₂).grow h₃).isOpen dst buffer.name
  · exact (hneed.available hs hsrc).bind fun name s₁ h₁ _ =>
      lowers_name (hs.grow h₁).isOpen dst name

end Operators

/-! ## Slices -/

section Slices

variable (hneed : Serves g e n need)
include hneed

theorem lowers_axisStart (hs : Ready g e n s) {selected : Option SliceIndex}
    (h : ∀ i ∈ selected, ∀ id ∈ i.nodes, g.AvailableAt e n id) :
    Lowers g (axisStart g need selected) s fun _ _ => True := by
  match selected with
  | none =>
    exact (lowers_indexConstant 0).bind fun _ _ _ _ => (lowers_indexConstant 1).bind
      fun _ _ _ _ => lowers_pure trivial
  | some (.element i) =>
    have hi := h _ rfl i (by simp [SliceIndex.nodes])
    exact (lowers_indexValue hneed hs hi).bind fun _ _ _ _ => (lowers_indexConstant 1).bind
      fun _ _ _ _ => lowers_pure trivial
  | some (.range lower upper step) =>
    have hlower := h _ rfl lower (by simp [SliceIndex.nodes])
    have hstep := h _ rfl step (by simp [SliceIndex.nodes])
    exact (lowers_indexValue hneed hs hlower).bind fun _ _ h₁ _ =>
      (lowers_indexValue hneed (hs.grow h₁) hstep).bind fun _ _ _ _ => lowers_pure trivial

theorem lowers_axisViews {sizes : Shape} : ∀ {s} {selected : List SliceIndex}, Ready g e n s →
    (∀ i ∈ selected, ∀ id ∈ i.nodes, g.AvailableAt e n id) →
    (∀ d ∈ sizes, g.DimValid e (g.AvailableAt e n) d) →
    Lowers g (axisViews g need selected sizes) s fun _ _ => True := by
  induction sizes with
  | nil => exact fun _ _ _ => lowers_pure trivial
  | cons size sizes ih =>
    intro s selected hs hselected hsizes
    have hhead : ∀ i ∈ selected.head?, ∀ id ∈ i.nodes, g.AvailableAt e n id := fun i hi =>
      hselected i (List.mem_of_mem_head? hi)
    refine (lowers_axisStart hneed hs hhead).bind fun start s₁ h₁ _ => ?_
    have hs₁ := hs.grow h₁
    refine (lowers_dimIndex hneed hs₁ (hsizes size (List.mem_cons_self ..))).bind
      fun extent s₂ h₂ _ => ?_
    exact (ih (hs₁.grow h₂) (fun i hi => hselected i (List.mem_of_mem_tail hi))
      fun d hd => hsizes d (List.mem_cons_of_mem _ hd)).bind fun _ _ _ _ => lowers_pure trivial

theorem lowers_slice (hs : Ready g e n s) {target dst : NodeId} {selected : List SliceIndex}
    {sizes : Shape} (htarget : g.AvailableAt e n target)
    (hselected : ∀ i ∈ selected, ∀ id ∈ i.nodes, g.AvailableAt e n id)
    (hsizes : ∀ d ∈ sizes, g.DimValid e (g.AvailableAt e n) d) :
    Lowers g (slice g need target selected sizes dst) s fun _ s' => s'.Bound dst := by
  refine (lowers_operand hneed hs htarget).bind fun src s₁ h₁ _ => ?_
  have hs₁ := hs.grow h₁
  refine (lowers_axisViews hneed hs₁ hselected fun d hd => hsizes d (List.mem_of_mem_take hd)).bind
    fun views s₂ h₂ _ => ?_
  refine (lowers_fresh _).bind fun name s₃ h₃ _ => (lowers_emit _).bind fun _ s₄ h₄ _ => ?_
  have hs₄ := ((hs₁.grow h₂).grow h₃).grow h₄
  refine (lowers_alloc hneed hs₄ _ hsizes).bind fun buffer s₅ h₅ _ => ?_
  refine (lowers_emit _).bind fun _ s₆ h₆ _ => ?_
  have hs₆ := (hs₄.grow h₅).grow h₆
  refine lowers_ite (fun _ => ?_) fun _ => lowers_name hs₆.isOpen dst buffer.name
  refine (lowers_fresh _).bind fun id s₇ h₇ _ => (lowers_emit _).bind fun _ s₈ h₈ _ => ?_
  exact lowers_name ((hs₆.grow h₇).grow h₈).isOpen dst id

end Slices

/-- Every operator of a well-formed kind lowers and names its result. -/
theorem lowers_operator (hneed : Serves g e n need) (hs : Ready g e n s) {op : Op} {dst : NodeId}
    (h : g.Computes e (g.AvailableAt e n) op dst) :
    Lowers g (operator g need op) s fun _ s' => s'.Bound dst := by
  obtain ⟨hdims, hop⟩ := h
  cases hop with
  | scalar hop =>
    exact lowers_scalarOp hs.isOpen hop fun hgrows hid =>
      (hneed.available (hs.grow hgrows) hid).mono fun _ _ _ _ => trivial
  | elementwise hinputs houter sdst size body =>
    exact lowers_elementwise hneed hs hinputs (fun p hp => (houter p hp).1) hdims body
  | reduction harg hinit sarg sinit isize full partly size body =>
    exact lowers_reduction hneed hs harg hinit hdims body
  | getItem htarget starget hindices rank sdst size =>
    exact lowers_getItem hneed hs htarget fun id hid => (hindices id hid).avail
  | setItem htarget starget hvalue svalue hindices rank type =>
    exact lowers_setItem hneed hs htarget hvalue (fun id hid => (hindices id hid).avail) hdims
  | slice htarget starget hselected selectedLe rank hsizes trims sdst size =>
    exact lowers_slice hneed hs htarget (fun i hi id hid => (hselected i hi id hid).avail) hsizes
  | copy hkind hsrc same =>
    rcases hkind with rfl | rfl
    · exact lowers_copy hneed hs hsrc hdims false
    · exact lowers_copy hneed hs hsrc hdims true

end LowerM

end TensorKernel
