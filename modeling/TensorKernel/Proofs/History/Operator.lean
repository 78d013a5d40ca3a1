import TensorKernel.Proofs.History.Operand

/-!
# Histories of operators

Every operator creates the buffers that it writes, and binds its results to them when it is done.
The regions of operators are opened while these buffers are blank, so what a region computes cannot
read them.
-/

namespace TensorKernel

open Buffer (Operand)

namespace LowerM

variable {opens : List Name} {c : Nat} {g : Graph} {need : NodeId → LowerM Name}

/-! ## Bodies -/

theorem keeps_bindArgs (args : List (NodeId × Operand)) : ∀ {c},
    (∀ p ∈ args, Settled opens c p.2.name) → Keeps opens c (bindArgs args) fun _ _ => True := by
  induction args with
  | nil => exact fun _ => follows_pure trivial
  | cons arg args ih =>
    intro c hargs
    obtain ⟨harg, hargs⟩ := List.forall_mem_cons.mp hargs
    exact (keeps_bind arg.1 harg).bind fun _ _ h₁ _ => ih fun p hp => (hargs p hp).later h₁

theorem keeps_elementArgs (pairs : List (NodeId × NodeId)) : ∀ {c},
    Keeps opens c (elementArgs g pairs) fun c' args => ∀ p ∈ args, Settled opens c' p.2.name := by
  induction pairs with
  | nil => exact follows_pure (List.forall_mem_nil _)
  | cons pair pairs ih =>
    intro c
    refine (follows_nodeName g pair.2 "in").bind fun n c₁ _ hn => ?_
    refine ih.bind fun args c₂ h₂ hargs => ?_
    exact follows_pure (List.forall_mem_cons.mpr ⟨hn.later h₂, hargs⟩)

theorem follows_resultArgs {p : Pending} (pairs : List (NodeId × NodeId)) : ∀ {c},
    Follows p c (resultArgs g pairs) (fun _ => p) fun _ _ => True := by
  induction pairs with
  | nil => exact follows_pure trivial
  | cons pair pairs ih =>
    intro c
    exact (follows_fresh "out").bind fun _ _ _ _ => ih.bind fun _ _ _ _ => follows_pure trivial

theorem keeps_bindResults (pairs : List (NodeId × NodeId)) : ∀ {c} {buffers : List Operand},
    (∀ b ∈ buffers, Settled opens c b.name) →
    Keeps opens c (bindResults pairs buffers) fun _ _ => True := by
  induction pairs with
  | nil => exact fun _ => follows_pure trivial
  | cons pair pairs ih =>
    intro c buffers hbuffers
    cases buffers with
    | nil => exact follows_pure trivial
    | cons buffer buffers =>
      obtain ⟨hbuffer, hbuffers⟩ := List.forall_mem_cons.mp hbuffers
      exact (keeps_bind pair.2 hbuffer).bind fun _ _ h₁ _ =>
        ih fun b hb => (hbuffers b hb).later h₁

/-- A region ends with a statement that only reads. -/
theorem keeps_yield {values : List Operand} (hvalues : ∀ v ∈ values, Settled opens c v.name) :
    Keeps opens c (emit (.yield values)) fun _ _ => True := by
  refine keeps_emit rfl ?_ (List.forall_mem_nil _)
  exact List.forall_mem_map.mpr hvalues

/-- The cell of a reduction over all axes gets its first value when it is created. -/
theorem follows_scalarCell (sz : ElemSize) {init : Name} (hinit : Settled opens c init) :
    Follows (.writing opens) c (scalarCell sz init) (fun o => .writing (o.name :: opens))
      fun c' o => Opened opens c c' [o.name] := by
  refine follows_create (fun _ => rfl) (fun _ => List.forall_mem_nil _) fun b c₁ h₁ hb => ?_
  refine (keeps_emit rfl ?_ ?_).bind fun _ c₂ h₂ _ => ?_
  · simpa [Buffer.Stmt.reads] using hb.keeps hinit
  · simp [Buffer.Stmt.writes]
  · exact follows_leaving (List.Subset.refl _) (hb.later h₂)

section Rules

variable (hneed : GivesSettled need)
include hneed

theorem keeps_yielded (pairs : List (NodeId × NodeId)) : ∀ {c},
    Keeps opens c (yielded g need pairs) fun c' values => ∀ v ∈ values, Settled opens c' v.name := by
  induction pairs with
  | nil => exact follows_pure (List.forall_mem_nil _)
  | cons pair pairs ih =>
    intro c
    refine (keeps_typedName hneed pair.1).bind fun v c₁ _ hv => ?_
    refine (keeps_cast _ hv).bind fun n c₂ _ hn => ih.bind fun values c₃ h₃ hvalues => ?_
    exact follows_pure (List.forall_mem_cons.mpr ⟨hn.later h₃, hvalues⟩)

theorem follows_bodyRegion (body : Body) {args : List (NodeId × Operand)}
    (hargs : ∀ p ∈ args, Settled opens c p.2.name) :
    Follows (.writing opens) c (bodyRegion g need body args) (fun block => ⟨opens, block⟩)
      fun _ _ => True := by
  apply follows_region
  refine (keeps_bindArgs args hargs).bind fun _ _ _ _ => ?_
  exact (keeps_yielded hneed body.outputs).bind fun _ _ _ hvalues => keeps_yield hvalues

/-! ## Operators -/

theorem keeps_elementwise (op : Op) (body : Body) :
    Keeps opens c (elementwise g need op body) fun _ _ => True := by
  refine (keeps_prepare hneed op.inputs).bind fun _ c₁ h₁ _ => ?_
  cases body.outputs with
  | nil => exact follows_throw
  | cons output outputs =>
    refine (keeps_operands hneed _).bind fun ins c₂ h₂ hins => ?_
    refine (follows_allocNodes hneed _).bind fun outs c₃ h₃ houts => ?_
    refine (keeps_elementArgs body.inputs).bind fun args c₄ h₄ hargs => ?_
    refine (follows_bodyRegion hneed body hargs).bind fun block c₅ h₅ _ => ?_
    refine (follows_resultArgs _).bind fun outArgs c₆ h₆ _ => ?_
    refine (follows_emit (by rfl) ?_ ?_).bind fun _ c₇ h₇ _ => ?_
    · exact List.forall_mem_map.mpr fun o ho => (houts.keeps (hins o ho)).later (by omega)
    · exact fun n hn => List.mem_append_left _ hn
    -- The results are complete: the nodes may be bound to them.
    apply Follows.close (List.subset_append_right _ opens)
    apply keeps_bindResults
    intro o ho
    exact (houts.settled _ (List.mem_map_of_mem ho)).later (by omega)

theorem follows_tensorCell (dst : NodeId) {init : Name} (hinit : Settled opens c init) :
    Follows (.writing opens) c (tensorCell g need dst init) (fun o => .writing (o.name :: opens))
      fun c' o => Opened opens c c' [o.name] := by
  refine (follows_alloc hneed _ _).bind fun o c₁ h₁ ho => ?_
  refine (keeps_emit rfl ?_ ?_).bind fun _ c₂ h₂ _ => ?_
  · simpa [Buffer.Stmt.reads] using ho.keeps hinit
  · simp [Buffer.Stmt.writes]
  · exact follows_leaving (List.Subset.refl _) (ho.later h₂)

theorem keeps_reduction (op : Op) (axes : List Nat) (body : Body) :
    Keeps opens c (reduction g need op axes body) fun _ _ => True := by
  unfold reduction
  split
  next arg init _ x _ acc _ _ =>
    split
    next _ dst _ =>
      refine (keeps_operand hneed arg).bind fun src c₁ h₁ hsrc => ?_
      refine (hneed init).bind fun start c₂ h₂ hstart => ?_
      refine follows_ite_bind (fun _ => follows_scalarCell _ hstart)
        (fun _ => follows_tensorCell hneed dst hstart) fun cell c₃ h₃ hcell => ?_
      refine (follows_nodeName g x "in").bind fun xName c₄ h₄ hx => ?_
      refine (follows_fresh "acc").bind fun accName c₅ h₅ hacc => ?_
      refine (follows_bodyRegion hneed body ?_).bind fun block c₆ h₆ _ => ?_
      · simpa using ⟨hx.later h₅, hacc⟩
      refine (follows_emit (by rfl) ?_ ?_).bind fun _ c₇ h₇ _ => ?_
      · simpa [Buffer.Stmt.reads] using (hcell.keeps (hsrc.later h₂)).later (by omega)
      · simp [Buffer.Stmt.writes]
      -- The cell is complete: it may be read, and the node may be bound to it.
      apply Follows.close (List.subset_cons_self cell.name opens)
      have hdone : Settled opens c₇ cell.name :=
        hcell.head.later (by omega)
      apply follows_ite
      · intro _
        refine follows_define (fun _ => ⟨rfl, rfl⟩) (fun _ => ?_) fun v _ _ hv => keeps_bind dst hv
        simpa [Buffer.Stmt.reads, Buffer.Stmt.operands] using hdone
      · exact fun _ => keeps_bind dst hdone
    next => exact follows_throw
  next => exact follows_throw

theorem keeps_getItem (target : NodeId) (is : List NodeId) (dst : NodeId) :
    Keeps opens c (getItem g need target is dst) fun _ _ => True := by
  refine (keeps_operand hneed target).bind fun src c₁ h₁ hsrc => ?_
  refine (keeps_indexValues hneed is).bind fun indices c₂ h₂ hindices => ?_
  refine follows_define (fun _ => ⟨rfl, rfl⟩) (fun _ => ?_) fun v _ _ hv => keeps_bind dst hv
  exact List.forall_mem_cons.mpr ⟨hsrc.later h₂, hindices⟩

theorem keeps_setItem (target value : NodeId) (is : List NodeId) (dst : NodeId) :
    Keeps opens c (setItem g need target value is dst) fun _ _ => True := by
  refine (keeps_operand hneed target).bind fun src c₁ h₁ hsrc => ?_
  refine (keeps_typedName hneed value).bind fun v c₂ h₂ hv => ?_
  refine (keeps_indexValues hneed is).bind fun indices c₃ h₃ hindices => ?_
  refine (follows_alloc hneed _ _).bind fun buffer c₄ h₄ hbuffer => ?_
  refine (keeps_emit rfl ?_ ?_).bind fun _ c₅ h₅ _ => ?_
  · simpa [Buffer.Stmt.reads] using hbuffer.keeps (hsrc.later (by omega))
  · simp [Buffer.Stmt.writes]
  -- The copy is still blank when the value is converted, so it may be written again.
  refine (keeps_cast _ ((hbuffer.keeps (hv.later h₃)).later h₅)).bind fun n c₆ h₆ hn => ?_
  refine (keeps_emit rfl ?_ ?_).bind fun _ c₇ h₇ _ => ?_
  · refine List.forall_mem_cons.mpr ⟨hn, fun i hi => ?_⟩
    exact (hbuffer.keeps (hindices i hi)).later (by omega)
  · simp [Buffer.Stmt.writes]
  apply Follows.close (List.subset_cons_self buffer.name opens)
  apply keeps_bind
  exact hbuffer.head.later (by omega)

theorem keeps_axisStart (selected : Option SliceIndex) :
    Keeps opens c (axisStart g need selected) fun c' start =>
      Settled opens c' start.1 ∧ Settled opens c' start.2 := by
  cases selected with
  | none =>
    refine (keeps_indexConstant 0).bind fun offset _ _ ho => ?_
    exact (keeps_indexConstant 1).bind fun stride _ h₂ hs => follows_pure ⟨ho.later h₂, hs⟩
  | some index =>
    cases index with
    | element i =>
      refine (keeps_indexValue hneed i).bind fun offset _ _ ho => ?_
      exact (keeps_indexConstant 1).bind fun stride _ h₂ hs => follows_pure ⟨ho.later h₂, hs⟩
    | range lower upper step =>
      refine (keeps_indexValue hneed lower).bind fun offset _ _ ho => ?_
      exact (keeps_indexValue hneed step).bind fun stride _ h₂ hs =>
        follows_pure ⟨ho.later h₂, hs⟩

theorem keeps_axisViews (sizes : Shape) : ∀ {c} {selected : List SliceIndex},
    Keeps opens c (axisViews g need selected sizes) fun c' views => ∀ v ∈ views,
      Settled opens c' v.offset ∧ Settled opens c' v.size ∧ Settled opens c' v.stride := by
  induction sizes with
  | nil => exact follows_pure (List.forall_mem_nil _)
  | cons size sizes ih =>
    intro c selected
    refine (keeps_axisStart hneed selected.head?).bind fun start c₁ h₁ ⟨hoffset, hstride⟩ => ?_
    refine (keeps_dimIndex hneed size).bind fun extent c₂ h₂ hextent => ?_
    refine ih.bind fun views c₃ h₃ hviews => follows_pure (List.forall_mem_cons.mpr ⟨?_, hviews⟩)
    exact ⟨hoffset.later (by omega), hextent.later h₃, hstride.later (by omega)⟩

theorem keeps_slice (target : NodeId) (selected : List SliceIndex) (sizes : Shape)
    (dst : NodeId) : Keeps opens c (slice g need target selected sizes dst) fun _ _ => True := by
  refine (keeps_operand hneed target).bind fun src c₁ h₁ hsrc => ?_
  refine (keeps_axisViews hneed _).bind fun views c₂ h₂ hviews => ?_
  refine follows_define (fun _ => ⟨rfl, rfl⟩) (fun _ => ?_) fun view c₃ h₃ hview => ?_
  · refine List.forall_mem_cons.mpr ⟨hsrc.later h₂, ?_⟩
    simp only [List.forall_mem_append, List.forall_mem_map]
    exact ⟨⟨fun v hv => (hviews v hv).1, fun v hv => (hviews v hv).2.1⟩,
      fun v hv => (hviews v hv).2.2⟩
  refine (follows_alloc hneed _ _).bind fun buffer c₄ h₄ hbuffer => ?_
  refine (keeps_emit rfl ?_ ?_).bind fun _ c₅ h₅ _ => ?_
  · simpa [Buffer.Stmt.reads] using hbuffer.keeps hview
  · simp [Buffer.Stmt.writes]
  -- The copy is complete: it may be collapsed, and the node may be bound to it.
  apply Follows.close (List.subset_cons_self buffer.name opens)
  have hdone : Settled opens c₅ buffer.name :=
    hbuffer.head.later h₅
  apply follows_ite
  · intro _
    refine follows_define (fun _ => ⟨rfl, rfl⟩) (fun _ => ?_) fun id _ _ hid => keeps_bind dst hid
    simpa [Buffer.Stmt.reads, Buffer.Stmt.operands] using hdone
  · exact fun _ => keeps_bind dst hdone

theorem keeps_convertTensor (src dst : NodeId) :
    Keeps opens c (convertTensor g need src dst) fun c' o => Settled opens c' o.name := by
  refine (keeps_operand hneed src).bind fun input c₁ h₁ hinput => ?_
  refine (follows_alloc hneed _ _).bind fun buffer c₂ h₂ hbuffer => ?_
  refine (follows_nodeName g src "in").bind fun x c₃ h₃ hx => ?_
  refine (follows_fresh "out").bind fun out c₄ h₄ _ => ?_
  have hregion : Follows (.writing (buffer.name :: opens)) c₄ (region do
      let v ← cast ⟨x, g.elemSize src⟩ (g.elemSize dst)
      emit (.yield [⟨v, .scalar (g.elemSize dst)⟩]))
      (fun block => ⟨buffer.name :: opens, block⟩) fun _ _ => True := by
    apply follows_region
    refine (keeps_cast _ (hx.later h₄)).bind fun v _ _ hv => keeps_yield ?_
    simpa using hv
  refine hregion.bind fun block c₅ h₅ _ => ?_
  refine (follows_emit (by rfl) ?_ ?_).bind fun _ c₆ h₆ _ => ?_
  · simpa [Buffer.Stmt.reads] using (hbuffer.keeps hinput).later (by omega)
  · simp [Buffer.Stmt.writes]
  apply Follows.close (List.subset_cons_self buffer.name opens)
  apply follows_pure
  exact hbuffer.head.later (by omega)

theorem keeps_copy (src dst : NodeId) (deep : Bool) :
    Keeps opens c (copy g need src dst deep) fun _ _ => True := by
  apply follows_ite
  · intro _
    refine (keeps_typedName hneed src).bind fun v _ _ hv => ?_
    exact (keeps_cast _ hv).bind fun n _ _ hn => keeps_bind dst hn
  intro _
  apply follows_ite
  · intro _
    refine (keeps_convertTensor hneed src dst).bind fun buffer _ _ hbuffer => ?_
    exact keeps_bind dst hbuffer
  intro _
  apply follows_ite
  · intro _
    refine (keeps_operand hneed src).bind fun input c₁ h₁ hinput => ?_
    refine (follows_alloc hneed _ _).bind fun buffer c₂ h₂ hbuffer => ?_
    refine (keeps_emit rfl ?_ ?_).bind fun _ c₃ h₃ _ => ?_
    · simpa [Buffer.Stmt.reads] using hbuffer.keeps hinput
    · simp [Buffer.Stmt.writes]
    apply Follows.close (List.subset_cons_self buffer.name opens)
    exact keeps_bind dst (hbuffer.head.later h₃)
  · exact fun _ => (hneed src).bind fun n _ _ hn => keeps_bind dst hn

theorem keeps_operator (op : Op) : Keeps opens c (operator g need op) fun _ _ => True := by
  unfold operator
  split
  · exact follows_throw
  next dst _ _ =>
    split
    next unop arg _ _ _ =>
      refine (keeps_typedName hneed arg).bind fun v _ _ hv => ?_
      exact (keeps_unary unop hv).bind fun n _ _ hn => keeps_bind dst hn
    next binop lhs rhs _ _ _ =>
      refine (keeps_typedName hneed lhs).bind fun l _ _ hl => ?_
      refine (keeps_typedName hneed rhs).bind fun r _ h₂ hr => ?_
      exact (keeps_binary binop (hl.later h₂) hr).bind fun n _ _ hn => keeps_bind dst hn
    next body _ => exact keeps_elementwise hneed op body
    next axes body _ _ => exact keeps_reduction hneed op axes body
    next target is _ _ => exact keeps_getItem hneed target is dst
    next target value is _ _ => exact keeps_setItem hneed target value is dst
    next selected sizes target _ _ _ => exact keeps_slice hneed target selected sizes dst
    next src _ _ _ => exact keeps_copy hneed src dst false
    next src _ _ _ => exact keeps_copy hneed src dst true
    next => exact follows_throw

end Rules

end LowerM

end TensorKernel
