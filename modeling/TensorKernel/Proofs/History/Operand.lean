import TensorKernel.Proofs.History.Logic

/-!
# Histories of scalars and operands

The steps that compute scalars, and that give the operands of an operator, their indices and their
dimensions, keep the discipline of writes for any settled names.  All they write to is nothing: a
buffer that is allocated is left open for the steps that follow.
-/

namespace TensorKernel

open Buffer (Operand)

namespace LowerM

variable {opens : List Name} {c : Nat}

/-! ## Scalars -/

section Scalars

variable {l r : Name} {sz : ElemSize}

theorem keeps_constant (v : Literal) (sz : ElemSize) :
    Keeps opens c (constant v sz) (Settled opens) :=
  keeps_definition (fun _ => ⟨rfl, rfl⟩) fun _ => List.forall_mem_nil _

theorem keeps_zero (sz : ElemSize) : Keeps opens c (zero sz) (Settled opens) :=
  keeps_constant _ sz

theorem keeps_arith (op : Buffer.ArithOp) (hl : Settled opens c l) (hr : Settled opens c r) :
    Keeps opens c (arith op l r sz) (Settled opens) :=
  keeps_definition (fun _ => ⟨rfl, rfl⟩) fun _ => by
    simpa [Buffer.Stmt.reads, Buffer.Stmt.operands] using ⟨hl, hr⟩

theorem keeps_compare (predicate : Buffer.Predicate) (hl : Settled opens c l)
    (hr : Settled opens c r) : Keeps opens c (compare predicate l r sz) (Settled opens) :=
  keeps_definition (fun _ => ⟨rfl, rfl⟩) fun _ => by
    simpa [Buffer.Stmt.reads, Buffer.Stmt.operands] using ⟨hl, hr⟩

theorem keeps_floatUnary (base : String) (op : Buffer.UnaryOp) (hl : Settled opens c l) :
    Keeps opens c (floatUnary base op l sz) (Settled opens) :=
  keeps_definition (fun _ => ⟨rfl, rfl⟩) fun _ => by
    simpa [Buffer.Stmt.reads, Buffer.Stmt.operands] using hl

theorem keeps_cast {v : TypedName} (target : ElemSize) (hv : Settled opens c v.name) :
    Keeps opens c (cast v target) (Settled opens) := by
  unfold cast
  apply follows_ite
  · exact fun _ => follows_pure hv
  intro _
  refine (follows_fresh "cast").bind fun dst c₁ h₁ hdst => ?_
  apply follows_ite
  · intro _
    -- The name of the result is older than that of the zero, and is defined after it.
    refine (keeps_zero v.size).bind fun zero c₂ h₂ hzero => ?_
    refine (keeps_emit rfl ?_ ?_).bind fun _ c₃ h₃ _ => follows_pure (hdst.later (by omega))
    · simpa [Buffer.Stmt.reads, Buffer.Stmt.operands] using ⟨hv.later (by omega), hzero⟩
    · simp [Buffer.Stmt.writes]
  · intro _
    refine (keeps_emit rfl ?_ ?_).bind fun _ c₂ h₂ _ => follows_pure (hdst.later h₂)
    · simpa [Buffer.Stmt.reads, Buffer.Stmt.operands] using hv.later h₁
    · simp [Buffer.Stmt.writes]

theorem keeps_floorRem (hl : Settled opens c l) (hr : Settled opens c r) :
    Keeps opens c (floorRem l r sz) (Settled opens) := by
  refine (keeps_arith _ hl hr).bind fun m c₁ _ hm => ?_
  refine (keeps_zero sz).bind fun zero c₂ _ hzero => ?_
  refine (keeps_compare .ne (hm.later (by omega)) hzero).bind fun nonzero c₃ _ hnonzero => ?_
  have hm₃ : Settled opens c₃ m := hm.later (by omega)
  have hzero₃ : Settled opens c₃ zero := hzero.later (by omega)
  refine (keeps_compare .lt hm₃ hzero₃).bind fun negative c₄ _ hnegative => ?_
  have hr₄ : Settled opens c₄ r := hr.later (by omega)
  refine (keeps_compare .lt hr₄ (hzero₃.later (by omega))).bind
    fun divisorNegative c₅ _ hdivisor => ?_
  refine (keeps_arith .xorI (hnegative.later (by omega)) hdivisor).bind
    fun signsDiffer c₆ _ hsigns => ?_
  refine (keeps_arith .andI (hnonzero.later (by omega)) hsigns).bind fun adjust c₇ _ hadjust => ?_
  have hm₇ : Settled opens c₇ m := hm₃.later (by omega)
  refine (keeps_arith _ hm₇ (hr₄.later (by omega))).bind fun adjusted c₈ h₈ hadjusted => ?_
  refine keeps_definition (fun _ => ⟨rfl, rfl⟩) fun _ => ?_
  simpa [Buffer.Stmt.reads, Buffer.Stmt.operands] using
    ⟨hadjust.later h₈, hadjusted, hm₇.later h₈⟩

theorem keeps_arithmetic (op : BinOp) (hl : Settled opens c l) (hr : Settled opens c r) :
    Keeps opens c (arithmetic op l r sz) (Settled opens) := by
  cases op with
  | add | sub | mul | pow | max | min => exact keeps_arith _ hl hr
  | div => exact follows_ite (fun _ => keeps_arith .divF hl hr) fun _ => follows_throw
  | floorDiv =>
    apply follows_ite
    · intro _
      exact (keeps_arith .divF hl hr).bind fun q _ _ hq => keeps_floatUnary _ _ hq
    · exact fun _ => keeps_arith .floorDivSI hl hr
  | rem => exact keeps_floorRem hl hr
  | and | or | bitAnd | bitOr | bitXor =>
    exact follows_ite (fun _ => follows_throw) fun _ => keeps_arith _ hl hr
  | eq | neq | leq | geq | lt | gt => exact follows_throw

theorem keeps_binary (op : BinOp) {lhs rhs : TypedName} (hl : Settled opens c lhs.name)
    (hr : Settled opens c rhs.name) : Keeps opens c (binary op lhs rhs sz) (Settled opens) := by
  unfold binary
  cases comparePredicate? op with
  | some predicate =>
    refine (keeps_cast _ hl).bind fun l c₁ h₁ hl => ?_
    refine (keeps_cast _ (hr.later h₁)).bind fun r c₂ h₂ hr => ?_
    exact (keeps_compare predicate (hl.later h₂) hr).bind fun v _ _ hv => keeps_cast sz hv
  | none =>
    refine (keeps_cast _ hl).bind fun l c₁ h₁ hl => ?_
    exact (keeps_cast _ (hr.later h₁)).bind fun r c₂ h₂ hr =>
      keeps_arithmetic op (hl.later h₂) hr

theorem keeps_unary (op : UnOp) {arg : TypedName} (harg : Settled opens c arg.name) :
    Keeps opens c (unary op arg sz) (Settled opens) := by
  cases op with
  | neg =>
    refine (keeps_cast sz harg).bind fun a c₁ h₁ ha => ?_
    apply follows_ite
    · exact fun _ => keeps_floatUnary _ _ ha
    · intro _
      exact (keeps_zero sz).bind fun zero c₂ h₂ hzero => keeps_arith .subI hzero (ha.later h₂)
  | not =>
    refine (keeps_cast .bool harg).bind fun a c₁ h₁ ha => ?_
    refine (keeps_constant _ .bool).bind fun one c₂ h₂ hone => ?_
    exact (keeps_arith .xorI (ha.later h₂) hone).bind fun v _ _ hv => keeps_cast sz hv
  | bitNot =>
    apply follows_ite
    · exact fun _ => follows_throw
    · intro _
      refine (keeps_cast sz harg).bind fun a c₁ h₁ ha => ?_
      exact (keeps_constant _ sz).bind fun ones c₂ h₂ hones =>
        keeps_arith .xorI (ha.later h₂) hones

end Scalars

/-! ## Operands and dimensions -/

theorem follows_nodeName {p : Pending} (g : Graph) (id : NodeId) (use : String) :
    Follows p c (nodeName g id use) (fun _ => p) (Settled p.opens) := by
  unfold nodeName
  cases (g.node id).name with
  | some name => exact follows_fresh _
  | none => exact follows_fresh use

theorem keeps_indexConstant (k : Int) : Keeps opens c (indexConstant k) (Settled opens) := by
  apply follows_get_bind
  intro s hc hs
  subst hc
  cases hfound : s.indexConstant? k with
  | some n => exact follows_pure (hs.constant hfound)
  | none =>
    refine follows_define (fun _ => ⟨rfl, rfl⟩) (fun _ => List.forall_mem_nil _) fun n c₁ _ hn => ?_
    exact (keeps_bindConstant k hn).bind fun _ _ h₂ _ => follows_pure (hn.later h₂)

theorem keeps_toIndex {v : TypedName} (hv : Settled opens c v.name) :
    Keeps opens c (toIndex v) (Settled opens) :=
  keeps_definition (fun _ => ⟨rfl, rfl⟩) fun _ => by
    simpa [Buffer.Stmt.reads, Buffer.Stmt.operands] using hv

/-- The names that are given for nodes are settled, whatever buffers are open. -/
def GivesSettled (need : NodeId → LowerM Name) : Prop :=
  ∀ {opens : List Name} {c : Nat} (id : NodeId), Keeps opens c (need id) (Settled opens)

section Reads

variable {g : Graph} {need : NodeId → LowerM Name} (hneed : GivesSettled need)
include hneed

theorem keeps_operand (id : NodeId) :
    Keeps opens c (operand g need id) fun c' o => Settled opens c' o.name :=
  (hneed id).bind fun _ _ _ hn => follows_pure hn

theorem keeps_typedName (id : NodeId) :
    Keeps opens c (typedName g need id) fun c' v => Settled opens c' v.name :=
  (hneed id).bind fun _ _ _ hn => follows_pure hn

theorem keeps_operands (ids : List NodeId) : ∀ {c},
    Keeps opens c (operands g need ids) fun c' os => ∀ o ∈ os, Settled opens c' o.name := by
  induction ids with
  | nil => exact follows_pure (List.forall_mem_nil _)
  | cons id ids ih =>
    refine (keeps_operand hneed id).bind fun o c₁ _ ho => ih.bind fun os c₂ h₂ hos => ?_
    exact follows_pure (List.forall_mem_cons.mpr ⟨ho.later h₂, hos⟩)

theorem keeps_prepare (ids : List NodeId) : ∀ {c},
    Keeps opens c (prepare need ids) fun _ _ => True := by
  induction ids with
  | nil => exact follows_pure trivial
  | cons id ids ih => exact (hneed id).bind fun _ _ _ _ => ih

theorem keeps_indexValue (id : NodeId) :
    Keeps opens c (indexValue g need id) (Settled opens) :=
  (keeps_typedName hneed id).bind fun _ _ _ hv => keeps_toIndex hv

theorem keeps_indexValues (ids : List NodeId) : ∀ {c},
    Keeps opens c (indexValues g need ids) fun c' is => ∀ i ∈ is, Settled opens c' i := by
  induction ids with
  | nil => exact follows_pure (List.forall_mem_nil _)
  | cons id ids ih =>
    refine (keeps_indexValue hneed id).bind fun i c₁ _ hi => ih.bind fun is c₂ h₂ his => ?_
    exact follows_pure (List.forall_mem_cons.mpr ⟨hi.later h₂, his⟩)

theorem keeps_dimIndex (d : Dim) : Keeps opens c (dimIndex g need d) (Settled opens) := by
  cases d with
  | const k => exact keeps_indexConstant k
  | node id => exact keeps_indexValue hneed id
  | sym name =>
    apply follows_get_bind
    intro s hc hs
    subst hc
    cases hfound : s.symbols.get? name with
    | some size => exact follows_pure (hs.symbols name size hfound)
    | none => exact follows_throw

theorem keeps_dynamicSizes (shape : Shape) : ∀ {c},
    Keeps opens c (dynamicSizes g need shape) fun c' is => ∀ i ∈ is, Settled opens c' i := by
  induction shape with
  | nil => exact follows_pure (List.forall_mem_nil _)
  | cons d ds ih =>
    intro c
    apply follows_ite
    · exact fun _ => ih
    · intro _
      refine (keeps_dimIndex hneed d).bind fun i c₁ _ hi => ih.bind fun is c₂ h₂ his => ?_
      exact follows_pure (List.forall_mem_cons.mpr ⟨hi.later h₂, his⟩)

/-- A buffer that was allocated may be written. -/
theorem follows_alloc (sz : ElemSize) (shape : Shape) :
    Follows (.writing opens) c (alloc g need sz shape) (fun o => .writing (o.name :: opens))
      fun c' o => Opened opens c c' [o.name] := by
  refine (keeps_dynamicSizes hneed shape).bind fun sizes c₁ h₁ hsizes => ?_
  refine follows_create (fun _ => rfl) (fun _ => hsizes) fun b c₂ h₂ hb => ?_
  exact follows_leaving (List.Subset.refl _) (hb.since h₁)

theorem follows_allocNodes (ids : List NodeId) : ∀ {opens c},
    Follows (.writing opens) c (allocNodes g need ids)
      (fun os => .writing (os.map Operand.name ++ opens))
      fun c' os => Opened opens c c' (os.map Operand.name) := by
  induction ids with
  | nil => exact follows_leaving (List.Subset.refl _) (.nil (Nat.le_refl _))
  | cons id ids ih =>
    intro opens c
    refine (follows_alloc hneed _ _).bind fun o c₁ h₁ ho => ih.bind fun os c₂ h₂ hos => ?_
    have hperm : List.Perm (os.map Operand.name ++ o.name :: opens)
        ((o :: os).map Operand.name ++ opens) := List.perm_middle
    exact follows_leaving hperm.symm.subset (ho.cons hos h₂)

end Reads

end LowerM

end TensorKernel
