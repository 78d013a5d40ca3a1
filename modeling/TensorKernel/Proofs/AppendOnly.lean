import TensorKernel.Proofs.Build.Variables

/-!
# Visits only append

Visiting an expression or a statement puts nodes, operators and items behind what a graph has, and
consumers behind those of its nodes.  Nothing else changes, whatever the builder holds, with one
exception: a return computes the node that was added for a declared result.

While the body of a function is visited, that node is computed by no operator before the return, and
by exactly one after it.
-/

namespace TensorKernel

namespace Graph

/--
The second graph is the first one with more behind it.  An earlier node keeps its name and its kind,
which holds its element size, its shape and its value, while its consumers grow at their end.  Its
producer changes only if it is the node that is completed, which one further operator computes.
-/
structure Lengthens (g : Graph) (completed : Option NodeId) (g' : Graph) : Prop where
  nodes_le : g.nodes.size ≤ g'.nodes.size
  ops : g.ops.toList <+: g'.ops.toList
  items : g.items.toList <+: g'.items.toList
  node : ∀ id : NodeId, id.index < g.nodes.size → ∃ producer later,
    g'.node id = ⟨(g.node id).name, (g.node id).kind, producer, (g.node id).consumers ++ later⟩
  producer : ∀ id : NodeId, id.index < g.nodes.size → completed ≠ some id →
    (g'.node id).producer = (g.node id).producer
  targets : ∀ o : OpId, g.ops.size ≤ o.index → ∀ id ∈ (g'.op o).outputs,
    g.nodes.size ≤ id.index ∨ completed = some id
  completes : ∀ dst : NodeId, completed = some dst → dst.index < g.nodes.size →
    ∃ o : OpId, g.ops.size ≤ o.index ∧ (g'.node dst).producer = some o ∧
      ∀ o' : OpId, g.ops.size ≤ o'.index → (dst ∈ (g'.op o').outputs ↔ o' = o)

variable {g g' g'' : Graph}

/-- Operators that are the same up to a size are the first ones of a longer list. -/
theorem ops_prefix (hle : g.ops.size ≤ g'.ops.size)
    (h : ∀ o : OpId, o.index < g.ops.size → g'.op o = g.op o) : g.ops.toList <+: g'.ops.toList := by
  rw [List.prefix_iff_getElem?]
  intro i hi
  have hlt : i < g'.ops.size := Nat.lt_of_lt_of_le hi hle
  have hop := h ⟨i⟩ hi
  simp only [op, Array.getD_eq_getD_getElem?, Array.getElem?_eq_getElem hi,
    Array.getElem?_eq_getElem hlt, Option.getD_some] at hop
  simp [hlt, hop]

namespace Lengthens

variable {completed : Option NodeId}

theorem ops_le (h : g.Lengthens completed g') : g.ops.size ≤ g'.ops.size := h.ops.length_le

theorem op_eq (h : g.Lengthens completed g') {o : OpId} (ho : o.index < g.ops.size) :
    g'.op o = g.op o := by
  have hget := List.prefix_iff_getElem?.mp h.ops o.index ho
  simp only [op, Array.getD_eq_getD_getElem?]
  rw [← Array.getElem?_toList, hget, Array.getElem?_eq_getElem ho]
  rfl

/-- What comes after a graph that was only appended to. -/
theorem trans (h : g.Lengthens none g') (h' : g'.Lengthens completed g'') :
    g.Lengthens completed g'' where
  nodes_le := Nat.le_trans h.nodes_le h'.nodes_le
  ops := h.ops.trans h'.ops
  items := h.items.trans h'.items
  node id hid := by
    obtain ⟨_, later, hnode⟩ := h.node id hid
    obtain ⟨producer, later', hnode'⟩ := h'.node id (Nat.lt_of_lt_of_le hid h.nodes_le)
    refine ⟨producer, later ++ later', ?_⟩
    rw [hnode', hnode, List.append_assoc]
  producer id hid hne :=
    (h'.producer id (Nat.lt_of_lt_of_le hid h.nodes_le) hne).trans (h.producer id hid nofun)
  targets o ho id hid := by
    by_cases hlt : o.index < g'.ops.size
    · rw [h'.op_eq hlt] at hid
      exact (h.targets o ho id hid).imp_right nofun
    · exact (h'.targets o (Nat.le_of_not_lt hlt) id hid).imp_left (Nat.le_trans h.nodes_le)
  completes dst hdst hlt := by
    obtain ⟨o, ho, hproducer, honly⟩ := h'.completes dst hdst (Nat.lt_of_lt_of_le hlt h.nodes_le)
    refine ⟨o, Nat.le_trans h.ops_le ho, hproducer, fun o' ho' => ?_⟩
    by_cases hbefore : o'.index < g'.ops.size
    · -- An operator that came before computes none of the nodes that were there at first.
      rw [h'.op_eq hbefore]
      refine ⟨fun hmem => ?_, fun hsame => ?_⟩
      · rcases h.targets o' ho' dst hmem with hge | hnone
        · exact absurd hlt (Nat.not_lt.mpr hge)
        · cases hnone
      · exact absurd (hsame ▸ hbefore) (Nat.not_lt.mpr ho)
    · exact honly o' (Nat.le_of_not_lt hbefore)

end Lengthens

theorem Appends.lengthens (h : g.Appends g') : g.Lengthens none g' where
  nodes_le := h.ext.nodes_le
  ops := ops_prefix h.ext.ops_le h.ext.op_eq
  items := h.items
  node id hid := by
    obtain ⟨later, hlater⟩ := h.consumers id hid
    refine ⟨(g'.node id).producer, later, ?_⟩
    rw [hlater, ← h.ext.name_eq id hid, ← h.ext.kind_eq id hid]
  producer id hid _ := h.ext.producer_eq id hid
  targets o ho id hid := Or.inl (h.targets o ho id hid)
  completes _ := nofun

/-- An operator that computes a node which may have been there before. -/
theorem lengthens_addOp (g : Graph) (kind : OpKind) (inputs : List NodeId) (dst : NodeId) :
    g.Lengthens (some dst) (g.addOp kind inputs [dst]).2 where
  nodes_le := (addOp_nodes_size ..).ge
  ops := by simp [addOp]
  items := by simp [addOp]
  node id hid := by
    refine ⟨((g.addOp kind inputs [dst]).2.node id).producer,
      List.replicate (inputs.count id) ⟨g.ops.size⟩, ?_⟩
    rw [← addOp_consumers kind inputs [dst] hid, ← addOp_name g kind inputs [dst] id,
      ← addOp_kind g kind inputs [dst] id]
  producer id hid hne := by
    rw [addOp_producer, if_neg]
    rintro ⟨hmem, -⟩
    exact hne (congrArg some (List.mem_singleton.mp hmem).symm)
  -- Only the new place of the table lists targets, and it lists `dst` alone.
  targets o ho id hid := by
    rw [addOp_op] at hid
    split at hid
    · exact Or.inr (congrArg some (List.mem_singleton.mp hid).symm)
    · rw [op_of_size_le ho] at hid
      cases hid
  -- Every other place behind the table is the default operator, which has no targets.
  completes other hother hlt := by
    obtain rfl := Option.some.inj hother
    refine ⟨⟨g.ops.size⟩, Nat.le_refl _, ?_, fun o ho => ?_⟩
    · rw [addOp_producer, if_pos ⟨List.mem_singleton_self _, hlt⟩]
    · rw [addOp_op]
      split
      · next hindex => exact ⟨fun _ => congrArg OpId.mk hindex, fun _ => List.mem_singleton_self _⟩
      · next hindex =>
        rw [op_of_size_le ho]
        exact ⟨fun hmem => absurd hmem List.not_mem_nil,
          fun hsame => absurd (congrArg OpId.index hsame) hindex⟩

/-- A node that was set apart: exactly one operator computes it if it is complete, and none before. -/
structure Reserves (g : Graph) (dst : NodeId) (complete : Bool) : Prop where
  lt : dst.index < g.nodes.size
  isSome : (g.node dst).producer.isSome = complete
  mem : ∀ o, dst ∈ (g.op o).outputs ↔ (g.node dst).producer = some o

/-- Appending to a graph keeps what was set apart. -/
theorem Reserves.append {dst : NodeId} {complete : Bool} (h : g.Reserves dst complete)
    (h' : g.Lengthens none g') : g'.Reserves dst complete where
  lt := Nat.lt_of_lt_of_le h.lt h'.nodes_le
  isSome := by rw [h'.producer dst h.lt nofun, h.isSome]
  mem o := by
    rw [h'.producer dst h.lt nofun, ← h.mem o]
    by_cases hlt : o.index < g.ops.size
    · rw [h'.op_eq hlt]
    · have hge := Nat.le_of_not_lt hlt
      rw [op_of_size_le hge]
      refine ⟨fun hmem => ?_, nofun⟩
      rcases h'.targets o hge dst hmem with hle | hnone
      · exact absurd h.lt (Nat.not_lt.mpr hle)
      · cases hnone

theorem Reserves.complete {dst : NodeId} (h : g.Reserves dst false)
    (h' : g.Lengthens (some dst) g') : g'.Reserves dst true := by
  obtain ⟨o, ho, hproducer, honly⟩ := h'.completes dst rfl h.lt
  have hnone : (g.node dst).producer = none := Option.not_isSome_iff_eq_none.mp (by simp [h.isSome])
  refine ⟨Nat.lt_of_lt_of_le h.lt h'.nodes_le, by rw [hproducer]; rfl, fun o' => ?_⟩
  rw [hproducer, Option.some_inj, eq_comm (a := o)]
  by_cases hlt : o'.index < g.ops.size
  · rw [h'.op_eq hlt, h.mem o', hnone]
    exact ⟨nofun, fun hsame => absurd (hsame ▸ hlt) (Nat.not_lt.mpr ho)⟩
  · exact honly o' (Nat.le_of_not_lt hlt)

end Graph

/-! ## Statements -/

/-- A statement that ends the body. -/
def Stmt.isReturn : Stmt → Bool
  | .returns _ _ => true
  | _ => false

namespace FunctionBuilder

/-- The node that was added for a declared result. -/
def reserved? (b : FunctionBuilder) : Option NodeId :=
  match b.returnPlan with
  | .static _ dst => some dst
  | _ => none

/-- The node that a statement completes. -/
def completed? (b : FunctionBuilder) (returning : Bool) : Option NodeId :=
  if returning then b.reserved? else none

/-- What a visit leaves of a builder, which may be one of a return. -/
structure Lengthens (b : FunctionBuilder) (returning : Bool) (b' : FunctionBuilder) : Prop where
  plan : b'.returnPlan = b.returnPlan
  returned : b'.returned = (b.returned || returning)
  graph : b.graph.Lengthens (b.completed? returning) b'.graph

variable {b b' b'' : FunctionBuilder} {returning : Bool}

theorem Appends.lengthens (h : b.Appends b') : b.Lengthens false b' where
  plan := by rw [h.eq]
  returned := by rw [h.eq, Bool.or_false]
  graph := h.graph.lengthens

/-- A visit that changes nothing of what matters here. -/
theorem Lengthens.of_eq (hgraph : b'.graph = b.graph) (hplan : b'.returnPlan = b.returnPlan)
    (hreturned : b'.returned = b.returned) : b.Lengthens false b' where
  plan := hplan
  returned := by rw [hreturned, Bool.or_false]
  graph := by
    rw [hgraph]
    exact (Graph.Appends.refl _).lengthens

theorem Lengthens.trans (h : b.Lengthens false b') (h' : b'.Lengthens returning b'') :
    b.Lengthens returning b'' where
  plan := h'.plan.trans h.plan
  returned := by rw [h'.returned, h.returned, Bool.or_false]
  graph := by
    have hsame : b.completed? returning = b'.completed? returning := by
      rw [completed?, completed?, reserved?, reserved?, h.plan]
    rw [hsame]
    exact h.graph.trans h'.graph

end FunctionBuilder

namespace BuildM

variable {ctx : BuildContext} {α β : Type}

/-- A step that only appends to the graph of a builder, and leaves the plan of its result. -/
def Lengthens (m : BuildM α) : Prop :=
  ∀ b, Yields m b fun _ b' => b.Lengthens false b'

theorem Appends.lengthens {m : BuildM α} (h : Appends m) : Lengthens m :=
  fun b => (h b).mono fun _ _ h' => h'.lengthens

theorem Lengthens.bind {m : BuildM α} {f : α → BuildM β} (hm : Lengthens m)
    (hf : ∀ a, Lengthens (f a)) : Lengthens (m >>= f) :=
  fun b => (hm b).bind fun a b' h => (hf a b').mono fun _ _ h' => h.trans h'

theorem lengthens_get_bind {f : FunctionBuilder → BuildM α} (h : ∀ b, Lengthens (f b)) :
    Lengthens (get >>= f) :=
  fun b => meets_get_bind (h b b)

theorem lengthens_ite {c : Prop} [Decidable c] {m m' : BuildM α} (hthen : Lengthens m)
    (helse : Lengthens m') : Lengthens (if c then m else m') := by
  split
  · exact hthen
  · exact helse

theorem lengthens_fail (span : Span) (fault : BuildFault) :
    Lengthens (fail span fault : BuildM α) :=
  (appends_fail span fault).lengthens

theorem lengthens_pure (a : α) : Lengthens (pure a : BuildM α) :=
  (appends_pure a).lengthens

theorem lengthens_modify {f : FunctionBuilder → FunctionBuilder} (hgraph : ∀ b, (f b).graph = b.graph)
    (hplan : ∀ b, (f b).returnPlan = b.returnPlan) (hreturned : ∀ b, (f b).returned = b.returned) :
    Lengthens (modify f : BuildM PUnit) :=
  fun b => meets_modify (.of_eq (hgraph b) (hplan b) (hreturned b))

theorem lengthens_ofLocated (r : Except BuildError α) : Lengthens (ofLocated r) :=
  fun _ => yields_ofLocated fun _ _ => .of_eq rfl rfl rfl

/-- A new node of a type, with the operator that computes it. -/
theorem lengthens_compute (name : Option String) (ty : KernelType) (op : OpKind)
    (inputs : List NodeId) {f : NodeId → BuildM α} (hf : ∀ dst, Lengthens (f dst)) :
    Lengthens (do
      let dst ← onGraph fun g => g.addOfType name ty
      let _ ← onGraph fun g => g.addOp op inputs [dst]
      f dst) := by
  intro b
  refine meets_computeOfType fun kind _ _ => (hf _ _).mono fun _ b' h => ?_
  have hcompute : b.Lengthens false { b with graph := (b.graph.compute name kind op inputs).2 } :=
    ⟨rfl, (Bool.or_false _).symm, ((Graph.Appends.refl b.graph).compute name kind op inputs).lengthens⟩
  exact hcompute.trans h

/-! ### Assignments -/

theorem lengthens_freshName (id : String) : Lengthens (freshName id) :=
  fun _ => (yields_numbered id).mono fun _ _ h => .of_eq (by rw [h]) (by rw [h]) (by rw [h])

theorem lengthens_variableType (id : String) (hint previous : Option KernelType) (value : KernelType)
    (span : Span) : Lengthens (variableType id hint previous value span) :=
  fun _ => (meets_variableType id hint previous value span).mono fun _ _ h =>
    .of_eq (by rw [h.1]) (by rw [h.1]) (by rw [h.1])

theorem lengthens_bindLocal (id : String) (ty : KernelType) (node : NodeId) :
    Lengthens (bindLocal id ty node) :=
  lengthens_modify (fun _ => by split <;> rfl) (fun _ => by split <;> rfl) fun _ => by split <;> rfl

theorem lengthens_assignName (id : String) (value : NodeId) (hint : Option KernelType)
    (span : Span) : Lengthens (assignName id value hint span) := by
  refine lengthens_get_bind fun b => lengthens_ite (lengthens_fail _ _) <|
    lengthens_ite (lengthens_fail _ _) <| (lengthens_variableType _ _ _ _ _).bind fun ty =>
      lengthens_ite (lengthens_fail _ _) ?_
  have hrest (name : String) := lengthens_compute (some name) ty
    (if ((b.local? id).map b.graph.type).isSome && !ty.isScalar then OpKind.deepCopy else .copy)
    [value] (lengthens_bindLocal id ty)
  exact lengthens_ite ((lengthens_freshName id).bind hrest) (hrest id)

theorem lengthens_elementTarget (id : String) (span : Span) : Lengthens (elementTarget id span) :=
  fun _ => (yields_tensorTarget id span).mono fun _ _ h =>
    .of_eq (by rw [h.1]) (by rw [h.1]) (by rw [h.1])

theorem lengthens_assignElement (target index : Expr) (value : NodeId) (span : Span) :
    Lengthens (assignElement ctx target index value span) := by
  unfold assignElement
  split
  · next id _ =>
    refine (lengthens_elementTarget id span).bind fun tensor => lengthens_get_bind fun _ =>
      (appends_targetIndices index tensor span).lengthens.bind fun choices => ?_
    split
    · exact lengthens_ite (lengthens_fail _ _) <| lengthens_get_bind fun _ =>
        lengthens_ite (lengthens_fail _ _) <| (lengthens_freshName id).bind fun name =>
          lengthens_compute _ _ _ _ fun _ =>
            lengthens_modify (fun _ => rfl) (fun _ => rfl) fun _ => rfl
    · exact lengthens_fail _ _
  · exact lengthens_fail _ _

theorem lengthens_assign (target value : Expr) (span : Span) :
    Lengthens (assign ctx target value span) := by
  have hvalue := (appends_expr ctx value).lengthens
  unfold assign
  split
  · exact hvalue.bind fun _ => lengthens_assignName _ _ _ _
  · exact hvalue.bind fun _ => lengthens_assignElement _ _ _ _
  · exact lengthens_fail _ _

theorem lengthens_assignHinted (target hint : Expr) (value : Option Expr) (span : Span) :
    Lengthens (assignHinted ctx target hint value span) := by
  unfold assignHinted
  split
  · refine (lengthens_ofLocated _).bind fun ty => lengthens_get_bind fun b => ?_
    split
    · exact lengthens_fail _ _
    · exact (appends_expr ctx _).lengthens.bind fun _ => lengthens_assignName _ _ _ _
  · exact lengthens_fail _ _
  · exact lengthens_fail _ _
  · exact lengthens_fail _ _

/-! ### Returns -/

variable {b : FunctionBuilder}

/-- The value of a return is copied to the node of a declared result, and else it is the result. -/
theorem yields_returnNode_lengthens (node : NodeId) (span : Span) :
    Yields (returnNode node span) b fun _ b' => b'.returnPlan = b.returnPlan ∧
      b'.returned = b.returned ∧ b.graph.Lengthens b.reserved? b'.graph := by
  refine meets_get_bind ?_
  split
  · next dst hplan =>
    refine meets_ite (fun _ => yields_fail) fun _ => ?_
    refine (meets_onGraph (Q := fun _ b' => b'.returnPlan = b.returnPlan ∧
      b'.returned = b.returned ∧ b.graph.Lengthens b.reserved? b'.graph) ?_).bind
        fun _ b₁ h₁ => meets_modify h₁
    refine ⟨rfl, rfl, ?_⟩
    rw [FunctionBuilder.reserved?, hplan]
    exact Graph.lengthens_addOp _ _ _ _
  · next hplan =>
    refine meets_set ⟨rfl, rfl, ?_⟩
    have hnone : b.reserved? = none := by
      unfold FunctionBuilder.reserved?
      split
      · next dst hstatic => exact absurd hstatic (hplan _ dst)
      · rfl
    rw [hnone]
    exact (Graph.Appends.refl _).lengthens

theorem yields_returns_lengthens (value : Option Expr) (span : Span) :
    Yields (returns ctx value span) b fun _ b' => b.Lengthens true b' := by
  refine (meets_modify (Q := fun _ b' => b' = { b with returned := true }) rfl).bind
    fun _ b₁ h₁ => meets_get_bind ?_
  have hgraph : b₁.graph = b.graph := by rw [h₁]
  have hplan : b₁.returnPlan = b.returnPlan := by rw [h₁]
  have hreturned : b₁.returned = (b.returned || true) := by rw [h₁, Bool.or_true]
  split
  · next hvoid =>
    have hnone : b.completed? true = none := by
      rw [FunctionBuilder.completed?, if_pos rfl, FunctionBuilder.reserved?, ← hplan, hvoid]
    refine meets_pure ⟨hplan, hreturned, ?_⟩
    rw [hnone, hgraph]
    exact (Graph.Appends.refl _).lengthens
  · exact yields_fail
  · exact yields_fail
  · next e _ =>
    refine (appends_expr ctx e).yields fun node b₂ h₂ => ?_
    have hreserved : b₂.reserved? = b.completed? true := by
      rw [FunctionBuilder.completed?, if_pos rfl, FunctionBuilder.reserved?,
        FunctionBuilder.reserved?, h₂.lengthens.plan, hplan]
    refine (yields_returnNode_lengthens node span).mono fun _ b₃ ⟨hplan₃, hreturned₃, hgraph₃⟩ => ?_
    refine ⟨hplan₃.trans (h₂.lengthens.plan.trans hplan), ?_, ?_⟩
    · rw [hreturned₃, h₂.lengthens.returned, Bool.or_false, hreturned]
    · rw [← hreserved, ← hgraph]
      exact h₂.graph.lengthens.trans hgraph₃

/-- A statement only appends, but for a return, which completes what was set apart for it. -/
theorem yields_stmt_lengthens (s : Stmt) :
    Yields (stmt ctx s) b fun _ b' => b.Lengthens s.isReturn b' := by
  unfold stmt
  split
  · exact lengthens_assign _ _ _ b
  · exact lengthens_assignHinted _ _ _ _ b
  · exact lengthens_assign _ _ _ b
  · exact yields_returns_lengthens _ _
  · exact ((appends_expr ctx _).lengthens.bind fun _ => lengthens_pure _) b
  · exact lengthens_pure _ b
  · exact yields_fail
  · exact lengthens_pure _ b
  · exact yields_fail
  · exact yields_fail
  · exact yields_fail
  · exact yields_fail

/-! ## Bodies -/

/-- Nothing is visited after a return. -/
theorem yields_body_of_returned (hreturned : b.returned = true) (stmts : List Stmt) :
    Yields (body ctx stmts) b fun _ b' => b' = b := by
  cases stmts with
  | nil => exact meets_pure rfl
  | cons s rest =>
    exact meets_get_bind (meets_ite (fun _ => yields_fail) fun hopen => absurd hreturned hopen)

theorem yields_body_lengthens (stmts : List Stmt) : ∀ {b : FunctionBuilder},
    Yields (body ctx stmts) b fun _ b' => b.Lengthens (stmts.any Stmt.isReturn) b' := by
  induction stmts with
  | nil => exact fun {b} => lengthens_pure () b
  | cons s rest ih =>
    refine meets_get_bind (meets_ite (fun _ => yields_fail) fun _ =>
      (yields_stmt_lengthens s).bind fun _ b₁ h₁ => ?_)
    rw [List.any_cons]
    cases hreturn : s.isReturn with
    | false =>
      rw [hreturn] at h₁
      exact ih.mono fun _ b₂ h₂ => h₁.trans h₂
    | true =>
      rw [hreturn] at h₁
      refine (yields_body_of_returned (h₁.returned.trans (Bool.or_true _)) rest).mono fun _ b₂ h₂ => ?_
      rw [h₂]
      exact h₁

/-! ### The start of a body -/

/-- A node that is set apart for a declared result is new, so nothing computes it. -/
theorem yields_planReturn_reserves (result : ReturnHint) (hops : b.graph.ops = #[])
    (hreturned : b.returned = false) :
    Yields (planReturn result) b fun _ b' => b'.returned = false ∧
      ∀ dst, b'.reserved? = some dst → b'.graph.Reserves dst false := by
  cases result with
  | void => exact meets_modify ⟨hreturned, fun _ => nofun⟩
  | missing => exact meets_modify ⟨hreturned, fun _ => nofun⟩
  | type hint =>
    refine (yields_ofLocated (Q := fun _ b' => b' = b) fun _ _ => rfl).bind fun ty b₁ hsame => ?_
    subst hsame
    refine meets_get_bind (meets_ite (fun _ => meets_set ⟨hreturned, fun _ => nofun⟩) fun _ => ?_)
    obtain ⟨kind, hadd, -⟩ := b₁.graph.addOfType_eq_addNode none ty
    refine (meets_onGraph (Q := fun node b' => node = ⟨b₁.graph.nodes.size⟩ ∧
      b' = { b₁ with graph := (b₁.graph.addNode none kind).2 }) ?_).bind fun node b₂ h₂ => ?_
    · rw [hadd]
      exact ⟨rfl, rfl⟩
    · obtain ⟨rfl, rfl⟩ := h₂
      refine meets_modify ⟨hreturned, fun dst hdst => ?_⟩
      obtain rfl := Option.some.inj hdst
      refine ⟨?_, ?_, fun o => ?_⟩
      · rw [Graph.addNode_nodes_size]
        exact Nat.lt_succ_self _
      · rw [Graph.addNode_node_self]
        rfl
      · rw [Graph.addNode_node_self, Graph.addNode_op, Graph.op_of_size_le (by simp [hops])]
        exact ⟨nofun, nofun⟩

/-- Builds a function as far as to the end of some statements. -/
def upTo (ctx : BuildContext) (f : FunctionDef) (types : List KernelType) (visited : List Stmt) :
    BuildM Unit := do
  parameters ctx f types
  planReturn f.result
  body ctx visited

theorem yields_upTo (f : FunctionDef) (types : List KernelType) (visited : List Stmt) :
    Yields (upTo ctx f types visited) (.start f.id) fun _ b =>
      ∀ dst, b.reserved? = some dst → b.graph.Reserves dst b.returned := by
  have hparams : Yields (parameters ctx f types) (.start f.id) fun _ b =>
      b.graph.ops = #[] ∧ b.returned = false :=
    (yields_addParams_frame f.id f.params).bind fun _ b ⟨h, hops⟩ =>
      (yields_checkParamNames f.params).mono fun _ b' ⟨hsame, _⟩ => by
        rw [hsame]
        exact ⟨hops, by rw [h]; rfl⟩
  refine hparams.bind fun _ b ⟨hops, hreturned⟩ =>
    (yields_planReturn_reserves f.result hops hreturned).bind fun _ b₁ ⟨hreturned₁, hreserves⟩ =>
      (yields_body_lengthens visited).mono fun _ b₂ h₂ dst hdst => ?_
  have hdst₁ : b₁.reserved? = some dst := by
    rw [FunctionBuilder.reserved?, ← h₂.plan]
    exact hdst
  have hgraph := h₂.graph
  rw [h₂.returned, hreturned₁, Bool.false_or]
  cases hreturn : visited.any Stmt.isReturn with
  | false =>
    rw [hreturn] at hgraph
    exact (hreserves dst hdst₁).append hgraph
  | true =>
    rw [hreturn, FunctionBuilder.completed?, if_pos rfl, hdst₁] at hgraph
    exact (hreserves dst hdst₁).complete hgraph

end BuildM

/-! ## Visits -/

/--
Whatever the builder holds, visiting an expression appends to its graph, and so does visiting a
statement, but that a return completes the node which is set apart.  In every builder that a function
passes through, that node is computed by exactly one operator if the function has returned, and else
by none.
-/
theorem FunctionBuilder.lengthens_of_visit (ctx : BuildContext) (b b' : FunctionBuilder)
    (cache after : GraphCache) :
    (∀ e node, BuildM.run (BuildM.expr ctx e) b cache = (.ok (node, b'), after) →
      b.graph.Lengthens none b'.graph) ∧
    (∀ s, BuildM.run (BuildM.stmt ctx s) b cache = (.ok ((), b'), after) →
      b.graph.Lengthens (b.completed? s.isReturn) b'.graph) ∧
    ∀ f types visited,
      BuildM.run (BuildM.upTo ctx f types visited) (.start f.id) cache = (.ok ((), b'), after) →
        ∀ dst, b'.reserved? = some dst → b'.graph.Reserves dst b'.returned :=
  ⟨fun e _ hrun => ((BuildM.appends_expr ctx e).of_run hrun).graph.lengthens,
    fun s hrun => ((BuildM.yields_stmt_lengthens s).of_run hrun).graph,
    fun f types visited hrun => (BuildM.yields_upTo f types visited).of_run hrun⟩

/-- A kernel that negates a vector. -/
def negated : FunctionDef :=
  let name (id : String) : Expr := .name id .nowhere
  ⟨"negated", [⟨"z", some (.subscript (name "int64") (name "K") .nowhere), .nowhere⟩], .missing,
    [.returns (some (.unary .neg (name "z") .nowhere)) .nowhere], .nowhere⟩

/-- A kernel that calls another one for a variable and for its result, which is declared. -/
def negatedTwice : FunctionDef :=
  let name (id : String) : Expr := .name id .nowhere
  let vector : Expr := .subscript (name "int64") (name "M") .nowhere
  let call (id : String) : Expr := .call (name "negated") [name id] [] .nowhere
  ⟨"twice", [⟨"x", some vector, .nowhere⟩], .type vector,
    [.assign (name "y") (call "x") .nowhere, .returns (some (call "y")) .nowhere], .nowhere⟩

theorem lengthens_of_visit_negatedTwice :
    let ctx := (Registry.ofDefs [negated, negatedTwice]).context .standard .default "twice"
    let call := .call (.name "negated" .nowhere) [.name "y" .nowhere] [] .nowhere
    ∃ b₁ b₂ b₃ node dst cache₁ cache₂ cache₃,
      BuildM.run (BuildM.upTo ctx negatedTwice [] (negatedTwice.body.take 1)) (.start "twice") .empty =
        (.ok ((), b₁), cache₁) ∧
      BuildM.run (BuildM.expr ctx call) b₁ cache₁ = (.ok (node, b₂), cache₂) ∧
      BuildM.run (BuildM.stmt ctx (.returns (some call) .nowhere)) b₁ cache₁ =
        (.ok ((), b₃), cache₃) ∧
      b₁.reserved? = some dst ∧ b₁.graph.Reserves dst false ∧ b₁.graph.Lengthens none b₂.graph ∧
      b₁.graph.nodes.size < b₂.graph.nodes.size ∧ b₁.graph.Lengthens (some dst) b₃.graph := by
  intro ctx call
  let run₁ := BuildM.run (BuildM.upTo ctx negatedTwice [] (negatedTwice.body.take 1)) (.start "twice")
    .empty
  have hruns : run₁.1.toOption.any (fun p₁ =>
      (BuildM.run (BuildM.expr ctx call) p₁.2 run₁.2).1.toOption.any (fun p₂ =>
        (BuildM.run (BuildM.stmt ctx (.returns (some call) .nowhere)) p₁.2 run₁.2).1.toOption.any
          fun _ => p₁.2.returned = false ∧ p₁.2.reserved?.isSome ∧
            p₁.2.graph.nodes.size < p₂.2.graph.nodes.size)) = true := by decide +kernel
  obtain ⟨⟨⟨⟩, b₁⟩, hrun₁, hruns⟩ := exists_of_any_toOption hruns
  obtain ⟨⟨node, b₂⟩, hrun₂, hruns⟩ := exists_of_any_toOption hruns
  obtain ⟨⟨⟨⟩, b₃⟩, hrun₃, hchecks⟩ := exists_of_any_toOption hruns
  obtain ⟨hreturned, hreserved, hgrows⟩ := of_decide_eq_true hchecks
  obtain ⟨dst, hdst⟩ := Option.isSome_iff_exists.mp hreserved
  have hupTo : run₁ = (.ok ((), b₁), run₁.2) := Prod.ext hrun₁ rfl
  have hexpr : BuildM.run (BuildM.expr ctx call) b₁ run₁.2 = (.ok (node, b₂), _) :=
    Prod.ext hrun₂ rfl
  have hstmt : BuildM.run (BuildM.stmt ctx (.returns (some call) .nowhere)) b₁ run₁.2 =
      (.ok ((), b₃), _) := Prod.ext hrun₃ rfl
  have hreserves := (FunctionBuilder.lengthens_of_visit ctx b₁ b₁ _ _).2.2 _ _ _ hupTo dst hdst
  have hcompleted := (FunctionBuilder.lengthens_of_visit ctx b₁ b₃ _ _).2.1 _ hstmt
  refine ⟨b₁, b₂, b₃, node, dst, _, _, _, hupTo, hexpr, hstmt, hdst, hreturned ▸ hreserves,
    (FunctionBuilder.lengthens_of_visit ctx b₁ b₂ _ _).1 _ _ hexpr, hgrows, ?_⟩
  rwa [← hdst]

end TensorKernel
