import TensorKernel.Proofs.Build.Function
import TensorKernel.Proofs.Source.Simulation

/-!
# Building statements in step with execution

One statement takes a builder that represents a store to one that represents the store after it: a
variable is bound to a new node, which denotes the assigned value, and all other names keep theirs.
By induction the statements of a body are built to what executing them returns.
-/

namespace TensorKernel

/-! ## Names and what they are bound to -/

namespace Represents

variable {sz : ElemSize} {call : Invocation} {b : FunctionBuilder} {s : Store} {id : String}
  {node : NodeId} {t : TypedValue} (h : Represents sz call b s)
include h

/-- Counting a rebinding changes no values. -/
theorem rebind (count : Nat) : Represents sz call { b with rebindings := count } s :=
  h.alter (h.wellFormed.rebind count) h.bound
    fun _ _ hid => ⟨hid.has, hid.size, hid.scalar, hid.rank, hid.value⟩

/-- Noting that a function returns changes no values. -/
theorem markReturned : Represents sz call { b with returned := true } s :=
  h.alter h.wellFormed.markReturned h.bound
    fun _ _ hid => ⟨hid.has, hid.size, hid.scalar, hid.rank, hid.value⟩

/-- Binding a scalar variable to a node assigns the value that the node denotes. -/
theorem bindScalar (hnode : Denotes call.given call.sizes b node t)
    (hscalar : b.graph.isScalar node = true) (hfree : b.tensors.get? id = none) :
    Represents sz call { b with scalars := b.scalars.insert id node }
      { s with vars := s.vars.insert id t } := by
  have hdenotes : ∀ other t, Denotes call.given call.sizes b other t →
      Denotes call.given call.sizes { b with scalars := b.scalars.insert id node } other t :=
    fun _ _ hid => ⟨hid.has, hid.size, hid.scalar, hid.rank, hid.value⟩
  refine {
    wellFormed := h.wellFormed.bindScalar hnode.has hscalar
    bound := h.bound
    plan := h.plan
    vars := fun other => ?_
    symbols := fun id => rel_mono (h.symbols id) hdenotes
    params := fun id => rel_mono (h.params id) hdenotes
    disjoint := fun other hother => ?_ }
  · simp only [FunctionBuilder.local?, Table.get?_insert]
    split
    · exact .some (hdenotes _ _ hnode)
    · exact rel_mono (h.vars other) hdenotes
  · rw [Table.contains_insert] at hother
    by_cases hsame : other = id
    · exact hsame ▸ hfree
    · exact h.disjoint other (by simpa [hsame] using hother)

/-- Binding a tensor variable to a node assigns the value that the node denotes. -/
theorem bindTensor (hnode : Denotes call.given call.sizes b node t)
    (htensor : b.graph.isScalar node = false) (hfree : b.scalars.get? id = none) :
    Represents sz call { b with tensors := b.tensors.insert id node }
      { s with vars := s.vars.insert id t } := by
  have hdenotes : ∀ other t, Denotes call.given call.sizes b other t →
      Denotes call.given call.sizes { b with tensors := b.tensors.insert id node } other t :=
    fun _ _ hid => ⟨hid.has, hid.size, hid.scalar, hid.rank, hid.value⟩
  refine {
    wellFormed := h.wellFormed.bindTensor hnode.has htensor
    bound := h.bound
    plan := h.plan
    vars := fun other => ?_
    symbols := fun id => rel_mono (h.symbols id) hdenotes
    params := fun id => rel_mono (h.params id) hdenotes
    disjoint := fun other hother => ?_ }
  · simp only [FunctionBuilder.local?, Table.get?_insert]
    split
    · next hsame =>
      rw [hsame, hfree]
      exact .some (hdenotes _ _ hnode)
    · exact rel_mono (h.vars other) hdenotes
  · show (b.tensors.insert id node).get? other = none
    rw [Table.get?_insert, if_neg]
    · exact h.disjoint other hother
    · rintro rfl
      have hcontains : b.scalars.contains other = true := hother
      rw [Table.contains, hfree] at hcontains
      cases hcontains

/-- A variable is bound to scalars only, or to tensors only. -/
theorem bindLocal {ty : KernelType} (hnode : Denotes call.given call.sizes b node t)
    (htype : b.graph.type node = ty)
    (hkind : ∀ old, b.local? id = some old → b.graph.isScalar old = ty.isScalar) :
    BuildM.Yields (BuildM.bindLocal id ty node) b fun _ b' =>
      Represents sz call b' { s with vars := s.vars.insert id t } := by
  have hscalar := Graph.isScalar_of_type htype
  refine BuildM.meets_modify ?_
  split
  · next hty =>
    refine h.bindScalar hnode (hscalar.trans hty) ?_
    by_contra hne
    obtain ⟨old, hold⟩ := Option.ne_none_iff_exists'.mp hne
    have hlocal : b.local? id = some old := by
      cases hfind : b.scalars.get? id with
      | none => rw [FunctionBuilder.local?, hfind, hold]; rfl
      | some _ =>
        have hnone := h.disjoint id (by rw [Table.contains, hfind]; rfl)
        rw [hnone] at hold
        cases hold
    have hfalse := (h.wellFormed.tensors hold).2
    rw [hkind old hlocal, hty] at hfalse
    cases hfalse
  · next hty =>
    refine h.bindTensor hnode (hscalar.trans (by simpa using hty)) ?_
    by_contra hne
    obtain ⟨old, hold⟩ := Option.ne_none_iff_exists'.mp hne
    have hlocal : b.local? id = some old := by rw [FunctionBuilder.local?, hold]; rfl
    exact hty ((hkind old hlocal).symm.trans (h.wellFormed.scalars hold).2)

/-- The type of a variable is the one of its value. -/
theorem size_of_local (id : String) :
    ((b.local? id).map b.graph.type).map KernelType.elemSize =
      (s.vars.get? id).map TypedValue.size := by
  have hvar := h.vars id
  generalize b.local? id = found at hvar
  generalize s.vars.get? id = value at hvar
  cases hvar with
  | none => rfl
  | some hid => exact congrArg some hid.size

end Represents

namespace BuildM

open FunctionBuilder (Grown)

variable {sz : ElemSize} {call : Invocation} {ctx : BuildContext} {b : FunctionBuilder} {s : Store}

/-- A step after which a builder represents a store. -/
abbrev Assigns (sz : ElemSize) (call : Invocation) (m : BuildM Unit) (b : FunctionBuilder)
    (s : Store) : Prop :=
  Yields m b fun _ b' => Represents sz call b' s

theorem yields_freshName (id : String) (hb : Represents sz call b s) :
    Yields (freshName id) b fun _ b' =>
      ∃ count, b' = { b with rebindings := count } ∧ Represents sz call b' s :=
  meets_get_bind ((meets_set (Q := fun _ b' => b' = { b with rebindings := b.rebindings + 1 })
    rfl).bind fun _ _ h => meets_pure ⟨_, h, h ▸ hb.rebind _⟩)

theorem yields_variableType (id : String) (hint previous : Option KernelType) (value : KernelType)
    (span : Span) :
    Yields (variableType id hint previous value span) b fun ty b' => b' = b ∧
      ty = hint.getD (previous.getD value) ∧ ∀ p, previous = some p → ty = p :=
  meets_variableType id hint previous value span

/-! ## Assignments -/

/-- An assigned name stands for the value in the type of the variable. -/
theorem assigns_assignName (id : String) (hint : Option KernelType) (span : Span) {value : NodeId}
    {t : TypedValue} (hb : Represents sz call b s)
    (hvalue : Denotes call.given call.sizes b value t) :
    Assigns sz call (assignName id value hint span) b
      (s.assignName id (hint.map KernelType.elemSize) t) := by
  refine meets_get_bind (meets_ite (fun _ => yields_fail) fun _ =>
    meets_ite (fun _ => yields_fail) fun _ => ?_)
  refine (yields_variableType id hint _ _ span).bind fun ty b₁ ⟨hsame, hty, hprevious⟩ => ?_
  subst hsame
  refine meets_ite (fun _ => yields_fail) fun hshape => ?_
  have hsize : s.variableSize id (hint.map KernelType.elemSize) t = ty.elemSize := by
    unfold Store.variableSize
    rw [← hb.size_of_local id, hty, ← hvalue.size]
    cases hint with
    | some declared => rfl
    | none => cases (b₁.local? id).map b₁.graph.type <;> rfl
  -- Both ways to name the node compute the same copy, in the type of the variable.
  have hrest : ∀ (name : String) {b₂ : FunctionBuilder} (count : Nat),
      b₂ = { b₁ with rebindings := count } →
      Assigns sz call (do
        let dst ← onGraph fun g => g.addOfType (some name) ty
        let _ ← onGraph fun g => g.addOp
          (if ((b₁.local? id).map b₁.graph.type).isSome && !ty.isScalar then OpKind.deepCopy
            else .copy) [value] [dst]
        bindLocal id ty dst) b₂ (s.assignName id (hint.map KernelType.elemSize) t) := by
    rintro name _ count rfl
    refine meets_computeOfType fun kind hkind hconstant => ?_
    have hb₂ := hb.rebind count
    have hvalue₂ : Denotes call.given call.sizes { b₁ with rebindings := count } value t :=
      ⟨hvalue.has, hvalue.size, hvalue.scalar, hvalue.rank, hvalue.value⟩
    have hcopied := denotes_copy hb₂.wellFormed hb₂.givenBy (hkind none []) hconstant
      (Graph.copyKind_cases (((b₁.local? id).map b₁.graph.type).isSome && !ty.isScalar))
      hvalue₂ (by simpa using hshape)
    obtain ⟨hgrown, hdenotes⟩ := hcopied
    rw [Store.assignName, hsize]
    refine (hb₂.grow hgrown).bindLocal hdenotes (Graph.type_compute _ _ _ (hkind none []))
      fun old hold => ?_
    have hold' : b₁.local? id = some old := hold
    have hhas : b₁.Has old := hb.wellFormed.has_resolve (by
      rw [FunctionBuilder.resolve?, hold']
      rfl)
    rw [hgrown.isScalar_eq hhas, hprevious (b₁.graph.type old) (by rw [hold']; rfl)]
    rfl
  refine meets_ite (fun _ => ?_) fun _ => ?_
  · refine (yields_freshName id hb).bind fun name b₂ hfresh => ?_
    obtain ⟨count, h₂, -⟩ := hfresh
    exact hrest name count h₂
  · exact (meets_pure (Q := fun _ b' => b' = { b₁ with rebindings := b₁.rebindings }) rfl).bind
      fun name b₂ h₂ => hrest name _ h₂

theorem elementNodes?_elementChoices (ids : List NodeId) :
    elementNodes? (elementChoices ids) = some ids := by
  induction ids with
  | nil => rfl
  | cons id ids ih =>
    show (elementNodes? (elementChoices ids)).map (id :: ·) = _
    rw [ih]
    rfl

theorem yields_elementTarget (id : String) (span : Span) :
    Yields (elementTarget id span) b fun node b' => b' = b ∧ b.tensors.get? id = some node := by
  refine meets_get_bind (meets_ite (fun _ => yields_fail) fun _ => ?_)
  split
  · next node hnode => exact meets_pure ⟨rfl, hnode⟩
  · exact meets_ite (fun _ => yields_fail) fun _ => yields_fail

/-- An assignment to an element changes this element of this variable. -/
theorem assigns_assignElement (id : String) (nameSpan : Span) {index : Expr} {value : NodeId}
    {old r new : TypedValue} {is : List TypedValue} (span : Span) (hb : Represents sz call b s)
    (hvalue : Denotes call.given call.sizes b value r) (hold : s.vars.get? id = some old)
    (his : s.exprs (TypeHint.elements index) = some is) (hnew : old.setElement? is r = some new) :
    Assigns sz call (assignElement ctx (.name id nameSpan) index value span) b
      { s with vars := s.vars.insert id new } := by
  refine (yields_elementTarget id span).bind fun tensor b₁ ⟨hsame, htensor⟩ => meets_get_bind ?_
  subst hsame
  have hfree : b₁.scalars.get? id = none := by
    by_contra hne
    have hnone := hb.disjoint id (Option.isSome_iff_ne_none.mpr hne)
    rw [hnone] at htensor
    cases htensor
  have htarget : Denotes call.given call.sizes b₁ tensor old := by
    have hvar := hb.vars id
    rw [hold, FunctionBuilder.local?, hfree, htensor] at hvar
    cases hvar with
    | some h => exact h
  have hindices : Tracks sz call s (targetIndices ctx index tensor span) b₁ fun choices b' =>
      ∃ ids, choices = elementChoices ids ∧
        List.Forall₂ (Denotes call.given call.sizes b') ids is ∧ ∀ id ∈ ids, b'.HasIndex id := by
    refine (tracks_indexedAxes tensor _ span b₁).bind fun axes b₂ _ haxes => ?_
    obtain ⟨-, hcount⟩ := haxes
    exact tracks_axisIndices span (simulated sz call ctx index).elements his hcount b₂
  refine (hindices hb).bind fun choices b₂ hchosen => ?_
  obtain ⟨h₂, ids, rfl, hids, hindex⟩ := hchosen
  have hb₂ := hb.grow h₂
  -- The new tensor takes the place of the old one in the table, under a fresh name.
  have hrest : ∀ (name : String) {b₃ : FunctionBuilder} (count : Nat),
      b₃ = { b₂ with rebindings := count } →
      Assigns sz call (do
        let dst ← onGraph fun g => g.addOfType (some name) (b₁.graph.type tensor)
        let _ ← onGraph fun g => g.addOp .setItem (tensor :: value :: ids) [dst]
        modify fun b => { b with tensors := b.tensors.insert id dst }) b₃
          { s with vars := s.vars.insert id new } := by
    rintro name _ count rfl
    refine meets_computeOfType fun kind hkind hconstant => meets_modify ?_
    have hb₃ := hb₂.rebind count
    have hrebound : ∀ {id t}, Denotes call.given call.sizes b₂ id t →
        Denotes call.given call.sizes { b₂ with rebindings := count } id t :=
      fun hid => ⟨hid.has, hid.size, hid.scalar, hid.rank, hid.value⟩
    have htype := h₂.type_eq htarget.has
    have hset := denotes_setItem hb₃.wellFormed hb₃.givenBy ((hkind none []).trans htype.symm)
      hconstant (hrebound (denotes_grown hb h₂ htarget)) (hrebound (denotes_grown hb h₂ hvalue))
      (hids.imp fun _ _ => hrebound) hindex hnew
    obtain ⟨hgrown, hdenotes⟩ := hset
    refine (hb₃.grow hgrown).bindTensor hdenotes ?_ ?_
    · refine (Graph.isScalar_of_type (Graph.type_compute _ _ _ (hkind none []))).trans ?_
      exact (hb.wellFormed.tensors htensor).2
    · rw [hgrown.eq, h₂.eq]
      exact hfree
  rw [elementNodes?_elementChoices]
  refine meets_ite (fun _ => yields_fail) fun _ =>
    meets_get_bind (meets_ite (fun _ => yields_fail) fun _ => ?_)
  refine (yields_freshName id hb₂).bind fun name b₃ hfresh => ?_
  obtain ⟨count, h₃, -⟩ := hfresh
  exact hrest name count h₃

theorem assigns_assign (target value : Expr) (span : Span) {s' : Store}
    (h : s.assign target value = some s') (hb : Represents sz call b s) :
    Assigns sz call (assign ctx target value span) b s' := by
  unfold Store.assign at h
  split at h
  · next id _ =>
    obtain ⟨t, ht, h⟩ := Option.bind_eq_some_iff.mp h
    obtain rfl := Option.some.inj h
    exact ((simulated sz call ctx value).value ht b hb).bind fun node b₁ ⟨h₁, hnode⟩ =>
      assigns_assignName id none span (hb.grow h₁) hnode
  · next id nameSpan index _ =>
    obtain ⟨t, ht, h⟩ := Option.bind_eq_some_iff.mp h
    obtain ⟨old, hold, h⟩ := Option.bind_eq_some_iff.mp h
    obtain ⟨is, his, h⟩ := Option.bind_eq_some_iff.mp h
    obtain ⟨new, hnew, h⟩ := Option.bind_eq_some_iff.mp h
    obtain rfl := Option.some.inj h
    exact ((simulated sz call ctx value).value ht b hb).bind fun node b₁ ⟨h₁, hnode⟩ =>
      assigns_assignElement id nameSpan span (hb.grow h₁) hnode hold his hnew
  · cases h

theorem yields_ofLocated {α : Type} {r : Except BuildError α} {Q : α → FunctionBuilder → Prop}
    (h : ∀ a, r = .ok a → Q a b) : Yields (ofLocated r) b Q := by
  cases r with
  | ok a => exact meets_pure (h a rfl)
  | error err => exact meets_throw False.elim

/-- A statement that does not return is built in step with its execution. -/
theorem assigns_stmt (stmt : Stmt) {s' : Store} (h : s.stmt stmt = some s')
    (hb : Represents sz call b s) : Assigns sz call (BuildM.stmt ctx stmt) b s' := by
  unfold Store.stmt at h
  split at h
  · exact assigns_assign _ _ _ h hb
  · next id _ hint value span =>
    obtain ⟨ty, hty, h⟩ := Option.bind_eq_some_iff.mp h
    obtain ⟨t, ht, h⟩ := Option.bind_eq_some_iff.mp h
    obtain rfl := Option.some.inj h
    refine (yields_ofLocated (Q := fun ty' b' => ty' = ty ∧ b' = b) fun ty' hty' => ⟨?_, rfl⟩).bind
      fun ty' b₁ ⟨hsame, hsame'⟩ => meets_get_bind ?_
    · exact Except.ok.inj (hty'.symm.trans (ok_of_toOption hty))
    subst hsame
    subst hsame'
    split
    · exact yields_fail
    · exact ((simulated sz call ctx value).value ht b₁ hb).bind fun node b₂ ⟨h₂, hnode⟩ =>
        assigns_assignName id (some ty') span (hb.grow h₂) hnode
  · exact assigns_assign _ _ _ h hb
  · obtain rfl := Option.some.inj h
    exact meets_pure hb
  · obtain rfl := Option.some.inj h
    exact meets_pure hb
  · cases h

/-! ## Returns -/

/-- A builder whose only result has the given value. -/
structure Delivers (sz : ElemSize) (call : Invocation) (b : FunctionBuilder) (v : Value) : Prop where
  wellFormed : b.WellFormed sz
  bound : (b.view []).bindAll call.args = .ok (call.given, call.sizes)
  output : ∃ id, b.outputs = [id] ∧ meaning ⟨b.graph, call.sizes⟩ call.given id = .ok v

/-- The parameters decide the sizes of a type if and only if no symbol of it is unknown. -/
theorem isSome_unknownSymbol? (hb : Represents sz call b s) (ty : KernelType) :
    (b.unknownSymbol? ty).isSome = !s.knows ty := by
  have hcontains : ∀ name, b.symbols.contains name = s.sizes.contains name := by
    intro name
    have hname := hb.symbols name
    rw [Table.contains, Table.contains]
    revert hname
    cases b.symbols.get? name <;> cases s.sizes.get? name <;> intro hname <;>
      first | rfl | cases hname
  unfold FunctionBuilder.unknownSymbol? Store.knows
  induction ty.shape with
  | nil => rfl
  | cons d ds ih =>
    rw [List.findSome?_cons, List.all_cons]
    cases d with
    | const n => simpa using ih
    | node id => simpa using ih
    | sym name =>
      cases hname : s.sizes.contains name with
      | true => simpa [hcontains, hname] using ih
      | false => simp [hcontains, hname]

/-- A result of the declared type is the returned value in this type. -/
theorem delivers_declared {ty : KernelType} {node dst : NodeId} {op : OpKind} {t : TypedValue}
    (hb : Represents sz call b s) (hnode : Denotes call.given call.sizes b node t)
    (hplan : b.returnPlan = .static ty dst) (hop : op = .copy ∨ op = .deepCopy)
    (same : ty.sameShape (b.graph.type node) = true) (hreturned : b.returned = true)
    (houtputs : b.outputs = []) :
    Delivers sz call { b with
      graph := (b.graph.addOp op [node] [dst]).2
      outputs := b.outputs ++ [dst] } (t.value.convert ty.elemSize) := by
  have hw := hb.wellFormed
  have hw' := hw.returnDeclared hplan houtputs hop hnode.has same hreturned
  have hdst : b.entry.result dst := ⟨ty, hplan⟩
  obtain ⟨htype, hpending, -⟩ := hw.result hplan
  have hproducer := hpending houtputs
  obtain ⟨hvalid, hhas⟩ := hw.valid.computeResult hdst hproducer hop hnode.has
    (by rw [htype]; exact same)
  have emb := Graph.embeds_addOp_result (e := b.entry) hdst hproducer op [node]
  have htypes : ∀ id, (b.graph.addOp op [node] [dst]).2.type id = b.graph.type id :=
    Graph.addOp_type op [node] [dst]
  have hgiven := hb.givenBy
  refine ⟨hw', ?_, dst, by simp [houtputs], ?_⟩
  · refine Eq.trans ?_ hb.bound
    apply FunctionGraph.bindAll_congr (hw.evaluable []).interface
    · rfl
    · rfl
    · rfl
    · exact fun id _ => htypes id
  -- The returned node means what it meant before the result was computed from it.
  have hsource : meaning ⟨(b.graph.addOp op [node] [dst]).2, call.sizes⟩ call.given node =
      .ok t.value := by
    have hagree : Agree id (meaning ⟨b.graph, call.sizes⟩ call.given node)
        (meaning ⟨(b.graph.addOp op [node] [dst]).2, call.sizes⟩ call.given
          (Relocation.identity.node node)) := by
      refine @agree_meaning ⟨b.graph, _⟩ b.entry call.given _ _ ⟨(b.graph.addOp op [node] [dst]).2, _⟩
        b.entry call.given .identity emb hw.valid.coherent hw.valid.entry hgiven hvalid.coherent
        hvalid.entry hgiven (fun hid => ?_) (fun hid => hid) (fun {id} hid => ?_)
        (fun _ _ => .refl _) (fun _ => rfl) (fun _ => rfl) node hnode.has
      · exact emb.available hw.valid.coherent hw.valid.entry hid
      · obtain ⟨v, hv⟩ := hgiven.exists_value hid
        rw [Relocation.identity_node, meaning_of_given hv, meaning_of_given hv]
        exact .refl _
    rw [Relocation.identity_node, hnode.value] at hagree
    exact hagree.eq_of_id.symm
  obtain ⟨hlt, hnot, hconstant⟩ := hw.valid.entry.result hdst
  have hproduced : ((b.graph.addOp op [node] [dst]).2.node dst).producer = some ⟨b.graph.ops.size⟩ := by
    rw [Graph.addOp_producer, if_pos ⟨List.mem_singleton_self dst, hlt⟩]
  have hplain : ((b.graph.addOp op [node] [dst]).2.node dst).constant? = none := by
    simpa only [Node.constant?, Graph.addOp_kind] using hconstant
  have hmeaning := @meaning_of_producer ⟨(b.graph.addOp op [node] [dst]).2, call.sizes⟩ b.entry
    call.given hvalid.coherent hvalid.entry hgiven _ hhas _ (hgiven.get?_eq_none hnot) hplain hproduced
  have hsize : (b.graph.addOp op [node] [dst]).2.elemSize dst = ty.elemSize :=
    congrArg KernelType.elemSize ((htypes dst).trans htype)
  refine hmeaning.trans ?_
  show Meaning.operator _ _ ((b.graph.addOp op [node] [dst]).2.op ⟨b.graph.ops.size⟩) _ = _
  rw [Graph.addOp_op, if_pos rfl]
  rcases hop with rfl | rfl <;>
    exact bind_of_ok hsource (congrArg (fun size => Except.ok (t.value.convert size)) hsize)

/-- The returned value has the declared type if this is planned for, and else is kept. -/
theorem value_of_returned {t : TypedValue} {v : Value} (hb : Represents sz call b s)
    (h : s.result call.result t = some v) :
    (∀ ty dst, b.returnPlan = .static ty dst → v = t.value.convert ty.elemSize) ∧
      ((∀ ty dst, b.returnPlan ≠ .static ty dst) → v = t.value) := by
  have hplans := hb.plan
  unfold FunctionBuilder.Plans at hplans
  unfold Store.result at h
  cases hresult : call.result with
  | void =>
    rw [hresult] at h
    cases h
  | missing =>
    rw [hresult] at h hplans
    exact ⟨fun ty dst hplan => (nomatch hplans.symm.trans hplan), fun _ => (Option.some.inj h).symm⟩
  | type hint =>
    rw [hresult] at h hplans
    obtain ⟨ty', hty', hplans⟩ := hplans
    dsimp only at h
    rw [hty'] at h
    rw [isSome_unknownSymbol? hb] at hplans
    obtain rfl := Option.some.inj h
    -- A declared type with symbols that nothing introduces is planned for as if there were none.
    cases hknows : s.knows ty' with
    | false =>
      rw [hknows] at hplans
      exact ⟨fun ty dst hplan => (nomatch hplans.symm.trans hplan), fun _ => rfl⟩
    | true =>
      rw [hknows] at hplans
      obtain ⟨dst', hplans⟩ := hplans
      refine ⟨fun ty dst hplan => ?_, fun hne => absurd hplans (hne _ _)⟩
      obtain ⟨rfl, rfl⟩ := ReturnPlan.static.inj (hplans.symm.trans hplan)
      rfl

/-- A return delivers the value that executing it returns. -/
theorem delivers_returns {value : Expr} {v : Value} (span : Span)
    (h : s.returned call.result value = some v) (hb : Represents sz call b s)
    (hopen : b.returned = false) :
    Yields (returns ctx (some value) span) b fun _ b' => Delivers sz call b' v := by
  obtain ⟨t, ht, h⟩ := Option.bind_eq_some_iff.mp h
  refine (meets_modify (Q := fun _ b' => b' = { b with returned := true }) rfl).bind
    fun _ b₁ h₁ => meets_get_bind ?_
  have hb₁ : Represents sz call b₁ s := h₁ ▸ hb.markReturned
  have houtputs₁ : b₁.outputs = [] := by
    rw [h₁]
    exact hb.wellFormed.unreturned hopen
  have hreturned₁ : b₁.returned = true := by rw [h₁]
  split
  · next hnone => cases hnone
  · exact yields_fail
  · exact yields_fail
  · next e heq _ =>
    obtain rfl := Option.some.inj heq
    refine ((simulated sz call ctx value).value ht b₁ hb₁).bind fun node b₂ ⟨h₂, hnode⟩ =>
      meets_get_bind ?_
    have hb₂ := hb₁.grow h₂
    have houtputs : b₂.outputs = [] := by rw [h₂.eq, houtputs₁]
    have hreturned : b₂.returned = true := by rw [h₂.eq, hreturned₁]
    obtain ⟨hdeclared, hkept⟩ := value_of_returned hb₂ h
    split
    · next ty dst hplan =>
      refine meets_ite (fun _ => yields_fail) fun hsame => ?_
      refine (meets_onGraph (Q := fun _ b' => b' = { b₂ with
        graph := (b₂.graph.addOp (if (b₂.graph.type node).isScalar then .copy else .deepCopy)
          [node] [dst]).2 }) rfl).bind fun _ b₃ h₃ => meets_modify ?_
      subst h₃
      rw [hdeclared ty dst hplan]
      have hop : (if (b₂.graph.type node).isScalar then OpKind.copy else .deepCopy) = .copy ∨
          (if (b₂.graph.type node).isScalar then OpKind.copy else .deepCopy) = .deepCopy := by
        split <;> simp
      exact delivers_declared hb₂ hnode hplan hop (by simpa using hsame) hreturned houtputs
    -- Without a node that was set apart the returned node is the output itself.
    · next hplan =>
      refine meets_set ⟨?_, hb₂.bound, node, ?_, ?_⟩
      · exact hb₂.wellFormed.returnValue hnode.has _ (fun ty dst h => hplan ty dst h) houtputs hreturned
      · simp [houtputs]
      · rw [hkept fun ty dst h => hplan ty dst h]
        exact hnode.value

/-! ## Bodies -/

/-- The statements of a body deliver what executing them returns. -/
theorem delivers_body (stmts : List Stmt) : ∀ {b : FunctionBuilder} {s : Store} {v : Value},
    s.run call.result stmts = some v → Represents sz call b s →
      Yields (body ctx stmts) b fun _ b' => Delivers sz call b' v := by
  induction stmts with
  | nil => exact fun h => nomatch h
  | cons stmt rest ih =>
    intro b s v h hb
    refine meets_get_bind (meets_ite (fun _ => yields_fail) fun hopen => ?_)
    have hopen : b.returned = false := by simpa using hopen
    unfold Store.run at h
    split at h
    · next heq =>
      obtain ⟨rfl, rfl⟩ := List.cons.inj heq
      exact (delivers_returns _ h hb hopen).bind fun _ _ hb' => meets_pure hb'
    · next heq =>
      obtain ⟨rfl, rfl⟩ := List.cons.inj heq
      obtain ⟨s', hs', h⟩ := Option.bind_eq_some_iff.mp h
      exact (assigns_stmt _ hs' hb).bind fun _ _ hb' => ih h hb'
    · next heq => cases heq

end BuildM

end TensorKernel
