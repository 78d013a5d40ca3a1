import TensorKernel.Proofs.Build.Declaration
import TensorKernel.Proofs.Source.Denotation

/-!
# Building expressions in step with execution

`Represents` says that the names of a builder stand for the values of a store.  It survives whatever
lets the graph grow, and under it an expression is built to a node that denotes the value which
executing the expression gives.
-/

namespace TensorKernel

/-! ## Executing expressions -/

namespace Store

theorem expr_unary (s : Store) (op : UnOp) (arg : Expr) (span : Span) :
    s.expr (.unary op arg span) =
      match op, arg with
      | .neg, .int v _ => TypedValue.ofInt? (Expr.negateInt v)
      | .neg, .float v _ => TypedValue.ofFloat? (-v)
      | op, arg => (do
        let t ← s.expr arg
        t.unary? op) := by
  cases op <;> cases arg <;> rfl

/-- A subscript reads an element at the values of all its indices. -/
theorem exists_of_expr_subscript {s : Store} {target index : Expr} {span : Span} {r : TypedValue}
    (h : s.expr (.subscript target index span) = some r) :
    ∃ t is, s.expr target = some t ∧ s.exprs (TypeHint.elements index) = some is ∧
      t.element? is = some r := by
  have hsingle : ∀ {e : Expr} {i : TypedValue}, s.expr e = some i → s.exprs [e] = some [i] := by
    intro e i hi
    show (s.expr e >>= fun t => some [t]) = _
    rw [hi]
    rfl
  cases index with
  | tuple elems _ =>
    obtain ⟨t, ht, h⟩ := Option.bind_eq_some_iff.mp h
    obtain ⟨is, his, h⟩ := Option.bind_eq_some_iff.mp h
    exact ⟨t, is, ht, his, h⟩
  | _ =>
    obtain ⟨t, ht, h⟩ := Option.bind_eq_some_iff.mp h
    obtain ⟨i, hi, h⟩ := Option.bind_eq_some_iff.mp h
    exact ⟨t, [i], ht, hsingle hi, h⟩

theorem exists_of_exprs_cons {s : Store} {e : Expr} {es : List Expr} {ts : List TypedValue}
    (h : s.exprs (e :: es) = some ts) :
    ∃ t ts', s.expr e = some t ∧ s.exprs es = some ts' ∧ ts = t :: ts' := by
  obtain ⟨t, ht, h⟩ := Option.bind_eq_some_iff.mp h
  obtain ⟨ts', hts', h⟩ := Option.bind_eq_some_iff.mp h
  exact ⟨t, ts', ht, hts', (Option.some.inj h).symm⟩

end Store

/-! ## Builders that represent stores -/

/-- A relation of what was found passes on to what is found second. -/
theorem rel_or {α β : Type} {r : α → β → Prop} {a a' : Option α} {b b' : Option β}
    (h : Option.Rel r a b) (h' : Option.Rel r a' b') : Option.Rel r (a.or a') (b.or b') := by
  cases h with
  | some h => exact .some h
  | none => exact h'

theorem rel_mono {α β : Type} {r r' : α → β → Prop} {a : Option α} {b : Option β}
    (h : Option.Rel r a b) (hr : ∀ x y, r x y → r' x y) : Option.Rel r' a b := by
  cases h with
  | some h => exact .some (hr _ _ h)
  | none => exact .none

/--
What is written about the result, the arguments of a call, and what they give: values of nodes and
sizes of shape symbols.
-/
structure Invocation where
  result : ReturnHint
  args : List Value
  given : GivenValues
  sizes : Table String Nat

/--
A well-formed builder whose names stand for the values of a store: variables, shape symbols and
parameters each in their own tables.
-/
structure Represents (sz : ElemSize) (call : Invocation) (b : FunctionBuilder) (s : Store) : Prop where
  wellFormed : b.WellFormed sz
  bound : (b.view []).bindAll call.args = .ok (call.given, call.sizes)
  plan : b.Plans call.result
  vars : ∀ id, Option.Rel (Denotes call.given call.sizes b) (b.local? id) (s.vars.get? id)
  symbols : ∀ id, Option.Rel (Denotes call.given call.sizes b)
    ((b.symbols.get? id).map ShapeSymbol.node) ((s.sizes.get? id).map s.sizeValue)
  params : ∀ id, Option.Rel (Denotes call.given call.sizes b) (b.params.get? id) (s.params.get? id)
  disjoint : ∀ id, b.scalars.contains id = true → b.tensors.get? id = none

namespace Represents

variable {sz : ElemSize} {call : Invocation} {b b' : FunctionBuilder} {s : Store}
  (h : Represents sz call b s)
include h

theorem givenBy : b.entry.GivenBy call.given :=
  (h.wellFormed.evaluable []).givenBy
    (FunctionGraph.admits_of_bindAll (h.wellFormed.evaluable []).interface h.bound)

/-- A name is resolved to a node that denotes its value. -/
theorem resolve (id : String) :
    Option.Rel (Denotes call.given call.sizes b) (b.resolve? id) (s.get? id) :=
  rel_or (h.vars id) (rel_or (h.symbols id) (h.params id))

/-- Values stay represented as long as every node denotes what it did. -/
theorem alter {graph : Graph} {count : Nat} {returned : Bool}
    (hformed : ({ b with graph, rebindings := count, returned } : FunctionBuilder).WellFormed sz)
    (hbound : (({ b with graph, rebindings := count, returned } : FunctionBuilder).view []).bindAll
      call.args = .ok (call.given, call.sizes))
    (hdenotes : ∀ id t, Denotes call.given call.sizes b id t →
      Denotes call.given call.sizes { b with graph, rebindings := count, returned } id t) :
    Represents sz call { b with graph, rebindings := count, returned } s where
  wellFormed := hformed
  bound := hbound
  plan := h.plan
  vars id := rel_mono (h.vars id) hdenotes
  symbols id := rel_mono (h.symbols id) hdenotes
  params id := rel_mono (h.params id) hdenotes
  disjoint := h.disjoint

theorem grow (hgrown : b.Grown b') : Represents sz call b' s := by
  have hdenotes : ∀ id t, Denotes call.given call.sizes b id t →
      Denotes call.given call.sizes b' id t :=
    fun _ _ hid => hid.grow h.wellFormed h.givenBy hgrown
  have hbound : (b'.view []).bindAll call.args = .ok (call.given, call.sizes) :=
    (h.wellFormed.bindAll_view hgrown [] [] call.args).trans h.bound
  obtain ⟨graph, hgraph⟩ : ∃ graph, b' = { b with graph } := ⟨_, hgrown.eq⟩
  subst hgraph
  exact h.alter (hgrown.wellFormed h.wellFormed) hbound hdenotes

end Represents

/-! ## Expressions -/

namespace BuildM

open FunctionBuilder (Grown)

variable {sz : ElemSize} {call : Invocation} {ctx : BuildContext}

section Tracks

variable {α β : Type} {b : FunctionBuilder} {s : Store} {P : α → FunctionBuilder → Prop}
  {m : BuildM α}

/-- A step that only lets the graph of a builder grow while this represents a store. -/
def Tracks (sz : ElemSize) (call : Invocation) (s : Store) (m : BuildM α) (b : FunctionBuilder)
    (P : α → FunctionBuilder → Prop) : Prop :=
  Represents sz call b s → Yields m b fun a b' => b.Grown b' ∧ P a b'

theorem Tracks.bind {f : α → BuildM β} {S : β → FunctionBuilder → Prop}
    (hm : Tracks sz call s m b P)
    (hf : ∀ a b', b.Grown b' → P a b' → Tracks sz call s (f a) b' S) :
    Tracks sz call s (m >>= f) b S := by
  intro hb
  refine (hm hb).bind fun a b' ⟨hgrown, ha⟩ => ?_
  exact (hf a b' hgrown ha (hb.grow hgrown)).mono fun _ _ ⟨hgrown', h⟩ => ⟨hgrown.trans hgrown', h⟩

theorem tracks_of_represents (h : Represents sz call b s → Tracks sz call s m b P) :
    Tracks sz call s m b P :=
  fun hb => h hb hb

theorem tracks_pure {a : α} (h : P a b) : Tracks sz call s (pure a : BuildM α) b P :=
  fun hb => meets_pure ⟨.refl hb.wellFormed.valid, h⟩

theorem tracks_get_bind {f : FunctionBuilder → BuildM β} {S : β → FunctionBuilder → Prop}
    (h : Tracks sz call s (f b) b S) : Tracks sz call s (get >>= f) b S :=
  fun hb => meets_get_bind (h hb)

theorem tracks_ite {c : Prop} [Decidable c] {m' : BuildM α}
    (hthen : c → Tracks sz call s m b P) (helse : ¬ c → Tracks sz call s m' b P) :
    Tracks sz call s (if c then m else m') b P :=
  fun hb => meets_ite (fun h => hthen h hb) fun h => helse h hb

theorem tracks_fail {span : Span} {fault : BuildFault} :
    Tracks sz call s (fail span fault : BuildM α) b P :=
  fun _ => yields_fail

end Tracks

/-- The value of a node after steps that only let the graph grow. -/
theorem denotes_grown {b b' : FunctionBuilder} {s : Store} (hb : Represents sz call b s)
    (hgrown : b.Grown b') {id : NodeId} {t : TypedValue} (hid : Denotes call.given call.sizes b id t) :
    Denotes call.given call.sizes b' id t :=
  hid.grow hb.wellFormed hb.givenBy hgrown

/-- Building an expression gives a node that denotes its value. -/
def Simulates (sz : ElemSize) (call : Invocation) (ctx : BuildContext) (e : Expr) : Prop :=
  ∀ {s : Store} {t : TypedValue}, s.expr e = some t → ∀ b,
    Tracks sz call s (expr ctx e) b fun id b' => Denotes call.given call.sizes b' id t

/-- A step that gives a node with a value, as a step that tracks a store. -/
theorem tracks_of_evaluates {m : BuildM NodeId} {b : FunctionBuilder} {s : Store} {t : TypedValue}
    (h : b.WellFormed sz → b.entry.GivenBy call.given → Evaluates call.given call.sizes m b t) :
    Tracks sz call s m b fun id b' => Denotes call.given call.sizes b' id t :=
  fun hb => h hb.wellFormed hb.givenBy

theorem tracks_exprs {es : List Expr} (h : ∀ e ∈ es, Simulates sz call ctx e) {s : Store} :
    ∀ {ts : List TypedValue}, s.exprs es = some ts → ∀ b,
      Tracks sz call s (exprs ctx es) b fun ids b' =>
        List.Forall₂ (Denotes call.given call.sizes b') ids ts := by
  induction es with
  | nil =>
    intro ts hts b
    obtain rfl := Option.some.inj hts
    exact tracks_pure .nil
  | cons e es ih =>
    intro ts hts b
    obtain ⟨t, ts', ht, hts', rfl⟩ := Store.exists_of_exprs_cons hts
    refine (h e (List.mem_cons_self ..) ht b).bind fun id b₁ _ hid => tracks_of_represents fun hb₁ => ?_
    refine (ih (fun e he => h e (List.mem_cons_of_mem _ he)) hts' b₁).bind
      fun ids b₂ h₂ hids => tracks_pure ?_
    exact .cons (denotes_grown hb₁ h₂ hid) hids

/-! ### Subscripts -/

theorem tracks_elementIndex {e : Expr} (he : Simulates sz call ctx e) {s : Store} {t : TypedValue}
    (ht : s.expr e = some t) (span : Span) (b : FunctionBuilder) :
    Tracks sz call s (elementIndex (expr ctx e) span) b fun choice b' =>
      ∃ id, choice = ⟨.element id, false⟩ ∧ Denotes call.given call.sizes b' id t ∧
        b'.HasIndex id := by
  refine (he ht b).bind fun id b₁ _ hid => ?_
  refine Tracks.bind (P := fun _ b' => b' = b₁ ∧ b₁.HasIndex id)
    (tracks_get_bind (tracks_ite (fun hindex => tracks_pure ⟨rfl, ?_⟩) fun _ => tracks_fail))
    fun _ b₂ _ ⟨hsame, hindex⟩ => tracks_pure ⟨id, rfl, hsame ▸ hid, hsame ▸ hindex⟩
  obtain ⟨hscalar, hsize⟩ := Bool.and_eq_true_iff.mp hindex
  exact ⟨hid.has, hscalar, hsize⟩

/-- Indices that are no ranges choose single elements. -/
theorem tracks_axisIndices (span : Span) {es : List Expr} (h : ∀ e ∈ es, Simulates sz call ctx e)
    {s : Store} : ∀ {is : List TypedValue} {axes : Shape}, s.exprs es = some is →
      es.length ≤ axes.length → ∀ b,
        Tracks sz call s (axisIndices ctx es axes span) b fun choices b' =>
          ∃ ids, choices = elementChoices ids ∧
            List.Forall₂ (Denotes call.given call.sizes b') ids is ∧ ∀ id ∈ ids, b'.HasIndex id := by
  induction es with
  | nil =>
    intro is axes his _ b
    obtain rfl := Option.some.inj his
    exact tracks_pure ⟨[], rfl, .nil, by simp⟩
  | cons e es ih =>
    intro is axes his hlength b
    obtain ⟨i, is', hi, his', rfl⟩ := Store.exists_of_exprs_cons his
    cases axes with
    | nil => cases hlength
    | cons axis axes =>
      rw [axisIndices_cons]
      split
      · cases hi
      · refine (tracks_elementIndex (h e (List.mem_cons_self ..)) hi span b).bind
          fun choice b₁ _ ⟨id, hchoice, hid, hindex⟩ => tracks_of_represents fun hb₁ => ?_
        refine (ih (fun e he => h e (List.mem_cons_of_mem _ he)) his'
          (Nat.le_of_succ_le_succ hlength) b₁).bind
          fun choices b₂ h₂ ⟨ids, hchoices, hids, hindices⟩ => tracks_pure ?_
        subst hchoice
        subst hchoices
        refine ⟨id :: ids, rfl, .cons (denotes_grown hb₁ h₂ hid) hids, ?_⟩
        exact List.forall_mem_cons.mpr ⟨h₂.hasIndex hindex, hindices⟩

theorem tracks_indexedAxes (target : NodeId) (count : Nat) (span : Span) {s : Store}
    (b : FunctionBuilder) :
    Tracks sz call s (indexedAxes target count span) b fun axes b' => b' = b ∧ count ≤ axes.length :=
  tracks_get_bind (tracks_ite (fun _ => tracks_fail) fun _ => tracks_ite (fun _ => tracks_fail)
    fun hcount => tracks_pure ⟨rfl, Nat.le_of_not_lt hcount⟩)

/-- A subscript gives a node that denotes the element at its indices. -/
theorem simulates_subscript {target index : Expr} (htarget : Simulates sz call ctx target)
    (hindex : ∀ e ∈ TypeHint.elements index, Simulates sz call ctx e) (span : Span) :
    Simulates sz call ctx (.subscript target index span) := by
  intro s r hr b
  obtain ⟨t, is, ht, his, hr⟩ := Store.exists_of_expr_subscript hr
  -- However the indices are written, an element is read at the nodes that denote them.
  have hread : ∀ {b₁ b₂ : FunctionBuilder} {id : NodeId} {ids : List NodeId},
      Represents sz call b₁ s → b₁.Grown b₂ → Denotes call.given call.sizes b₁ id t →
      List.Forall₂ (Denotes call.given call.sizes b₂) ids is → (∀ id ∈ ids, b₂.HasIndex id) →
      Tracks sz call s (readTensor id (elementChoices ids) span) b₂ fun id b' =>
        Denotes call.given call.sizes b' id r := fun hb₁ h₂ hid hids hindices =>
    tracks_of_evaluates fun hb hgiven =>
      evaluates_readTensor hb hgiven (denotes_grown hb₁ h₂ hid) hids hindices hr span
  rw [expr_subscript]
  split
  · next elems _ =>
    refine (htarget ht b).bind fun id b₁ _ hid => tracks_of_represents fun hb₁ => ?_
    refine (tracks_indexedAxes id elems.length span b₁).bind fun axes b₂ h₂ haxes => ?_
    obtain ⟨rfl, hcount⟩ := haxes
    refine (tracks_axisIndices span hindex his hcount b₂).bind
      fun choices b₃ h₃ hchosen => ?_
    obtain ⟨ids, rfl, hids, hindices⟩ := hchosen
    exact hread hb₁ h₃ hid hids hindices
  · obtain ⟨_, _, hrange, _⟩ := Store.exists_of_exprs_cons his
    cases hrange
  · next hne _ =>
    have helements : TypeHint.elements index = [index] := by
      cases index with
      | tuple elems span => exact absurd rfl (hne elems span)
      | _ => rfl
    rw [helements] at his hindex
    obtain ⟨i, is', hi, his', rfl⟩ := Store.exists_of_exprs_cons his
    obtain rfl := Option.some.inj his'
    refine (htarget ht b).bind fun id b₁ _ hid => tracks_of_represents fun hb₁ => ?_
    refine (tracks_indexedAxes id 1 span b₁).bind fun axes b₂ h₂ haxes => ?_
    obtain ⟨rfl, -⟩ := haxes
    refine (tracks_elementIndex (hindex index (List.mem_singleton_self _)) hi span b₂).bind
      fun choice b₃ h₃ hchosen => ?_
    obtain ⟨node, rfl, hnode, hhas⟩ := hchosen
    have hids : List.Forall₂ (Denotes call.given call.sizes b₃) [node] [i] := .cons hnode .nil
    exact hread hb₁ h₃ hid hids (by simpa using hhas)

/-! ### All expressions -/

/-- An expression whose value is simulated, also where it stands as an index. -/
structure Simulated (sz : ElemSize) (call : Invocation) (ctx : BuildContext) (e : Expr) : Prop where
  value : Simulates sz call ctx e
  elements : ∀ e' ∈ TypeHint.elements e, Simulates sz call ctx e'

theorem Simulated.of_value {e : Expr} (h : Simulates sz call ctx e)
    (hne : ∀ elems span, e ≠ .tuple elems span) : Simulated sz call ctx e := by
  refine ⟨h, fun e' he' => ?_⟩
  cases e with
  | tuple elems span => exact absurd rfl (hne elems span)
  | _ => exact List.mem_singleton.mp he' ▸ h

theorem forall₂_pairs {b : FunctionBuilder} {ops : List BinOp} {ids : List NodeId}
    {ts : List TypedValue} (h : List.Forall₂ (Denotes call.given call.sizes b) ids ts) :
    List.Forall₂ (fun p q => p.1 = q.1 ∧ Denotes call.given call.sizes b p.2 q.2)
      (ops.zip ids) (ops.zip ts) := by
  induction h generalizing ops with
  | nil => cases ops <;> exact .nil
  | cons hid _ ih =>
    cases ops with
    | nil => exact .nil
    | cons op ops => exact .cons ⟨rfl, hid⟩ ih

mutual

/-- Every expression that can be executed is built to a node that denotes its value. -/
theorem simulated (sz : ElemSize) (call : Invocation) (ctx : BuildContext) :
    (e : Expr) → Simulated sz call ctx e
  | .name id span => by
    refine .of_value (fun {s t} ht b => ?_) nofun
    refine tracks_get_bind (tracks_of_represents fun hb => ?_)
    have hname := hb.resolve id
    rw [show s.get? id = some t from ht] at hname
    obtain ⟨node, hnode, hdenotes⟩ : ∃ node, b.resolve? id = some node ∧
        Denotes call.given call.sizes b node t := by
      generalize b.resolve? id = found at hname
      cases hname with
      | some h => exact ⟨_, rfl, h⟩
    rw [hnode]
    exact tracks_pure hdenotes
  | .int v span => .of_value (fun ht _ => tracks_of_evaluates fun hb hgiven =>
      evaluates_intConstant hb hgiven ht span) nofun
  | .float v span => .of_value (fun ht _ => tracks_of_evaluates fun hb hgiven =>
      evaluates_floatConstant hb hgiven ht span) nofun
  | .bool v _ => by
    refine .of_value (fun {s t} ht b => tracks_of_evaluates fun hb hgiven => ?_) nofun
    obtain rfl := Option.some.inj ht
    exact evaluates_addConstant hb hgiven (.bool v) .bool
  | .string _ _ => .of_value (fun ht => nomatch ht) nofun
  | .nothing _ => .of_value (fun ht => nomatch ht) nofun
  | .unary op arg span => by
    have harg : Simulates sz call ctx arg := (simulated sz call ctx arg).value
    refine .of_value (fun {s t} ht b => ?_) nofun
    rw [Store.expr_unary] at ht
    -- Negated literals are constants on both sides.
    split at ht
    · exact tracks_of_evaluates fun hb hgiven => evaluates_intConstant hb hgiven ht span
    · exact tracks_of_evaluates fun hb hgiven => evaluates_floatConstant hb hgiven ht span
    · next hint hfloat =>
      obtain ⟨u, hu, ht⟩ := Option.bind_eq_some_iff.mp ht
      rw [expr_unary]
      split
      · exact absurd rfl (hint _ _ rfl)
      · exact absurd rfl (hfloat _ _ rfl)
      · exact (harg hu b).bind fun id b₁ _ hid => tracks_of_evaluates fun hb hgiven =>
          evaluates_applyUnary hb hgiven hid ht span
  | .binary lhs op rhs span => by
    have hlhs : Simulates sz call ctx lhs := (simulated sz call ctx lhs).value
    have hrhs : Simulates sz call ctx rhs := (simulated sz call ctx rhs).value
    refine .of_value (fun {s t} ht b => ?_) nofun
    obtain ⟨l, hl, ht⟩ := Option.bind_eq_some_iff.mp ht
    obtain ⟨r, hr, ht⟩ := Option.bind_eq_some_iff.mp ht
    refine (hlhs hl b).bind fun left b₁ _ hleft => tracks_of_represents fun hb₁ => ?_
    refine (hrhs hr b₁).bind fun right b₂ h₂ hright => tracks_of_evaluates fun hb hgiven => ?_
    exact evaluates_applyBinary hb hgiven (denotes_grown hb₁ h₂ hleft) hright ht span
  | .boolean op operands span => by
    have hall := simulateds sz call ctx operands
    refine .of_value (fun {s t} ht b => ?_) nofun
    obtain ⟨ts, hts, ht⟩ := Option.bind_eq_some_iff.mp ht
    refine (tracks_exprs (fun e he => (hall e he).value) hts b).bind fun ids b₁ _ hids => ?_
    cases hids with
    | nil => cases ht
    | @cons first l ids ts hfirst hrest =>
      refine tracks_of_evaluates fun hb hgiven => evaluates_applyChain hb hgiven hfirst ?_ ht
      rw [List.forall₂_map_left_iff, List.forall₂_map_right_iff]
      exact hrest.imp fun _ _ hid => ⟨rfl, hid⟩
  | .compare lhs ops comparators span => by
    have hlhs : Simulates sz call ctx lhs := (simulated sz call ctx lhs).value
    have hall := simulateds sz call ctx comparators
    refine .of_value (fun {s t} ht b => ?_) nofun
    obtain ⟨l, hl, ht⟩ := Option.bind_eq_some_iff.mp ht
    obtain ⟨rs, hrs, ht⟩ := Option.bind_eq_some_iff.mp ht
    refine (hlhs hl b).bind fun left b₁ _ hleft => tracks_of_represents fun hb₁ => ?_
    refine (tracks_exprs (fun e he => (hall e he).value) hrs b₁).bind fun ids b₂ h₂ hids => ?_
    exact tracks_of_evaluates fun hb hgiven => evaluates_applyChain hb hgiven
      (denotes_grown hb₁ h₂ hleft) (forall₂_pairs hids) ht
  | .subscript target index span =>
    .of_value (simulates_subscript (simulated sz call ctx target).value
      (simulated sz call ctx index).elements span) nofun
  | .slice _ _ _ _ => .of_value (fun ht => nomatch ht) nofun
  | .tuple elems _ =>
    ⟨(fun ht => nomatch ht), fun e he => (simulateds sz call ctx elems e he).value⟩
  | .member _ _ _ => .of_value (fun ht => nomatch ht) nofun
  | .call _ _ _ _ => .of_value (fun ht => nomatch ht) nofun
  | .unsupported _ _ => .of_value (fun ht => nomatch ht) nofun
termination_by structural e => e

theorem simulateds (sz : ElemSize) (call : Invocation) (ctx : BuildContext) :
    (es : List Expr) → ∀ e ∈ es, Simulated sz call ctx e
  | [] => by simp
  | e :: es => by
    have hhead := simulated sz call ctx e
    have htail := simulateds sz call ctx es
    exact List.forall_mem_cons.mpr ⟨hhead, htail⟩
termination_by structural es => es

end

end BuildM

end TensorKernel
