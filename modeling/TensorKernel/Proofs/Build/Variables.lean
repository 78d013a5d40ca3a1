import TensorKernel.Proofs.Build.Appending
import TensorKernel.Proofs.Source.Functions

/-!
# Names while a body is visited

`FunctionBuilder.Separate` says of a builder that no name stands for two things and that variables
are filed by the kind of their nodes.  `FunctionBuilder.Precedes` says what a later builder still has
of an earlier one: the parameters, the shape symbols, the kinds of the nodes and the types of the
variables.

Most steps bind no name (`FunctionBuilder.Frames`).  Those that do are the assignments, all of which
end alike: a node of the variable's type is added, computed, and bound.
-/

namespace TensorKernel

/-! ## Retained nodes -/

/-- The second graph has the nodes of the first one, and they are of the same kinds. -/
structure Graph.Retains (g g' : Graph) : Prop where
  nodes_le : g.nodes.size ≤ g'.nodes.size
  kind_eq : ∀ id : NodeId, id.index < g.nodes.size → (g'.node id).kind = (g.node id).kind

namespace Graph

variable {g g' g'' : Graph}

theorem Retains.refl (g : Graph) : g.Retains g := ⟨Nat.le_refl _, fun _ _ => rfl⟩

theorem Retains.trans (h : g.Retains g') (h' : g'.Retains g'') : g.Retains g'' where
  nodes_le := Nat.le_trans h.nodes_le h'.nodes_le
  kind_eq id hid := (h'.kind_eq id (Nat.lt_of_lt_of_le hid h.nodes_le)).trans (h.kind_eq id hid)

theorem Retains.type_eq (h : g.Retains g') {id : NodeId} (hid : id.index < g.nodes.size) :
    g'.type id = g.type id := by
  rw [Graph.type, Graph.type, Node.type, Node.type, h.kind_eq id hid]

theorem Retains.isScalar_eq (h : g.Retains g') {id : NodeId} (hid : id.index < g.nodes.size) :
    g'.isScalar id = g.isScalar id :=
  congrArg KernelType.isScalar (h.type_eq hid)

theorem Extends.retains (h : g.Extends g') : g.Retains g' := ⟨h.nodes_le, h.kind_eq⟩

/-- Whatever an operator computes, it changes the kind of no node. -/
theorem retains_addOp (g : Graph) (kind : OpKind) (inputs outputs : List NodeId) :
    g.Retains (g.addOp kind inputs outputs).2 :=
  ⟨Nat.le_of_eq (addOp_nodes_size ..).symm, fun id _ => addOp_kind g kind inputs outputs id⟩

end Graph

/-! ## Tables of names -/

namespace FunctionBuilder

/-- Between two builders no name is bound, and no node is lost. -/
structure Frames (b b' : FunctionBuilder) : Prop where
  inputs : b'.inputs = b.inputs
  params : b'.params = b.params
  symbols : b'.symbols = b.symbols
  scalars : b'.scalars = b.scalars
  tensors : b'.tensors = b.tensors
  graph : b.graph.Retains b'.graph

/-- No name is in two tables, and a variable is in the table for the kind of its node. -/
structure Separate (b : FunctionBuilder) : Prop where
  declared : ∀ id, b.params.contains id = true → b.symbols.contains id = false
  unbound : ∀ id, (b.local? id).isSome = true →
    b.params.contains id = false ∧ b.symbols.contains id = false
  apart : ∀ id, b.scalars.contains id = true → b.tensors.contains id = false
  scalar : ∀ {id node}, b.scalars.get? id = some node →
    node.index < b.graph.nodes.size ∧ b.graph.isScalar node = true
  tensor : ∀ {id node}, b.tensors.get? id = some node →
    node.index < b.graph.nodes.size ∧ b.graph.isScalar node = false

/-- What the second builder, which comes after the first one, still has of it. -/
structure Precedes (b b' : FunctionBuilder) : Prop where
  inputs : b'.inputs = b.inputs
  params : b'.params = b.params
  symbols : b'.symbols = b.symbols
  graph : b.graph.Retains b'.graph
  locals : ∀ {id node}, b.local? id = some node →
    ∃ node', b'.local? id = some node' ∧ b'.graph.type node' = b.graph.type node

/-- The second builder has a new node for a name that was free to be assigned to. -/
structure Rebinds (b : FunctionBuilder) (id : String) (b' : FunctionBuilder) : Prop where
  param : b.params.contains id = false
  symbol : b.symbols.contains id = false
  bound : ∃ node, b'.local? id = some node ∧ b.graph.nodes.size ≤ node.index ∧
    node.index < b'.graph.nodes.size

variable {b b' b'' : FunctionBuilder} {id : String}

theorem Appends.frames (h : b.Appends b') : b.Frames b' := by
  obtain ⟨graph, rfl⟩ : ∃ graph, b' = { b with graph } := ⟨_, h.eq⟩
  exact ⟨rfl, rfl, rfl, rfl, rfl, h.graph.ext.retains⟩

namespace Frames

theorem local?_eq (h : b.Frames b') (id : String) : b'.local? id = b.local? id := by
  rw [local?, local?, h.scalars, h.tensors]

theorem trans (h : b.Frames b') (h' : b'.Frames b'') : b.Frames b'' :=
  ⟨h'.inputs.trans h.inputs, h'.params.trans h.params, h'.symbols.trans h.symbols,
    h'.scalars.trans h.scalars, h'.tensors.trans h.tensors, h.graph.trans h'.graph⟩

theorem rebinds (h : b.Frames b') (h' : b'.Rebinds id b'') : b.Rebinds id b'' := by
  obtain ⟨node, hnode, hnew, hlt⟩ := h'.bound
  exact ⟨h.params ▸ h'.param, h.symbols ▸ h'.symbol, node, hnode, Nat.le_trans h.graph.nodes_le hnew,
    hlt⟩

end Frames

namespace Precedes

theorem trans (h : b.Precedes b') (h' : b'.Precedes b'') : b.Precedes b'' where
  inputs := h'.inputs.trans h.inputs
  params := h'.params.trans h.params
  symbols := h'.symbols.trans h.symbols
  graph := h.graph.trans h'.graph
  locals hnode := by
    obtain ⟨node', hnode', htype⟩ := h.locals hnode
    obtain ⟨node'', hnode'', htype'⟩ := h'.locals hnode'
    exact ⟨node'', hnode'', htype'.trans htype⟩

theorem refl (b : FunctionBuilder) : b.Precedes b :=
  ⟨rfl, rfl, rfl, .refl _, fun h => ⟨_, h, rfl⟩⟩

end Precedes

namespace Separate

theorem local_lt (h : b.Separate) {node : NodeId} (hnode : b.local? id = some node) :
    node.index < b.graph.nodes.size := by
  rcases Option.or_eq_some_iff.mp hnode with hscalar | ⟨-, htensor⟩
  · exact (h.scalar hscalar).1
  · exact (h.tensor htensor).1

/-- A name that stands for a tensor stands for no scalar. -/
theorem local_of_tensor (h : b.Separate) {node : NodeId} (hnode : b.tensors.get? id = some node) :
    b.local? id = some node := by
  have hscalar : b.scalars.get? id = none := by
    by_contra hsome
    have happart := h.apart id (Option.isSome_iff_ne_none.mpr hsome)
    rw [Table.contains, hnode] at happart
    cases happart
  rw [local?, hscalar, hnode]
  rfl

theorem of_frames (h : b.Separate) (hframe : b.Frames b') : b'.Separate where
  declared := by rw [hframe.params, hframe.symbols]; exact h.declared
  unbound id := by rw [hframe.local?_eq, hframe.params, hframe.symbols]; exact h.unbound id
  apart := by rw [hframe.scalars, hframe.tensors]; exact h.apart
  scalar hnode := by
    obtain ⟨hlt, hscalar⟩ := h.scalar (hframe.scalars ▸ hnode)
    exact ⟨Nat.lt_of_lt_of_le hlt hframe.graph.nodes_le,
      (hframe.graph.isScalar_eq hlt).trans hscalar⟩
  tensor hnode := by
    obtain ⟨hlt, hscalar⟩ := h.tensor (hframe.tensors ▸ hnode)
    exact ⟨Nat.lt_of_lt_of_le hlt hframe.graph.nodes_le,
      (hframe.graph.isScalar_eq hlt).trans hscalar⟩

theorem precedes (h : b.Separate) (hframe : b.Frames b') : b.Precedes b' where
  inputs := hframe.inputs
  params := hframe.params
  symbols := hframe.symbols
  graph := hframe.graph
  locals hnode := ⟨_, (hframe.local?_eq _).trans hnode, hframe.graph.type_eq (h.local_lt hnode)⟩

end Separate

/-! ## Bound variables -/

/-- The builder after a variable was bound to a node of a type. -/
def bind (b : FunctionBuilder) (id : String) (ty : KernelType) (node : NodeId) : FunctionBuilder :=
  if ty.isScalar then { b with scalars := b.scalars.insert id node }
  else { b with tensors := b.tensors.insert id node }

section Bind

variable {ty : KernelType} {node : NodeId}

@[simp] theorem bind_inputs : (b.bind id ty node).inputs = b.inputs := by
  unfold bind
  split <;> rfl

@[simp] theorem bind_params : (b.bind id ty node).params = b.params := by
  unfold bind
  split <;> rfl

@[simp] theorem bind_symbols : (b.bind id ty node).symbols = b.symbols := by
  unfold bind
  split <;> rfl

@[simp] theorem bind_graph : (b.bind id ty node).graph = b.graph := by
  unfold bind
  split <;> rfl

theorem bind_scalars : (b.bind id ty node).scalars =
    if ty.isScalar then b.scalars.insert id node else b.scalars := by
  unfold bind
  split <;> rfl

theorem bind_tensors : (b.bind id ty node).tensors =
    if ty.isScalar then b.tensors else b.tensors.insert id node := by
  unfold bind
  split <;> rfl

variable (h : b.Separate) (hprevious : ∀ old, b.local? id = some old → b.graph.type old = ty)
include h hprevious

/-- A variable with the type of a scalar is not filed as a tensor. -/
theorem tensors_eq_none (hscalar : ty.isScalar = true) : b.tensors.get? id = none := by
  by_contra hsome
  obtain ⟨old, hold⟩ := Option.ne_none_iff_exists'.mp hsome
  have htensor : (b.graph.type old).isScalar = false := (h.tensor hold).2
  rw [hprevious old (h.local_of_tensor hold), hscalar] at htensor
  cases htensor

/-- A variable with the type of a tensor is not filed as a scalar. -/
theorem scalars_eq_none (htensor : ty.isScalar = false) : b.scalars.get? id = none := by
  by_contra hsome
  obtain ⟨old, hold⟩ := Option.ne_none_iff_exists'.mp hsome
  have hscalar : (b.graph.type old).isScalar = true := (h.scalar hold).2
  rw [hprevious old (by rw [local?, hold]; rfl), htensor] at hscalar
  cases hscalar

/-- Binding a variable to a node of its type changes what this name stands for, and no other. -/
theorem local?_bind (other : String) :
    (b.bind id ty node).local? other = if other = id then some node else b.local? other := by
  rw [local?, local?, bind_scalars, bind_tensors]
  cases hty : ty.isScalar with
  | true =>
    simp only [if_true, Table.get?_insert]
    split <;> rfl
  | false =>
    simp only [Bool.false_eq_true, if_false, Table.get?_insert]
    split
    · next hsame =>
      rw [hsame, scalars_eq_none h hprevious hty]
      rfl
    · rfl

/-- Binding a variable to a node of its type keeps the tables separate. -/
theorem Separate.bind (hparam : b.params.contains id = false) (hsymbol : b.symbols.contains id = false)
    (hlt : node.index < b.graph.nodes.size) (htype : b.graph.type node = ty) :
    (b.bind id ty node).Separate where
  declared := by simpa using h.declared
  unbound other hother := by
    rw [local?_bind h hprevious] at hother
    rw [bind_params, bind_symbols]
    split at hother
    · next hsame => exact hsame ▸ ⟨hparam, hsymbol⟩
    · exact h.unbound other hother
  -- A name goes to the table of its type, and its previous binding kept it out of the other one.
  apart other := by
    rw [bind_scalars, bind_tensors]
    cases hty : ty.isScalar with
    | true =>
      simp only [if_true, Table.contains_insert, Bool.or_eq_true, decide_eq_true_eq]
      rintro (rfl | hother)
      · rw [Table.contains, tensors_eq_none h hprevious hty]
        rfl
      · exact h.apart other hother
    | false =>
      simp only [Bool.false_eq_true, if_false, Table.contains_insert, Bool.or_eq_false_iff,
        decide_eq_false_iff_not]
      refine fun hother => ⟨?_, h.apart other hother⟩
      rintro rfl
      rw [Table.contains, scalars_eq_none h hprevious hty] at hother
      cases hother
  scalar {other old} hold := by
    rw [bind_graph]
    rw [bind_scalars] at hold
    split at hold
    · next hty =>
      rw [Table.get?_insert] at hold
      split at hold
      · obtain rfl := Option.some.inj hold
        exact ⟨hlt, (congrArg KernelType.isScalar htype).trans hty⟩
      · exact h.scalar hold
    · exact h.scalar hold
  tensor {other old} hold := by
    rw [bind_graph]
    rw [bind_tensors] at hold
    split at hold
    · exact h.tensor hold
    · next hty =>
      rw [Table.get?_insert] at hold
      split at hold
      · obtain rfl := Option.some.inj hold
        exact ⟨hlt, (congrArg KernelType.isScalar htype).trans (by simpa using hty)⟩
      · exact h.tensor hold

/-- The type of every variable stays what it was. -/
theorem Separate.precedes_bind (htype : b.graph.type node = ty) :
    b.Precedes (b.bind id ty node) where
  inputs := bind_inputs
  params := bind_params
  symbols := bind_symbols
  graph := by rw [bind_graph]; exact .refl _
  locals {other old} hold := by
    rw [local?_bind h hprevious, bind_graph]
    split
    · next hsame => exact ⟨node, rfl, htype.trans (hprevious old (hsame ▸ hold)).symm⟩
    · exact ⟨old, hold, rfl⟩

end Bind

/-- What a step that may assign to a name leaves behind. -/
structure Visits (b : FunctionBuilder) (assigned : Option String) (b' : FunctionBuilder) : Prop where
  separate : b'.Separate
  precedes : b.Precedes b'
  rebinds : ∀ id, assigned = some id → b.Rebinds id b'

theorem Separate.visits (h : b.Separate) (hframe : b.Frames b') : b.Visits none b' :=
  ⟨h.of_frames hframe, h.precedes hframe, nofun⟩

theorem Visits.after {assigned : Option String} (h' : b'.Visits assigned b'') (h : b.Separate)
    (hframe : b.Frames b') : b.Visits assigned b'' :=
  ⟨h'.separate, (h.precedes hframe).trans h'.precedes, fun id hid => hframe.rebinds (h'.rebinds id hid)⟩

end FunctionBuilder

/-! ## Assignments -/

/-- The name that is assigned to, or an element of what it stands for. -/
def Expr.assigned? : Expr → Option String
  | .name id _ => some id
  | .subscript (.name id _) _ _ => some id
  | _ => none

/-- The name that a statement assigns to, in whatever form. -/
def Stmt.assigned? : Stmt → Option String
  | .assign target _ _ => target.assigned?
  | .annotated target _ _ _ => target.assigned?
  | .augmented target _ _ _ => target.assigned?
  | _ => none

namespace BuildM

open FunctionBuilder (Separate Frames Visits)

variable {ctx : BuildContext} {b : FunctionBuilder} {id : String} {ty : KernelType}

/-- All assignments end alike: a node of the variable's type is added, computed, and bound. -/
theorem yields_rebind (h : b.Separate) (hparam : b.params.contains id = false)
    (hsymbol : b.symbols.contains id = false)
    (hprevious : ∀ old, b.local? id = some old → b.graph.type old = ty) (name : Option String)
    (op : OpKind) (inputs : List NodeId) (count : Nat) :
    Yields (do
      let dst ← onGraph fun g => g.addOfType name ty
      let _ ← onGraph fun g => g.addOp op inputs [dst]
      modify fun b => b.bind id ty dst) { b with rebindings := count } fun _ b' =>
        b.Visits (some id) b' := by
  refine meets_computeOfType fun kind htype _ => meets_modify ?_
  -- The node is computed before the name is bound, so there is a builder in between.
  let b₁ : FunctionBuilder :=
    { b with rebindings := count, graph := (b.graph.compute name kind op inputs).2 }
  have hext : b.graph.Extends b₁.graph := Graph.compute_extends ..
  have hframe : b.Frames b₁ := ⟨rfl, rfl, rfl, rfl, rfl, hext.retains⟩
  have hprevious₁ : ∀ old, b₁.local? id = some old → b₁.graph.type old = ty := fun old hold =>
    (hext.type_eq (h.local_lt hold)).trans (hprevious old hold)
  have hnew : b₁.graph.type ⟨b.graph.nodes.size⟩ = ty := by
    rw [Graph.type, Node.type, Graph.compute_kind]
    exact htype none []
  have hlt : b.graph.nodes.size < b₁.graph.nodes.size := by
    rw [Graph.compute_nodes_size]
    exact Nat.lt_succ_self _
  have hseparate₁ := h.of_frames hframe
  refine ⟨hseparate₁.bind hprevious₁ hparam hsymbol hlt hnew,
    (h.precedes hframe).trans (hseparate₁.precedes_bind hprevious₁ hnew), ?_⟩
  rintro _ ⟨⟩
  refine ⟨hparam, hsymbol, ⟨b.graph.nodes.size⟩, ?_, Nat.le_refl _, ?_⟩
  · exact (FunctionBuilder.local?_bind hseparate₁ hprevious₁ id).trans (if_pos rfl)
  · rw [FunctionBuilder.bind_graph]
    exact hlt

/-- A name for a further node changes the number of such names. -/
theorem yields_numbered (id : String) :
    Yields (freshName id) b fun _ b' => b' = { b with rebindings := b.rebindings + 1 } :=
  meets_get_bind ((meets_set (Q := fun _ b' => b' = { b with rebindings := b.rebindings + 1 })
    rfl).bind fun _ _ h => meets_pure h)

theorem yields_assignName (h : b.Separate) (value : NodeId) (hint : Option KernelType) (span : Span) :
    Yields (assignName id value hint span) b fun _ b' => b.Visits (some id) b' := by
  refine meets_get_bind (meets_ite (fun _ => yields_fail) fun hparam => meets_ite (fun _ => yields_fail)
    fun hsymbol => ?_)
  refine (meets_variableType id hint _ _ span).bind fun ty b₁ ⟨hsame, _, hprevious⟩ => ?_
  subst hsame
  refine meets_ite (fun _ => yields_fail) fun _ => ?_
  have hold : ∀ old, b₁.local? id = some old → b₁.graph.type old = ty := fun old hold =>
    (hprevious _ (by rw [hold]; rfl)).symm
  have hrest (name : String) := yields_rebind h (by simpa using hparam) (by simpa using hsymbol) hold
    (some name)
    (if ((b₁.local? id).map b₁.graph.type).isSome && !ty.isScalar then OpKind.deepCopy else .copy)
    [value]
  refine meets_ite (fun _ => ?_) fun _ => hrest id b₁.rebindings
  refine (yields_numbered id).bind fun name b₂ h₂ => ?_
  subst h₂
  exact hrest name _

theorem yields_tensorTarget (id : String) (span : Span) :
    Yields (elementTarget id span) b fun node b' => b' = b ∧ b.params.contains id = false ∧
      b.tensors.get? id = some node := by
  refine meets_get_bind (meets_ite (fun _ => yields_fail) fun hparam => ?_)
  split
  · next node hnode => exact meets_pure ⟨rfl, by simpa using hparam, hnode⟩
  · exact meets_ite (fun _ => yields_fail) fun _ => yields_fail

theorem appends_targetIndices (index : Expr) (target : NodeId) (span : Span) :
    Appends (targetIndices ctx index target span) :=
  (appends_indexedAxes _ _ _).bind fun axes =>
    appends_axisIndices (fun e _ => exprAppends ctx e) axes span

/-- What a tensor variable stands for is no shape symbol, so an element of one is refused as well. -/
theorem yields_assignElement (h : b.Separate) (idSpan : Span) (index : Expr) (value : NodeId)
    (span : Span) : Yields (assignElement ctx (.name id idSpan) index value span) b fun _ b' =>
      b.Visits (some id) b' := by
  refine (yields_tensorTarget id span).bind fun tensor b₁ ⟨hsame, hparam, htensor⟩ => ?_
  subst hsame
  refine meets_get_bind ((appends_targetIndices index tensor span).yields fun choices b₂ h₂ => ?_)
  split
  · refine meets_ite (fun _ => yields_fail) fun _ => meets_get_bind (meets_ite (fun _ => yields_fail)
      fun _ => ?_)
    have hlocal := h.local_of_tensor htensor
    have hframe := h₂.frames
    have hsymbol := (h.unbound id (by rw [hlocal]; rfl)).2
    have htype : (b₁.graph.type tensor).isScalar = false := (h.tensor htensor).2
    have hprevious : ∀ old, b₂.local? id = some old → b₂.graph.type old = b₁.graph.type tensor := by
      intro old hold
      rw [hframe.local?_eq, hlocal] at hold
      obtain rfl := Option.some.inj hold
      exact hframe.graph.type_eq (h.tensor htensor).1
    have hrest := yields_rebind (h.of_frames hframe) (by rwa [hframe.params])
      (by rwa [hframe.symbols]) hprevious
    refine (yields_numbered id).bind fun name b₃ h₃ => ?_
    subst h₃
    -- Inserting into the tensors is binding a variable of a tensor type.
    have hbind : ∀ dst, (fun b : FunctionBuilder => { b with tensors := b.tensors.insert id dst }) =
        fun b => b.bind id (b₁.graph.type tensor) dst := fun dst => by
      funext b
      rw [FunctionBuilder.bind, htype]
      rfl
    simp only [hbind]
    exact (hrest (some name) .setItem _ _).mono fun _ b₄ h₄ => h₄.after h hframe
  · exact yields_fail

theorem yields_assign (h : b.Separate) (target value : Expr) (span : Span) :
    Yields (assign ctx target value span) b fun _ b' => b.Visits target.assigned? b' := by
  unfold assign
  split
  · exact (appends_expr ctx value).yields fun node b₁ h₁ =>
      (yields_assignName (h.of_frames h₁.frames) node none span).mono fun _ b₂ h₂ =>
        h₂.after h h₁.frames
  · next tensor index _ =>
    refine (appends_expr ctx value).yields fun node b₁ h₁ => ?_
    cases tensor with
    | name id idSpan =>
      exact (yields_assignElement (h.of_frames h₁.frames) idSpan index node span).mono
        fun _ b₂ h₂ => h₂.after h h₁.frames
    | _ => exact yields_fail
  · exact yields_fail

theorem yields_assignHinted (h : b.Separate) (target hint : Expr) (value : Option Expr) (span : Span) :
    Yields (assignHinted ctx target hint value span) b fun _ b' => b.Visits target.assigned? b' := by
  unfold assignHinted
  split
  · next value =>
    refine (yields_ofLocated (Q := fun _ b' => b' = b) fun _ _ => rfl).bind fun ty b₁ hsame => ?_
    subst hsame
    refine meets_get_bind ?_
    split
    · exact yields_fail
    · exact (appends_expr ctx value).yields fun node b₂ h₂ =>
        (yields_assignName (h.of_frames h₂.frames) node (some ty) span).mono fun _ b₃ h₃ =>
          h₃.after h h₂.frames
  · exact yields_fail
  · exact yields_fail
  · exact yields_fail

/-! ## Other statements -/

theorem yields_returnNode (node : NodeId) (span : Span) :
    Yields (returnNode node span) b fun _ b' => b.Frames b' := by
  refine meets_get_bind ?_
  split
  · refine meets_ite (fun _ => yields_fail) fun _ => ?_
    refine (meets_onGraph (Q := fun _ b' => b.Frames b') ⟨rfl, rfl, rfl, rfl, rfl,
      Graph.retains_addOp _ _ _ _⟩).bind fun _ b₁ h₁ => meets_modify ?_
    exact h₁.trans ⟨rfl, rfl, rfl, rfl, rfl, .refl _⟩
  · exact meets_set ⟨rfl, rfl, rfl, rfl, rfl, .refl _⟩

theorem yields_returns (value : Option Expr) (span : Span) :
    Yields (returns ctx value span) b fun _ b' => b.Frames b' := by
  refine (meets_modify (Q := fun _ b' => b.Frames b') ⟨rfl, rfl, rfl, rfl, rfl, .refl _⟩).bind
    fun _ b₁ h₁ => meets_get_bind ?_
  split
  · exact meets_pure h₁
  · exact yields_fail
  · exact yields_fail
  · next e _ => exact (appends_expr ctx e).yields fun node b₂ h₂ =>
      (yields_returnNode node span).mono fun _ b₃ h₃ => (h₁.trans h₂.frames).trans h₃

/-- Every statement keeps the tables separate, and rebinds the name that it assigns to. -/
theorem yields_stmt (h : b.Separate) (s : Stmt) :
    Yields (stmt ctx s) b fun _ b' => b.Visits s.assigned? b' := by
  have hframes {m : BuildM Unit} (hm : Yields m b fun _ b' => b.Frames b') :
      Yields m b fun _ b' => b.Visits none b' := hm.mono fun _ _ => h.visits
  unfold stmt
  split
  · exact yields_assign h _ _ _
  · exact yields_assignHinted h _ _ _ _
  · exact yields_assign h _ _ _
  · exact hframes (yields_returns _ _)
  · exact hframes ((appends_expr ctx _).yields fun _ _ h₁ => meets_pure h₁.frames)
  · exact hframes (meets_pure ⟨rfl, rfl, rfl, rfl, rfl, .refl _⟩)
  · exact yields_fail
  · exact hframes (meets_pure ⟨rfl, rfl, rfl, rfl, rfl, .refl _⟩)
  · exact yields_fail
  · exact yields_fail
  · exact yields_fail
  · exact yields_fail

/-! ## The start of a body -/

theorem yields_planResult (result : ReturnHint) :
    Yields (planReturn result) b fun _ b' => b.Frames b' :=
  (meets_planReturn_plans result).mono
    fun _ _ ⟨_, _, hinputs, hparams, hsymbols, hscalars, htensors, _, hext⟩ =>
      ⟨hinputs, hparams, hsymbols, hscalars, htensors, hext.retains⟩

/-- Adds the parameters of a function, none of which may have the name of a shape symbol. -/
def parameters (ctx : BuildContext) (f : FunctionDef) (types : List KernelType) : BuildM Unit := do
  addParams ctx f.id f.params types
  checkParamNames f.params

/-- What is done after the parameters of a function are added. -/
def afterParameters (ctx : BuildContext) (f : FunctionDef) : BuildM FunctionGraph := do
  planReturn f.result
  body ctx f.body
  finish f

theorem function_eq (ctx : BuildContext) (f : FunctionDef) (types : List KernelType) :
    function ctx f types = parameters ctx f types >>= fun _ => afterParameters ctx f := by
  simp only [function, parameters, afterParameters, bind_assoc]

/-- Adding symbols adds nodes that nothing computes, and changes no other table. -/
theorem yields_addSymbols_frame (indexSize : ElemSize) (arg : NodeId) (axes : Shape) :
    ∀ {b : FunctionBuilder} (axis : Nat), Yields (addSymbols indexSize arg axis axes) b fun _ b' =>
      b' = { b with graph := b'.graph, symbols := b'.symbols } ∧ b'.graph.ops = b.graph.ops := by
  induction axes with
  | nil => exact fun _ => meets_pure ⟨rfl, rfl⟩
  | cons d rest ih =>
    intro b axis
    cases d with
    | const n => exact ih (axis + 1)
    | node id => exact ih (axis + 1)
    | sym name =>
      refine meets_get_bind (meets_ite (fun _ => ih (axis + 1)) fun _ => ?_)
      refine (meets_onGraph (Q := fun _ b' =>
        b' = { b with graph := b'.graph } ∧ b'.graph.ops = b.graph.ops) ⟨rfl, rfl⟩).bind
          fun node b₁ ⟨h₁, hops₁⟩ => ?_
      refine (meets_modify (Q := fun _ b' =>
        b' = { b with graph := b'.graph, symbols := b'.symbols } ∧ b'.graph.ops = b.graph.ops)
          ⟨by rw [h₁], hops₁⟩).bind fun _ b₂ ⟨h₂, hops₂⟩ => (ih (axis + 1)).mono fun _ b₃ ⟨h₃, hops₃⟩ =>
            ⟨?_, hops₃.trans hops₂⟩
      rw [h₃, h₂]

theorem yields_paramType (function : String) (param : Param) (given : Option KernelType) :
    Yields (paramType function param given) b fun ty b' => Store.paramType param given = some ty ∧
      b' = b := by
  unfold paramType Store.paramType
  split
  · next hhint =>
    rw [hhint]
    exact yields_ofLocated fun ty hty => ⟨congrArg Except.toOption hty, rfl⟩
  · next hhint =>
    rw [hhint]
    exact meets_pure ⟨rfl, rfl⟩
  · exact yields_fail

theorem yields_addParam_frame (function : String) (param : Param) (given : Option KernelType) :
    Yields (addParam ctx function param given) b fun _ b' =>
      b' = { b with
        graph := b'.graph
        inputs := b'.inputs
        params := b'.params
        symbols := b'.symbols } ∧ b'.graph.ops = b.graph.ops := by
  refine meets_get_bind (meets_ite (fun _ => yields_fail) fun _ => ?_)
  refine (yields_paramType function param given).bind fun ty b₁ ⟨_, hsame⟩ => ?_
  subst hsame
  obtain ⟨kind, hadd, -⟩ := b₁.graph.addOfType_eq_addNode (some param.id) ty
  refine (meets_onGraph (Q := fun _ b' =>
    b' = { b₁ with graph := b'.graph } ∧ b'.graph.ops = b₁.graph.ops) ?_).bind
      fun arg b₂ ⟨h₂, hops₂⟩ => ?_
  · rw [hadd]
    exact ⟨rfl, rfl⟩
  · refine (meets_modify (Q := fun _ b' =>
      b' = { b₁ with graph := b'.graph, inputs := b'.inputs, params := b'.params } ∧
        b'.graph.ops = b₁.graph.ops) ⟨by rw [h₂], hops₂⟩).bind fun _ b₃ ⟨h₃, hops₃⟩ =>
          (yields_addSymbols_frame _ _ _ _).mono fun _ b₄ ⟨h₄, hops₄⟩ => ⟨?_, hops₄.trans hops₃⟩
    rw [h₄, h₃]

/-- Adding parameters adds nodes that nothing computes, and binds no variable. -/
theorem yields_addParams_frame (function : String) (params : List Param) :
    ∀ {b : FunctionBuilder} {given : List KernelType},
      Yields (addParams ctx function params given) b fun _ b' =>
        b' = { b with
          graph := b'.graph
          inputs := b'.inputs
          params := b'.params
          symbols := b'.symbols } ∧ b'.graph.ops = b.graph.ops := by
  induction params with
  | nil => exact meets_pure ⟨rfl, rfl⟩
  | cons param params ih =>
    intro b given
    refine (yields_addParam_frame function param given.head?).bind fun _ b₁ ⟨h₁, hops₁⟩ =>
      ih.mono fun _ b₂ ⟨h₂, hops₂⟩ => ⟨?_, hops₂.trans hops₁⟩
    rw [h₂, h₁]

/-- A parameter that is added has a type, and is declared with it. -/
theorem yields_addParam_declares (function : String) (param : Param) (given : Option KernelType)
    {names : List String} {types : List KernelType} (hb : b.Declares names types) :
    Yields (addParam ctx function param given) b fun _ b' =>
      ∃ ty, Store.paramType param given = some ty ∧
        b'.Declares (names ++ [param.id]) (types ++ [ty]) := by
  cases hty : Store.paramType param given with
  | some ty => exact (yields_addParam function param hty hb).mono fun _ _ h => ⟨ty, rfl, h⟩
  | none =>
    refine meets_get_bind (meets_ite (fun _ => yields_fail) fun _ => ?_)
    refine (yields_paramType function param given).bind fun ty _ ⟨hty', _⟩ => ?_
    rw [hty] at hty'
    cases hty'

theorem yields_addParams_declares (function : String) (params : List Param) :
    ∀ {b : FunctionBuilder} {given before : List KernelType} {names : List String},
      b.Declares names before → Yields (addParams ctx function params given) b fun _ b' =>
        ∃ types, Store.paramTypes params given = some types ∧
          b'.Declares (names ++ params.map Param.id) (before ++ types) := by
  induction params with
  | nil => exact fun hb => meets_pure ⟨[], rfl, by simpa using hb⟩
  | cons param params ih =>
    intro b given before names hb
    refine (yields_addParam_declares function param given.head? hb).bind
      fun _ b₁ ⟨ty, hty, hb₁⟩ => (ih hb₁).mono fun _ b₂ ⟨types, htypes, hb₂⟩ => ?_
    exact ⟨ty :: types, by simp [Store.paramTypes, hty, htypes], by simpa using hb₂⟩

theorem yields_checkParamNames (params : List Param) :
    Yields (checkParamNames params) b fun _ b' => b' = b ∧
      ∀ p ∈ params, b.symbols.contains p.id = false := by
  refine meets_get_bind ?_
  split
  · exact yields_fail
  · next hnone => exact meets_pure ⟨rfl, fun p hp => by simpa using List.find?_eq_none.mp hnone p hp⟩

/-- After the parameters are added, the names are separate and no variable is bound. -/
theorem yields_parameters (f : FunctionDef) (given : List KernelType) :
    Yields (parameters ctx f given) (.start f.id) fun _ b => b.Separate ∧ b.Named ∧
      ∃ types, Store.paramTypes f.params given = some types ∧
        b.Declares (f.params.map Param.id) types := by
  have hstart : (FunctionBuilder.start f.id).Declares [] [] := ⟨rfl, rfl, rfl, nofun⟩
  refine ((yields_addParams_declares f.id f.params hstart).and
    ((yields_addParams_frame f.id f.params).and
      (meets_addParams_named f.id f.params ⟨List.nodup_nil, nofun⟩))).bind
        fun _ b ⟨⟨types, htypes, hb⟩, ⟨hframe, _⟩, hnamed⟩ => ?_
  refine (yields_checkParamNames f.params).mono fun _ b' ⟨hsame, hnames⟩ => ?_
  subst hsame
  -- Adding parameters binds no variables, so both tables are still empty.
  have hscalars : b'.scalars = .empty := by rw [hframe]; rfl
  have htensors : b'.tensors = .empty := by rw [hframe]; rfl
  have hlocal : ∀ id, b'.local? id = none := fun id => by
    rw [FunctionBuilder.local?, hscalars, htensors]
    rfl
  refine ⟨⟨fun id hid => ?_, fun id hid => ?_, fun id hid => ?_, fun hid => ?_, fun hid => ?_⟩, hnamed,
    types, htypes, hb⟩
  · obtain ⟨node, hnode⟩ := Table.get?_eq_some_of_contains hid
    rw [hb.params] at hnode
    have hname := List.mem_map_of_mem (f := Prod.fst) (Table.mem_of_get?_ofList hnode)
    rw [hb.names] at hname
    obtain ⟨p, hp, rfl⟩ := List.mem_map.mp hname
    exact hnames p hp
  · rw [hlocal] at hid
    cases hid
  · rw [hscalars] at hid
    cases hid
  · rw [hscalars] at hid
    cases hid
  · rw [htensors] at hid
    cases hid

/-! ## Built functions -/

/-- The graph of a function is what building it ends with. -/
theorem exists_run_of_build {f : FunctionDef} {given : List KernelType} {cache after : GraphCache}
    {g : FunctionGraph} (h : runCall (f.build ctx given) cache = (.ok g, after)) :
    ∃ b, run (function ctx f given) (.start f.id) cache = (.ok (g, b), after) := by
  rw [f.build_eq] at h
  generalize run (function ctx f given) (.start f.id) cache = result at h
  obtain ⟨outcome, behind⟩ := result
  cases outcome with
  | error err => cases h
  | ok p =>
    obtain ⟨hg, rfl⟩ := Prod.mk.inj h
    obtain rfl := Except.ok.inj hg
    exact ⟨p.2, rfl⟩

theorem yields_body (stmts : List Stmt) : ∀ {b : FunctionBuilder}, b.Separate →
    Yields (body ctx stmts) b fun _ b' => b.Precedes b' := by
  induction stmts with
  | nil => exact fun _ => meets_pure (.refl _)
  | cons s rest ih =>
    exact fun h => meets_get_bind (meets_ite (fun _ => yields_fail) fun _ =>
      (yields_stmt h s).bind fun _ _ h₁ => (ih h₁.separate).mono fun _ _ h₂ => h₁.precedes.trans h₂)

/-- The inputs of a built graph are the parameters, in the types of their annotations or arguments. -/
theorem inputs_of_build {f : FunctionDef} {given : List KernelType} {cache after : GraphCache}
    {g : FunctionGraph} (h : runCall (f.build ctx given) cache = (.ok g, after)) :
    g.inputs.map Prod.fst = f.params.map Param.id ∧
      Store.paramTypes f.params given = some (g.inputs.map fun p => g.graph.type p.2) := by
  have hfunction : Yields (function ctx f given) (.start f.id) fun g _ =>
      g.inputs.map Prod.fst = f.params.map Param.id ∧
        Store.paramTypes f.params given = some (g.inputs.map fun p => g.graph.type p.2) := by
    rw [function_eq]
    refine (yields_parameters f given).bind fun _ b ⟨hb, _, types, htypes, hdeclares⟩ => ?_
    refine (yields_planResult f.result).bind fun _ b₁ hframe => ?_
    refine (yields_body f.body (hb.of_frames hframe)).bind fun _ b₂ hprecedes => ?_
    refine meets_get_bind (meets_ite (fun _ => yields_fail) fun _ => meets_pure ?_)
    have hall := (hb.precedes hframe).trans hprecedes
    have hinputs := hall.inputs
    refine ⟨hinputs ▸ hdeclares.names, htypes.trans (congrArg some ?_)⟩
    rw [← hdeclares.types]
    show _ = b₂.inputs.map fun p => b₂.graph.type p.2
    rw [hinputs]
    exact List.map_congr_left fun p hp => (hall.graph.type_eq (hdeclares.lt p hp)).symm
  obtain ⟨b, hrun⟩ := exists_run_of_build h
  exact hfunction.of_run hrun

end BuildM

end TensorKernel
