import Mathlib.Data.Fintype.Card
import Mathlib.Logic.Relation
import Mathlib.Order.WellFounded
import TensorKernel.Proofs.Graph.Enclosed
import TensorKernel.Proofs.Graph.Settled

/-!
# No node of a graph depends on itself

`Graph.Needs` says which nodes have to be known before a node is: what its operator reads, inside its
body or outside, and the nodes that its dimensions are computed by.  The order of the nodes in the
graph says nothing about it, since the operators of a spliced graph stand before the ones that
compute its parameters.

What carries the proof is how many operators in a row make a node available.  A body costs one step
more: its operator reads placeholders, which need nothing, and nodes that are available.

The rank of a node is a number that falls along needs: how many operators compute something that the
node needs in the end.  It is at most the number of operators of the graph.
-/

namespace TensorKernel

/-- The nodes that a body is about: the operands outside, their placeholders, and what it computes. -/
def Body.reads (body : Body) : List NodeId :=
  body.inputs.map Prod.fst ++ body.inputs.map Prod.snd ++ body.outputs.map Prod.fst

/-- The node that a dimension is computed by. -/
def Dim.node? : Dim → Option NodeId
  | .node id => some id
  | _ => none

/-- The nodes that a kind of operator mentions. -/
def OpKind.reads : OpKind → List NodeId
  | .elementwise body => body.reads
  | .reduction _ body init => body.reads ++ init
  | .slice indices sizes => indices.flatMap SliceIndex.nodes ++ sizes.filterMap Dim.node?
  | _ => []

/-- The nodes that an operator reads. -/
def Op.reads (op : Op) : List NodeId :=
  op.inputs ++ op.kind.reads

/-- The nodes that collect what the body of an operator computes. -/
def OpKind.results : OpKind → List NodeId
  | .elementwise body | .reduction _ body _ => body.outputs.map Prod.snd
  | _ => []

namespace Graph

/-- A node needs what its operator reads, and the nodes that its dimensions are computed by. -/
inductive Needs (g : Graph) (id : NodeId) : NodeId → Prop
  | read {o : OpId} {other : NodeId} (hproducer : (g.node id).producer = some o)
      (hread : other ∈ (g.op o).reads) : Needs g id other
  | dim {other : NodeId} (h : .node other ∈ g.shape id) : Needs g id other

/-- There is an end to what a node needs, what is needed for that, and so on. -/
def Ends (g : Graph) (id : NodeId) : Prop :=
  Acc (fun other id => g.Needs id other) id

variable {g : Graph} {e : Entry} {id : NodeId}

/-- Nothing is needed for a node that is not computed and has no computed dimensions. -/
theorem ends_of_idle (hproducer : (g.node id).producer = none)
    (hdims : ∀ other, .node other ∉ g.shape id) : g.Ends id := by
  refine ⟨_, fun other hneeds => ?_⟩
  cases hneeds with
  | read hsome _ =>
    rw [hproducer] at hsome
    cases hsome
  | dim hdim => exact absurd hdim (hdims other)

/-- A scalar has no dimensions. -/
theorem not_mem_shape_of_isScalar (h : g.isScalar id = true) (d : Dim) : d ∉ g.shape id := by
  rw [shape_of_isScalar h]
  exact List.not_mem_nil

/-- A placeholder needs nothing. -/
theorem Hole.ends (hs : g.Settled e) (h : g.Hole e id) : g.Ends id := by
  refine ends_of_idle h.producer fun other => not_mem_shape_of_isScalar ?_ _
  rcases hs.idle h.lt h.producer with hscalar | hgiven | hresult
  · exact hscalar
  · exact absurd hgiven h.notGiven
  · exact absurd hresult h.notResult

/-- What is there before anything is computed needs nothing. -/
theorem Source.ends (he : g.EntryValid e) (hs : g.Settled e) (h : g.Source e id) : g.Ends id := by
  rcases h with hgiven | ⟨v, hconstant⟩
  · refine ends_of_idle (he.producer hgiven) fun other hmem => ?_
    rcases he.dims hgiven _ hmem with ⟨n, hn⟩ | ⟨name, hname, -⟩
    · cases hn
    · cases hname
  · have hproducer : (g.node id).producer = none := by
      by_contra hsome
      rw [hs.computed hsome] at hconstant
      cases hconstant
    exact ends_of_idle hproducer fun other =>
      not_mem_shape_of_isScalar (isScalar_of_constant hconstant) _

/-- An operator on scalars needs its operands. -/
theorem ScalarOp.ends {ok : NodeId → Prop} {o : OpId} (hop : g.ScalarOp ok (g.op o) id)
    (hproducer : (g.node id).producer = some o) (hok : ∀ arg, ok arg → g.Ends arg) :
    g.Ends id := by
  refine ⟨_, fun other hneeds => ?_⟩
  cases hneeds with
  | dim hdim => exact absurd hdim (not_mem_shape_of_isScalar hop.isScalar _)
  | read hproducer' hread =>
    obtain rfl := Option.some.inj (hproducer.symm.trans hproducer')
    generalize g.op o = op at hop hread
    cases hop with
    | unary harg _ _ _ =>
      obtain rfl := List.mem_singleton.mp hread
      exact hok _ harg
    | binary hlhs hrhs _ _ _ _ =>
      rcases List.mem_cons.mp hread with rfl | hread
      · exact hok _ hlhs
      · obtain rfl := List.mem_singleton.mp hread
        exact hok _ hrhs

/-! ## What operators read -/

section Reads

variable {avail : NodeId → Prop} {op : Op} {dst : NodeId} (hop : g.OpValid e avail op dst)
include hop

/-- What is given to an operator of a well-formed kind are nodes that it may read. -/
theorem OpValid.inputs : ∀ other ∈ op.inputs, avail other := by
  intro other hinput
  cases hop with
  | scalar hop =>
    cases hop with
    | unary harg _ _ _ => exact List.mem_singleton.mp hinput ▸ harg
    | binary hlhs hrhs _ _ _ _ =>
      rcases List.mem_cons.mp hinput with rfl | hinput
      · exact hlhs
      · exact List.mem_singleton.mp hinput ▸ hrhs
  | elementwise hinputs _ _ _ _ => exact hinputs other hinput
  | reduction harg hinit _ _ _ _ _ _ _ =>
    rcases List.mem_cons.mp hinput with rfl | hinput
    · exact harg
    · exact List.mem_singleton.mp hinput ▸ hinit
  | getItem htarget _ hindices _ _ _ =>
    rcases List.mem_cons.mp hinput with rfl | hinput
    · exact htarget
    · exact (hindices other hinput).avail
  | setItem htarget _ hvalue _ hindices _ _ =>
    rcases List.mem_cons.mp hinput with rfl | hinput
    · exact htarget
    · rcases List.mem_cons.mp hinput with rfl | hinput
      · exact hvalue
      · exact (hindices other hinput).avail
  | slice htarget _ hselected _ _ _ _ _ _ =>
    rcases List.mem_cons.mp hinput with rfl | hinput
    · exact htarget
    · obtain ⟨i, hi, hother⟩ := List.mem_flatMap.mp hinput
      exact (hselected i hi other hother).avail
  | copy _ hsrc _ => exact List.mem_singleton.mp hinput ▸ hsrc

/-- Besides nodes that it may read, an operator mentions only what belongs to its own body. -/
theorem OpValid.reads : ∀ other ∈ op.reads,
    avail other ∨ other ∈ op.kind.placeholders ∨ other ∈ op.kind.inner := by
  intro other hread
  rcases List.mem_append.mp hread with hinput | hkind
  · exact Or.inl (hop.inputs other hinput)
  -- The operands outside of a body are inputs of the operator.
  have hbody {pairs : List (NodeId × NodeId)} {inner : NodeId} (houter : ∀ p ∈ pairs, avail p.1)
      (hmem : other ∈ Body.reads ⟨pairs, [(inner, dst)]⟩) :
      avail other ∨ other ∈ pairs.map Prod.snd ∨ other ∈ [inner] := by
    simp only [Body.reads, List.map_cons, List.map_nil, List.mem_append] at hmem
    rcases hmem with (houtside | hhole) | hinner
    · obtain ⟨p, hp, rfl⟩ := List.mem_map.mp houtside
      exact Or.inl (houter p hp)
    · exact Or.inr (Or.inl hhole)
    · exact Or.inr (Or.inr hinner)
  cases hop with
  | scalar hop => cases hop <;> exact absurd hkind List.not_mem_nil
  | elementwise hinputs houter _ _ body =>
    exact hbody (fun p hp => hinputs _ (houter p hp).1) hkind
  | reduction harg hinit _ _ _ _ _ _ body =>
    rcases List.mem_append.mp hkind with hkind | hkind
    · refine hbody (fun p hp => ?_) hkind
      rcases List.mem_cons.mp hp with rfl | hp
      · exact harg
      · exact List.mem_singleton.mp hp ▸ hinit
    · exact Or.inl (List.mem_singleton.mp hkind ▸ hinit)
  | getItem _ _ _ _ _ _ | setItem _ _ _ _ _ _ _ => exact absurd hkind List.not_mem_nil
  | slice _ _ hselected _ _ hsizes _ _ _ =>
    rcases List.mem_append.mp hkind with hkind | hkind
    · obtain ⟨i, hi, hother⟩ := List.mem_flatMap.mp hkind
      exact Or.inl (hselected i hi other hother).avail
    · obtain ⟨d, hd, hother⟩ := List.mem_filterMap.mp hkind
      cases d with
      | const n | sym name => cases hother
      | node id =>
        obtain rfl := Option.some.inj hother
        exact Or.inl (hsizes _ hd).avail
  | copy hcopy _ _ => rcases hcopy with rfl | rfl <;> exact absurd hkind List.not_mem_nil

/-- The placeholders of a body are scalars that nothing computes. -/
theorem OpValid.hole : ∀ x ∈ op.kind.placeholders, g.Hole e x ∧ g.isScalar x = true := by
  intro x hx
  have hbody {outer : List NodeId} {pairs : List (NodeId × NodeId)} {inner : NodeId}
      (body : g.BodyValid e avail outer pairs inner) (hmem : x ∈ pairs.map Prod.snd) :
      g.Hole e x ∧ g.isScalar x = true := by
    obtain ⟨p, hp, rfl⟩ := List.mem_map.mp hmem
    exact ⟨body.hole p hp, body.scalar p hp⟩
  cases hop with
  | scalar hop => cases hop <;> exact absurd hx List.not_mem_nil
  | elementwise _ _ _ _ body | reduction _ _ _ _ _ _ _ _ body => exact hbody body hx
  | getItem _ _ _ _ _ _ | setItem _ _ _ _ _ _ _ | slice _ _ _ _ _ _ _ _ _ =>
    exact absurd hx List.not_mem_nil
  | copy hcopy _ _ => rcases hcopy with rfl | rfl <;> exact absurd hx List.not_mem_nil

/--
The result of a body is computed from placeholders of the body, of which there is one at least, and from
inputs of its operator.
-/
theorem OpValid.inner : ∀ other ∈ op.kind.inner, ∃ o, (g.node other).producer = some o ∧
    g.ScalarOp (fun id => id ∈ op.kind.placeholders ∨ avail id ∧ id ∈ op.inputs) (g.op o) other ∧
    ∃ x ∈ (g.op o).inputs, x ∈ op.kind.placeholders := by
  intro other hinner
  cases hop with
  | scalar hop => cases hop <;> exact absurd hinner List.not_mem_nil
  | elementwise _ _ _ _ body =>
    obtain rfl := List.mem_singleton.mp hinner
    exact body.inner
  | reduction _ _ _ _ _ _ _ _ body =>
    obtain rfl := List.mem_singleton.mp hinner
    obtain ⟨o, hproducer, hop, hreads⟩ := body.inner
    exact ⟨o, hproducer,
      hop.mono fun id hid => hid.imp_right fun h => absurd h.2 List.not_mem_nil, hreads⟩
  | getItem _ _ _ _ _ _ | setItem _ _ _ _ _ _ _ | slice _ _ _ _ _ _ _ _ _ =>
    exact absurd hinner List.not_mem_nil
  | copy hcopy _ _ => rcases hcopy with rfl | rfl <;> exact absurd hinner List.not_mem_nil

end Reads

section Operators

variable {avail : NodeId → Prop} (hs : g.Settled e) (havail : ∀ id, avail id → g.Ends id)
include hs havail

/-- What an operator of a well-formed kind reads ends if the nodes it may read do. -/
theorem OpValid.ends {op : Op} {dst : NodeId} (hop : g.OpValid e avail op dst) :
    ∀ other ∈ op.reads, g.Ends other := by
  intro other hread
  rcases hop.reads other hread with hid | hhole | hinner
  · exact havail other hid
  · exact (hop.hole other hhole).1.ends hs
  · obtain ⟨o, hproducer, hscalar, -⟩ := hop.inner other hinner
    refine hscalar.ends hproducer ?_
    rintro arg (harg | ⟨harg, -⟩)
    · exact (hop.hole arg harg).1.ends hs
    · exact havail arg harg

/-- A node that is computed from nodes that end has an end itself. -/
theorem Computes.ends {o : OpId} (hproducer : (g.node id).producer = some o)
    (hop : g.Computes e avail (g.op o) id) : g.Ends id := by
  refine ⟨_, fun other hneeds => ?_⟩
  cases hneeds with
  | read hproducer' hread =>
    obtain rfl := Option.some.inj (hproducer.symm.trans hproducer')
    exact hop.valid.ends hs havail other hread
  | dim hdim => exact havail other (hop.dims _ hdim).avail

end Operators

/-- There is an end to what an available node needs. -/
theorem Available.ends (he : g.EntryValid e) (hs : g.Settled e) (h : g.Available e id) :
    g.Ends id :=
  h.induction (Source.ends he hs) fun hall _ _ _ hproducer hop =>
    hop.ends hs (fun other hother => (hall other hother).2) hproducer

/-- A valid graph in which nothing is set apart for a result has no infinite chain of needs. -/
theorem Valid.wellFounded_needs (hv : g.Valid e) (hs : g.Settled e) (hresult : ∀ id, ¬ e.result id) :
    WellFounded fun other id => g.Needs id other := by
  refine ⟨fun id => ?_⟩
  by_cases hlt : id.index < g.nodes.size
  · rcases hv.classified id hlt with h | h | h | ⟨o, hproducer, hop, -⟩
    · exact h.ends hv.entry hs
    · exact absurd h.1 (hresult id)
    · exact h.ends hs
    · refine hop.ends hproducer ?_
      rintro arg (harg | harg)
      · exact harg.ends hs
      · exact harg.ends hv.entry hs
  · have hdefault := node_of_size_le (Nat.le_of_not_lt hlt)
    refine ends_of_idle (by rw [hdefault]; rfl) fun other => not_mem_shape_of_isScalar ?_ _
    rw [isScalar, hdefault]
    rfl

/-- No node needs itself, however long the way is. -/
theorem Valid.acyclic (hv : g.Valid e) (hs : g.Settled e) (hresult : ∀ id, ¬ e.result id)
    (id : NodeId) : ¬ Relation.TransGen g.Needs id id := fun hcycle =>
  (hv.wellFounded_needs hs hresult).transGen.irrefl.irrefl id (Relation.transGen_swap.mpr hcycle)

/-! ## Rank -/

section Rank

variable (g)

/-- The operators that compute a node or something that it needs in the end. -/
noncomputable def below (id : NodeId) : Finset (Fin g.ops.size) :=
  open Classical in
  Finset.univ.filter fun o =>
    ∃ other, Relation.ReflTransGen g.Needs id other ∧ (g.node other).producer = some ⟨o⟩

/-- How many operators compute a node or something that it needs in the end. -/
noncomputable def rank (id : NodeId) : Nat :=
  (g.below id).card

variable {g}

theorem mem_below {id : NodeId} {o : Fin g.ops.size} :
    o ∈ g.below id ↔
      ∃ other, Relation.ReflTransGen g.Needs id other ∧ (g.node other).producer = some ⟨o⟩ := by
  simp [below]

theorem rank_le (id : NodeId) : g.rank id ≤ g.ops.size :=
  (Finset.card_le_univ _).trans_eq (Fintype.card_fin _)

variable (hv : g.Valid e) (hs : g.Settled e) (hresult : ∀ id, ¬ e.result id)
include hv hs hresult

/-- Only a node that is computed needs other nodes. -/
theorem Valid.producer_of_needs {other : NodeId} (h : g.Needs id other) :
    ∃ o, (g.node id).producer = some o := by
  refine Option.ne_none_iff_exists'.mp fun hnone => ?_
  cases h with
  | read hproducer _ =>
    rw [hnone] at hproducer
    cases hproducer
  | dim hdim =>
    by_cases hlt : id.index < g.nodes.size
    · rcases hs.idle hlt hnone with hscalar | hgiven | hpending
      · exact not_mem_shape_of_isScalar hscalar _ hdim
      · rcases hv.entry.dims hgiven _ hdim with ⟨n, hn⟩ | ⟨name, hname, -⟩
        · cases hn
        · cases hname
      · exact hresult id hpending
    · refine not_mem_shape_of_isScalar ?_ _ hdim
      rw [isScalar, node_of_size_le (Nat.le_of_not_lt hlt)]
      rfl

/-- What a node needs has a smaller rank: the operator of the node itself is gone. -/
theorem Valid.rank_lt {other : NodeId} (h : g.Needs id other) : g.rank other < g.rank id := by
  obtain ⟨o, hproducer⟩ := hv.producer_of_needs hs hresult h
  obtain ⟨hlt, houtputs⟩ := hv.coherent id o hproducer
  refine Finset.card_lt_card ⟨fun p hp => ?_, fun hsub => ?_⟩
  · obtain ⟨node, hreaches, hnode⟩ := mem_below.mp hp
    exact mem_below.mpr ⟨node, .head h hreaches, hnode⟩
  · have hself : (⟨o.index, hlt⟩ : Fin g.ops.size) ∈ g.below id :=
      mem_below.mpr ⟨id, .refl, hproducer⟩
    obtain ⟨node, hreaches, hnode⟩ := mem_below.mp (hsub hself)
    obtain rfl := List.singleton_inj.mp (houtputs.symm.trans (hv.coherent node o hnode).2)
    exact hv.acyclic hs hresult id (.head' h hreaches)

end Rank

/-! ## What an operator asks for -/

/--
An operator asks for what it reads, and for what the dimensions of the nodes it computes are computed
by.
-/
def Asks (g : Graph) (op : Op) (other : NodeId) : Prop :=
  other ∈ op.reads ∨ ∃ dst ∈ op.outputs ++ op.kind.results, .node other ∈ g.shape dst

/-- The body of an operator collects its values in the node that the operator computes. -/
theorem OpValid.results {avail : NodeId → Prop} {op : Op} {dst : NodeId}
    (h : g.OpValid e avail op dst) : ∀ node ∈ op.kind.results, node = dst := by
  intro node hnode
  cases h with
  | elementwise _ _ _ _ _ | reduction _ _ _ _ _ _ _ _ _ => exact List.mem_singleton.mp hnode
  | scalar hop => cases hop <;> exact absurd hnode List.not_mem_nil
  | getItem _ _ _ _ _ _ | setItem _ _ _ _ _ _ _ | slice _ _ _ _ _ _ _ _ =>
    exact absurd hnode List.not_mem_nil
  | copy hcopy _ _ => rcases hcopy with rfl | rfl <;> exact absurd hnode List.not_mem_nil

/-- An operator and its body are about one node. -/
theorem OpValid.eq_of_mem {avail : NodeId → Prop} {op : Op} {dst node : NodeId}
    (h : g.OpValid e avail op dst) (hnode : node ∈ op.outputs ++ op.kind.results) : node = dst := by
  rcases List.mem_append.mp hnode with hnode | hnode
  · cases h with
    | scalar hop => cases hop <;> exact List.mem_singleton.mp hnode
    | _ => exact List.mem_singleton.mp hnode
  · exact h.results node hnode

/-- The operator of an available node is of a well-formed kind. -/
theorem Valid.computes (hv : g.Valid e) (hs : g.Settled e) (hid : g.Available e id) {o : OpId}
    (hproducer : (g.node id).producer = some o) : g.Computes e (g.Available e) (g.op o) id := by
  rcases hid.cases hv.coherent with (hgiven | ⟨v, hv'⟩) | ⟨o', hproducer', hop⟩
  · rw [hv.entry.producer hgiven] at hproducer
    cases hproducer
  · rw [hs.computed (by rw [hproducer]; exact Option.some_ne_none o)] at hv'
    cases hv'
  · obtain rfl := Option.some.inj (hproducer.symm.trans hproducer')
    exact hop

/-- The operator of a node is of a well-formed kind, or an operator on scalars in a body. -/
theorem Valid.op_cases (hv : g.Valid e) (hs : g.Settled e) {o : OpId}
    (hproducer : (g.node id).producer = some o) :
    g.Available e id ∧ g.Computes e (g.Available e) (g.op o) id ∨
      ∃ ok, g.ScalarOp ok (g.op o) id := by
  rcases hv.classified id (lt_of_producer hproducer) with h | h | h | ⟨o', hproducer', hop, -⟩
  · exact Or.inl ⟨h, hv.computes hs h hproducer⟩
  · rw [h.2] at hproducer
    cases hproducer
  · rw [h.producer] at hproducer
    cases hproducer
  · obtain rfl := Option.some.inj (hproducer.symm.trans hproducer')
    exact Or.inr ⟨_, hop⟩

/-- A slice whose target and indices have values. -/
structure Slices (g : Graph) (e : Entry) (o : OpId) (target : NodeId) (selected : List SliceIndex)
    (sizes : Shape) (dst : NodeId) : Prop where
  op : g.op o = ⟨.slice selected sizes, target :: selected.flatMap SliceIndex.nodes, [dst]⟩
  result : g.Available e dst
  source : g.Available e target
  tensor : g.isScalar target = false
  indices : ∀ i ∈ selected, ∀ id ∈ i.nodes, g.IsIndex (g.Available e) id
  length_le : selected.length ≤ (g.shape target).length
  rank : sizes.length = (g.shape target).length
  dims : ∀ d ∈ sizes, g.DimValid e (g.Available e) d
  trims : sizes.Trims (g.shape dst)
  shape : ∀ d ∈ g.shape dst, g.DimValid e (g.Available e) d

/-- A node that a slice computes. -/
theorem Valid.slices (hv : g.Valid e) (hs : g.Settled e) {o : OpId}
    (hproducer : (g.node id).producer = some o) {selected : List SliceIndex} {sizes : Shape}
    (hkind : (g.op o).kind = .slice selected sizes) :
    ∃ target, g.Slices e o target selected sizes id := by
  rcases hv.op_cases hs hproducer with ⟨hid, hdims, hvalid⟩ | ⟨ok, hscalar⟩
  · generalize hop : g.op o = op at *
    cases hvalid with
    | @slice target dst selected' sizes' htarget starget hselected hle rank hsizes trims =>
      obtain ⟨rfl, rfl⟩ := OpKind.slice.inj hkind
      exact ⟨target, hop, hid, htarget, starget, hselected, hle, rank, hsizes, trims, hdims⟩
    | scalar hscalar => cases hscalar <;> cases hkind
    | copy hcopy _ _ => rcases hcopy with rfl | rfl <;> cases hkind
    | elementwise => cases hkind
    | reduction => cases hkind
    | getItem => cases hkind
    | setItem => cases hkind
  · generalize g.op o = op at *
    cases hscalar <;> cases hkind

/-- What the operator of a node asks for is what the node needs. -/
theorem Valid.needs_of_asks (hv : g.Valid e) (hs : g.Settled e) {o : OpId}
    (hproducer : (g.node id).producer = some o) {other : NodeId} (h : g.Asks (g.op o) other) :
    g.Needs id other := by
  rcases h with hread | ⟨dst, hdst, hdim⟩
  · exact .read hproducer hread
  · suffices hsame : dst = id from .dim (hsame ▸ hdim)
    rcases hv.op_cases hs hproducer with ⟨-, hop⟩ | ⟨_, hop⟩
    · exact hop.valid.eq_of_mem hdst
    · exact (OpValid.scalar (e := e) hop).eq_of_mem hdst

end Graph

end TensorKernel
