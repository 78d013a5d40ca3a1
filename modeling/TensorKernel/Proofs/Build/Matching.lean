import TensorKernel.Proofs.Build.Appending
import TensorKernel.Proofs.Graph.Unnamed

/-!
# Steps that match

Two steps match if, from builders and caches that are alike, both fail or both succeed, with related
results and builders and caches that are alike again.  Builders are alike if they only differ in the
names of nodes, in the variables, which one of them knows under other names, and in the names of the
nodes of cached graphs.  Errors are not compared, since their messages show names.

There is one rule for each way of combining steps.  Steps that mention no variable match themselves.
-/

namespace TensorKernel

/-- Both are errors, or both are results and these are related. -/
def Coincide {ε ε' α β : Type} (R : α → β → Prop) : Except ε α → Except ε' β → Prop
  | .ok a, .ok b => R a b
  | .error _, .error _ => True
  | .ok _, .error _ | .error _, .ok _ => False

theorem Coincide.map {ε ε' α β γ δ : Type} {R : α → β → Prop} {S : γ → δ → Prop} {x : Except ε α}
    {y : Except ε' β} (h : Coincide R x y) {f : α → γ} {g : β → δ}
    (hfg : ∀ a b, R a b → S (f a) (g b)) : Coincide S (x.map f) (y.map g) := by
  cases x with
  | ok a =>
    cases y with
    | ok b => exact hfg a b h
    | error err => exact h.elim
  | error err =>
    cases y with
    | ok b => exact h.elim
    | error err' => trivial

/-- Caches with the same keys, whose graphs differ in the names of nodes only. -/
def GraphCache.Alike (cache cache' : GraphCache) : Prop :=
  ∀ key, (cache.get? key).map FunctionGraph.unnamed = (cache'.get? key).map FunctionGraph.unnamed

namespace FunctionBuilder

/--
Builders that differ in the names of nodes, and in the names of variables, which the second builder
knows under their new names.  Parameters and shape symbols keep their names.
-/
structure Alike (ρ : String → String) (b b' : FunctionBuilder) : Prop where
  eq : b' = { b with graph := b'.graph, scalars := b'.scalars, tensors := b'.tensors }
  graph : b.graph.Alike b'.graph
  scalars : ∀ id, b'.scalars.get? (ρ id) = b.scalars.get? id
  tensors : ∀ id, b'.tensors.get? (ρ id) = b.tensors.get? id
  params : ∀ id, b.params.get? (ρ id) = b.params.get? id
  symbols : ∀ id, b.symbols.get? (ρ id) = b.symbols.get? id

variable {ρ : String → String} {b b' : FunctionBuilder}

namespace Alike

/-- The second builder is the first one with another graph and other variables. -/
theorem exists_eq (h : b.Alike ρ b') :
    ∃ graph scalars tensors, b' = { b with graph, scalars, tensors } :=
  ⟨_, _, _, h.eq⟩

theorem withGraph (h : b.Alike ρ b') {g g' : Graph} (hg : g.Alike g') :
    { b with graph := g }.Alike ρ { b' with graph := g' } := by
  obtain ⟨graph, scalars, tensors, rfl⟩ := h.exists_eq
  exact ⟨rfl, hg, h.scalars, h.tensors, h.params, h.symbols⟩

theorem type (h : b.Alike ρ b') (id : NodeId) : b'.graph.type id = b.graph.type id :=
  h.graph.type id

theorem constantInt? (h : b.Alike ρ b') (id : NodeId) : b'.constantInt? id = b.constantInt? id := by
  rw [FunctionBuilder.constantInt?, FunctionBuilder.constantInt?, h.graph.constant?]

theorem symbols_eq (h : b.Alike ρ b') : b'.symbols = b.symbols := by
  rw [h.eq]

theorem params_eq (h : b.Alike ρ b') : b'.params = b.params := by
  rw [h.eq]

theorem local? (h : b.Alike ρ b') (id : String) : b'.local? (ρ id) = b.local? id := by
  rw [FunctionBuilder.local?, FunctionBuilder.local?, h.scalars, h.tensors]

/-- A name and its new name stand for the same node. -/
theorem resolve? (h : b.Alike ρ b') (id : String) : b'.resolve? (ρ id) = b.resolve? id := by
  rw [FunctionBuilder.resolve?, FunctionBuilder.resolve?, h.local?, h.symbols_eq, h.params_eq, h.symbols,
    h.params]

end Alike

end FunctionBuilder

namespace BuildM

variable {α β γ δ : Type} {ρ : String → String}

/-- Steps that match from two builders. -/
def MatchesAt (ρ : String → String) (R : α → β → Prop) (m : BuildM α) (b : FunctionBuilder)
    (m' : BuildM β) (b' : FunctionBuilder) : Prop :=
  ∀ cache cache' : GraphCache, cache.Alike cache' →
    (run m b cache).2.Alike (run m' b' cache').2 ∧
      Coincide (fun p p' => R p.1 p'.1 ∧ p.2.Alike ρ p'.2) (run m b cache).1 (run m' b' cache').1

/-- Steps that match from all builders that are alike. -/
def Matches (ρ : String → String) (R : α → β → Prop) (m : BuildM α) (m' : BuildM β) : Prop :=
  ∀ b b' : FunctionBuilder, b.Alike ρ b' → MatchesAt ρ R m b m' b'

/-- Steps that match and have the same results. -/
abbrev Same (ρ : String → String) (m m' : BuildM α) : Prop :=
  Matches ρ Eq m m'

/-! ## Rules -/

section Rules

variable {R : α → β → Prop} {S : γ → δ → Prop} {m : BuildM α} {m' : BuildM β} {b b' : FunctionBuilder}

theorem MatchesAt.bind {f : α → BuildM γ} {f' : β → BuildM δ} (hm : MatchesAt ρ R m b m' b')
    (hf : ∀ a a', R a a' → Matches ρ S (f a) (f' a')) :
    MatchesAt ρ S (m >>= f) b (m' >>= f') b' := by
  intro cache cache' hcache
  obtain ⟨hafter, hresult⟩ := hm cache cache' hcache
  rw [run_bind, run_bind]
  revert hafter hresult
  rcases run m b cache with ⟨result, after⟩
  rcases run m' b' cache' with ⟨result', after'⟩
  intro hafter hresult
  cases result with
  | error err =>
    cases result' with
    | error err' => exact ⟨hafter, trivial⟩
    | ok p' => exact hresult.elim
  | ok p =>
    cases result' with
    | error err' => exact hresult.elim
    | ok p' => exact hf _ _ hresult.1 _ _ hresult.2 _ _ hafter

theorem Matches.bind {f : α → BuildM γ} {f' : β → BuildM δ} (hm : Matches ρ R m m')
    (hf : ∀ a a', R a a' → Matches ρ S (f a) (f' a')) : Matches ρ S (m >>= f) (m' >>= f') :=
  fun b b' h => (hm b b' h).bind hf

theorem Same.bind {m m' : BuildM α} {f : α → BuildM γ} {f' : α → BuildM δ} (hm : Same ρ m m')
    (hf : ∀ a, Matches ρ S (f a) (f' a)) : Matches ρ S (m >>= f) (m' >>= f') :=
  Matches.bind hm fun a _ heq => heq ▸ hf a

theorem matches_pure {a : α} {a' : β} (h : R a a') :
    Matches ρ R (pure a : BuildM α) (pure a' : BuildM β) :=
  fun _ _ halike _ _ hcache => ⟨hcache, h, halike⟩

theorem same_pure (a : α) : Same ρ (pure a : BuildM α) (pure a) :=
  matches_pure rfl

theorem matches_throw (err err' : BuildError) :
    Matches ρ R (throw err : BuildM α) (throw err' : BuildM β) :=
  fun _ _ _ _ _ hcache => ⟨hcache, trivial⟩

theorem matches_fail (span span' : Span) (fault fault' : BuildFault) :
    Matches ρ R (fail span fault : BuildM α) (fail span' fault' : BuildM β) :=
  matches_throw _ _

theorem matchesAt_get_bind {f : FunctionBuilder → BuildM α} {f' : FunctionBuilder → BuildM β}
    (h : MatchesAt ρ R (f b) b (f' b') b') : MatchesAt ρ R (get >>= f) b (get >>= f') b' :=
  h

theorem matches_get_bind {f : FunctionBuilder → BuildM α} {f' : FunctionBuilder → BuildM β}
    (h : ∀ b b' : FunctionBuilder, b.Alike ρ b' → Matches ρ R (f b) (f' b')) :
    Matches ρ R (get >>= f) (get >>= f') :=
  fun b b' halike => matchesAt_get_bind (h b b' halike b b' halike)

theorem matchesAt_set {c c' : FunctionBuilder} (h : c.Alike ρ c') :
    MatchesAt ρ Eq (set c : BuildM PUnit) b (set c') b' :=
  fun _ _ hcache => ⟨hcache, rfl, h⟩

theorem same_modify {f f' : FunctionBuilder → FunctionBuilder}
    (h : ∀ b b' : FunctionBuilder, b.Alike ρ b' → (f b).Alike ρ (f' b')) :
    Same ρ (modify f : BuildM PUnit) (modify f') :=
  fun b b' halike _ _ hcache => ⟨hcache, rfl, h b b' halike⟩

theorem same_onGraph {f f' : Graph → α × Graph}
    (h : ∀ g g' : Graph, g.Alike g' → (f g).1 = (f' g').1 ∧ (f g).2.Alike (f' g').2) :
    Same ρ (onGraph f) (onGraph f') :=
  fun b b' halike _ _ hcache =>
    have hgraph := h b.graph b'.graph halike.graph
    ⟨hcache, hgraph.1, halike.withGraph hgraph.2⟩

theorem same_blind {f : Graph → α × Graph} (h : Graph.Blind f) : Same ρ (onGraph f) (onGraph f) :=
  same_onGraph fun _ _ hg => hg.blind h

theorem matches_ite {c c' : Prop} [Decidable c] [Decidable c'] {n : BuildM α} {n' : BuildM β}
    (hcond : c ↔ c') (hthen : Matches ρ R m m') (helse : Matches ρ R n n') :
    Matches ρ R (if c then m else n) (if c' then m' else n') := by
  by_cases h : c
  · rwa [if_pos h, if_pos (hcond.mp h)]
  · rwa [if_neg h, if_neg fun h' => h (hcond.mpr h')]

theorem matches_ofExcept {span span' : Span} {r : Except BuildFault α} {r' : Except BuildFault β}
    (h : Coincide R r r') : Matches ρ R (ofExcept span r) (ofExcept span' r') := by
  cases r with
  | ok a =>
    cases r' with
    | ok a' => exact matches_pure h
    | error fault' => exact h.elim
  | error fault =>
    cases r' with
    | ok a' => exact h.elim
    | error fault' => exact matches_fail _ _ _ _

theorem same_ofExcept (span : Span) (r : Except BuildFault α) :
    Same ρ (ofExcept span r) (ofExcept span r) := by
  cases r with
  | ok a => exact same_pure a
  | error fault => exact matches_fail _ _ _ _

theorem same_ofLocated (r : Except BuildError α) : Same ρ (ofLocated r) (ofLocated r) := by
  cases r with
  | ok a => exact same_pure a
  | error err => exact matches_throw _ _

/-- Steps that only use caches. -/
theorem matches_lift {m : CacheM α} {m' : CacheM β}
    (h : ∀ cache cache' : GraphCache, cache.Alike cache' →
      (runCall m cache).2.Alike (runCall m' cache').2 ∧
        Coincide R (runCall m cache).1 (runCall m' cache').1) :
    Matches ρ R (monadLift m : BuildM α) (monadLift m' : BuildM β) := by
  intro b b' halike cache cache' hcache
  obtain ⟨hafter, hresult⟩ := h cache cache' hcache
  rw [run_lift, run_lift]
  exact ⟨hafter, hresult.map fun _ _ h => ⟨h, halike⟩⟩

end Rules

/-! ## Operands -/

theorem same_addConstant (v : Literal) (sz : ElemSize) :
    Same ρ (onGraph fun g => g.addConstant v sz) (onGraph fun g => g.addConstant v sz) :=
  same_blind (Graph.blind_addNode _)

theorem same_addOp (kind : OpKind) (inputs outputs : List NodeId) :
    Same ρ (onGraph fun g => g.addOp kind inputs outputs) (onGraph fun g => g.addOp kind inputs outputs) :=
  same_blind (Graph.blind_addOp _ _ _)

theorem same_intConstant (v : Int) (span : Span) : Same ρ (intConstant v span) (intConstant v span) := by
  unfold intConstant
  split
  · exact same_addConstant _ _
  · exact matches_fail _ _ _ _

theorem same_floatConstant (v : Float) (span : Span) :
    Same ρ (floatConstant v span) (floatConstant v span) := by
  unfold floatConstant
  split
  · exact same_addConstant _ _
  · exact matches_fail _ _ _ _

theorem same_applyUnary (op : UnOp) (arg : NodeId) (span : Span) :
    Same ρ (applyUnary op arg span) (applyUnary op arg span) := by
  refine matches_get_bind fun b b' h => ?_
  rw [h.graph.elemSize]
  exact matches_ite Iff.rfl (matches_fail _ _ _ _) <| matches_ite Iff.rfl (matches_fail _ _ _ _) <|
    same_blind (Graph.blind_applyUnary _ _ _)

theorem same_resultShape (op : BinOp) (l r : KernelType) (span : Span) :
    Same ρ (resultShape op l r span) (resultShape op l r span) := by
  refine matches_ite Iff.rfl (same_pure _) ?_
  split
  · exact same_pure _
  · exact matches_fail _ _ _ _

theorem same_applyBinary (op : BinOp) (lhs rhs : NodeId) (span : Span) :
    Same ρ (applyBinary op lhs rhs span) (applyBinary op lhs rhs span) := by
  refine matches_get_bind fun b b' h => ?_
  simp only [h.type]
  exact matches_ite Iff.rfl (matches_fail _ _ _ _) <| (same_resultShape _ _ _ _).bind fun shape =>
    same_blind (Graph.blind_applyBinary _ _ _ _ _)

theorem same_applyChain (span : Span) (rest : List (BinOp × NodeId)) :
    ∀ lhs, Same ρ (applyChain lhs span rest) (applyChain lhs span rest) := by
  induction rest with
  | nil => exact same_pure
  | cons entry rest ih =>
    refine fun lhs => matches_get_bind fun b b' h => ?_
    simp only [h.graph.isScalar]
    exact matches_ite Iff.rfl ((same_applyBinary _ _ _ _).bind fun result => ih result)
      (matches_fail _ _ _ _)

theorem same_dimNode (d : Dim) (span : Span) : Same ρ (dimNode d span) (dimNode d span) := by
  cases d with
  | const n => exact same_intConstant n span
  | sym name =>
    refine matches_get_bind fun b b' h => ?_
    rw [h.symbols_eq]
    cases b.symbols.get? name with
    | some symbol => exact same_pure _
    | none => exact matches_throw _ _
  | node id => exact same_pure id

theorem same_requireIndex (id : NodeId) (span : Span) :
    Same ρ (requireIndex id span) (requireIndex id span) := by
  refine matches_get_bind fun b b' h => ?_
  simp only [h.type]
  exact matches_ite Iff.rfl (same_pure _) (matches_fail _ _ _ _)

theorem same_elementIndex {value value' : BuildM NodeId} (h : Same ρ value value') (span : Span) :
    Same ρ (elementIndex value span) (elementIndex value' span) :=
  h.bind fun _ => (same_requireIndex _ _).bind fun _ => same_pure _

/-- Bounds of a range that are both built, alike, or both left out. -/
abbrev SameOption (ρ : String → String) : Option (BuildM NodeId) → Option (BuildM NodeId) → Prop :=
  Option.Rel (Same ρ)

theorem SameOption.getD {m m' : Option (BuildM NodeId)} (h : SameOption ρ m m')
    {value : BuildM NodeId} (hvalue : Same ρ value value) : Same ρ (m.getD value) (m'.getD value) := by
  cases h with
  | some h => exact h
  | none => exact hvalue

theorem SameOption.isNone {m m' : Option (BuildM NodeId)} (h : SameOption ρ m m') :
    m'.isNone = m.isNone := by
  cases h <;> rfl

theorem same_rangeIndex {lower lower' upper upper' step step' : Option (BuildM NodeId)}
    (hlower : SameOption ρ lower lower') (hupper : SameOption ρ upper upper')
    (hstep : SameOption ρ step step') (axis : Dim) (span : Span) :
    Same ρ (rangeIndex lower upper step axis span) (rangeIndex lower' upper' step' axis span) := by
  refine (hlower.getD (same_addConstant _ _)).bind fun lower => ?_
  refine (hupper.getD (same_dimNode _ _)).bind fun upper => ?_
  refine (hstep.getD (same_addConstant _ _)).bind fun step => ?_
  refine (same_requireIndex _ _).bind fun _ => (same_requireIndex _ _).bind fun _ =>
    (same_requireIndex _ _).bind fun _ => matches_get_bind fun b b' h => ?_
  rw [h.constantInt?, hupper.isNone]
  exact matches_ite Iff.rfl (matches_fail _ _ _ _) (same_pure _)

theorem same_sliceSize (choice : AxisIndex) (axis : Dim) (span : Span) :
    Same ρ (sliceSize choice axis span) (sliceSize choice axis span) := by
  obtain ⟨index, toEnd⟩ := choice
  cases index with
  | element id => exact same_pure _
  | range lower upper step =>
    refine matches_get_bind fun b b' h => ?_
    simp only [h.constantInt?]
    split
    · exact matches_ite Iff.rfl (same_pure _) (matches_fail _ _ _ _)
    · exact matches_ite Iff.rfl (same_pure _) <| (same_intConstant _ _).bind fun _ =>
        (same_applyBinary _ _ _ _).bind fun _ => (same_applyBinary _ _ _ _).bind fun _ =>
          (same_applyBinary _ _ _ _).bind fun _ => (same_applyBinary _ _ _ _).bind fun _ =>
            same_pure _

theorem same_sliceSizes (span : Span) (choices : List AxisIndex) :
    ∀ axes, Same ρ (sliceSizes span choices axes) (sliceSizes span choices axes) := by
  induction choices with
  | nil => exact fun _ => same_pure _
  | cons choice choices ih =>
    intro axes
    cases axes with
    | nil => exact same_pure _
    | cons axis axes =>
      exact (same_sliceSize _ _ _).bind fun _ => (ih axes).bind fun _ => same_pure _

theorem same_indexedAxes (target : NodeId) (count : Nat) (span : Span) :
    Same ρ (indexedAxes target count span) (indexedAxes target count span) := by
  refine matches_get_bind fun b b' h => ?_
  simp only [h.graph.shape]
  exact matches_ite Iff.rfl (matches_fail _ _ _ _) <| matches_ite Iff.rfl (matches_fail _ _ _ _) <|
    same_pure _

theorem same_readTensor (target : NodeId) (choices : List AxisIndex) (span : Span) :
    Same ρ (readTensor target choices span) (readTensor target choices span) := by
  refine matches_get_bind fun b b' h => ?_
  simp only [h.graph.shape, h.graph.elemSize]
  exact matches_ite Iff.rfl (same_blind (Graph.blind_compute _ _ _)) <|
    (same_sliceSizes _ _ _).bind fun _ => same_blind (Graph.blind_compute _ _ _)

theorem same_booleanChain (op : BinOp) (span : Span) (ids : List NodeId) :
    Same ρ (booleanChain op span ids) (booleanChain op span ids) := by
  cases ids with
  | nil => exact matches_throw _ _
  | cons first rest => exact same_applyChain _ _ _

end BuildM

end TensorKernel
