import TensorKernel.Proofs.Buffer.Number
import TensorKernel.Proofs.Buffer.Views
import TensorKernel.Proofs.Eval.Typing
import TensorKernel.Proofs.Execution.Logic
import TensorKernel.Proofs.Graph.Bounded
import TensorKernel.Proofs.Lower.Operator

/-!
# The sizes that lowering works with

`LowerM.Performs` says that a lowering step succeeds and that its statements can be executed, so
that something holds of the state and the store after them.  By it this module says which numbers
the names hold that lowering uses for dimensions: those that `Meaning.dimNumber` reads off the graph.
A computed dimension is read as it is, and evaluation counts a negative one as zero.

`LowerM.Supplies` says of a scalar that asking for it succeeds and gives its number.  Scalars that have
a name are supplied, and so are constants; `LowerState.Named` says of a dimension that it has a name.
-/

namespace TensorKernel

open Buffer (Datum Operand)

/-! ## Steps that succeed and can be executed -/

namespace LowerM

open LowerState (Executed Grows)

/--
A step that succeeds, whose statements are all of a kind and can be executed, and after which something
holds.
-/
def Performs {α : Type} (kind : Buffer.Stmt → Prop) (ctx : EvalContext) (val : Valuation)
    (m : LowerM α) (s : LowerState) (M : Buffer.Store)
    (R : LowerState → Buffer.Store → α → Prop) : Prop :=
  s.Agrees ctx val M → ∃ a s' stmts M', m s = .ok (a, s') ∧ Grows ctx.graph s s' ∧
    Executed ctx val stmts s s' M M' ∧ (∀ stmt ∈ stmts, kind stmt) ∧ R s' M' a

variable {kind kind' : Buffer.Stmt → Prop} {ctx : EvalContext} {val : Valuation} {α β : Type}
  {m : LowerM α} {s : LowerState} {M : Buffer.Store} {R R' : LowerState → Buffer.Store → α → Prop}
  {T : LowerState → Buffer.Store → β → Prop}

section Rules

theorem Performs.mono (hm : Performs kind ctx val m s M R)
    (h : ∀ s' M' a, Grows ctx.graph s s' → M.Extends M' → R s' M' a → R' s' M' a) :
    Performs kind ctx val m s M R' := by
  intro hs
  obtain ⟨a, s', stmts, M', hrun, hgrows, hstmts, hkind, hR⟩ := hm hs
  exact ⟨a, s', stmts, M', hrun, hgrows, hstmts, hkind,
    h s' M' a hgrows (hs.extends_of_keeps hstmts.keeps) hR⟩

theorem Performs.weaken (hm : Performs kind ctx val m s M R) (h : ∀ stmt, kind stmt → kind' stmt) :
    Performs kind' ctx val m s M R := by
  intro hs
  obtain ⟨a, s', stmts, M', hrun, hgrows, hstmts, hkind, hR⟩ := hm hs
  exact ⟨a, s', stmts, M', hrun, hgrows, hstmts, fun stmt hmem => h stmt (hkind stmt hmem), hR⟩

theorem Performs.bind {f : α → LowerM β} (hm : Performs kind ctx val m s M R)
    (hf : ∀ a s₁ M₁, Grows ctx.graph s s₁ → M.Extends M₁ → R s₁ M₁ a →
      Performs kind ctx val (f a) s₁ M₁ T) : Performs kind ctx val (m >>= f) s M T := by
  intro hs
  obtain ⟨a, s₁, stmts, M₁, hrun, hgrows, hstmts, hkind, hR⟩ := hm hs
  obtain ⟨b, s₂, stmts', M₂, hrun', hgrows', hstmts', hkind', hT⟩ :=
    hf a s₁ M₁ hgrows (hs.extends_of_keeps hstmts.keeps) hR hstmts.agrees
  refine ⟨b, s₂, stmts ++ stmts', M₂, ?_, hgrows.trans hgrows', hstmts.trans hstmts',
    List.forall_mem_append.mpr ⟨hkind, hkind'⟩, hT⟩
  calc (m >>= f) s = (m s >>= fun p => f p.1 p.2) := rfl
    _ = f a s₁ := by rw [hrun]; rfl
    _ = .ok (b, s₂) := hrun'

theorem performs_pure {a : α} (h : R s M a) : Performs kind ctx val (pure a) s M R :=
  fun hs => ⟨a, s, [], M, rfl, .refl s, .silent rfl (Nat.le_refl _) hs, nofun, h⟩

/-- A step that reads the state goes on from what it read, which agrees with the store. -/
theorem performs_get_bind {f : LowerState → LowerM β}
    (h : s.Agrees ctx val M → Performs kind ctx val (f s) s M T) :
    Performs kind ctx val (get >>= f) s M T :=
  fun hs => h hs hs

/-- A change of what is known of nodes and index constants. -/
theorem performs_modify {f : LowerState → LowerState} (hgrows : Grows ctx.graph s (f s))
    (hblocks : (f s).blocks = s.blocks) (hcounter : (f s).counter = s.counter)
    (hagrees : s.Agrees ctx val M → (f s).Agrees ctx val M) :
    Performs kind ctx val (modify f) s M fun s' M' _ => s' = f s ∧ M' = M :=
  fun hs => ⟨(), f s, [], M, rfl, hgrows,
    .silent hblocks (Nat.le_of_eq hcounter.symm) (hagrees hs), nofun, rfl, rfl⟩

theorem grows_emit (g : Graph) (s : LowerState) (stmt : Buffer.Stmt) :
    Grows g s (({ s with counter := s.counter + 1 } : LowerState).push stmt) :=
  .of_scopes_eq (LowerState.push_scopes _ _) fun h => by
    rwa [LowerState.Known, LowerState.push_symbols]

/-- A new name is written and used further on. -/
theorem performs_define {base : String} {stmt : Name → Buffer.Stmt} {d : Datum} {f : Name → LowerM β}
    (hkind : ∀ n, kind (stmt n)) (hexec : ∀ n, (stmt n).exec M = some (M.set n d))
    (hf : ∀ n s₁ M₁, Grows ctx.graph s s₁ → M.Extends M₁ → M₁ n.key = some d →
      Performs kind ctx val (f n) s₁ M₁ T) :
    Performs kind ctx val (do
      let n ← fresh base
      emit (stmt n)
      f n) s M T := by
  intro hs
  have hgrows := grows_emit ctx.graph s (stmt (.numbered base s.counter))
  have hfirst := Executed.define hs base (hexec (.numbered base s.counter))
  obtain ⟨b, s', stmts, M', hrun, hgrows', hstmts, hkinds, hT⟩ := hf _ _ _ hgrows
    (hs.extends_of_keeps hfirst.keeps) (Buffer.Store.set_self M _ d) hfirst.agrees
  exact ⟨b, s', _, M', hrun, hgrows.trans hgrows', hfirst.trans hstmts,
    List.forall_mem_cons.mpr ⟨hkind _, hkinds⟩, hT⟩

/-- A new name is written and given back. -/
theorem performs_definition {base : String} {stmt : Name → Buffer.Stmt} {d : Datum}
    (hkind : ∀ n, kind (stmt n)) (hexec : ∀ n, (stmt n).exec M = some (M.set n d)) :
    Performs kind ctx val (do
      let n ← fresh base
      emit (stmt n)
      pure n) s M fun _ M' n => M' n.key = some d :=
  performs_define hkind hexec fun _ _ _ _ _ hn => performs_pure hn

end Rules

end LowerM

/-! ## Dimensions -/

/-- The number that a dimension stands for; a computed one may be negative. -/
def Meaning.dimNumber (ctx : EvalContext) (val : Valuation) : Dim → Except EvalFault Int
  | .const n => .ok (Int64.ofInt n).toInt
  | .sym name =>
    match ctx.sizes.get? name with
    | some n => .ok n
    | none => .error (.unboundSymbol name)
  | .node id => do
    let v ← scalar val id
    .ok v.asInt.toInt

/-- A constant dimension is kept by a word with a sign. -/
theorem Dim.toInt_of_bounded {k : Int} (hk : (Dim.const k).Bounded) : (Int64.ofInt k).toInt = k := by
  obtain ⟨hnonneg, hmax⟩ := hk
  unfold Dim.maxConst at hmax
  rw [Int64.toInt_ofInt, show Int64.size = 2 ^ 64 from rfl]
  exact Int.bmod_eq_of_le (by omega) (by omega)

/-- The size of an axis is the number of its dimension, or zero if this number is negative. -/
theorem Meaning.dim_of_dimNumber {ctx : EvalContext} {val : Valuation} {d : Dim} {n : Int}
    (hd : d.Bounded) (h : dimNumber ctx val d = .ok n) : dim ctx val d = .ok n.toNat := by
  cases d with
  | const k =>
    obtain rfl := Except.ok.inj h
    rw [Dim.toInt_of_bounded hd]
    obtain ⟨hnonneg, hmax⟩ := hd
    unfold Dim.maxConst at hmax
    rw [dim, Dim.constSize, Word.ofInt, Int.emod_eq_of_lt hnonneg (by omega)]
  | sym name =>
    rw [dimNumber] at h
    rw [dim]
    cases hget : ctx.sizes.get? name with
    | none =>
      rw [hget] at h
      cases h
    | some m =>
      rw [hget] at h
      obtain rfl := Except.ok.inj h
      rfl
  | node id =>
    obtain ⟨v, hv, h⟩ := exists_of_bind_ok (show (scalar val id >>= _) = _ from h)
    obtain rfl := Except.ok.inj h
    rw [dim, hv]
    rfl

/-- The size that the type of a buffer states for a dimension. -/
def Dim.static? : Dim → Option Int
  | .const n => some n
  | _ => none

theorem bufferType_eq (sz : ElemSize) (shape : Shape) :
    bufferType sz shape = .memref sz (shape.map Dim.static?) := rfl

/-- A dimension that is read as it is: constants are sizes, and computed ones are not negative. -/
def Meaning.Sized (val : Valuation) : Dim → Prop
  | .const n => 0 ≤ n ∧ n ≤ Dim.maxConst
  | .sym _ => True
  | .node id => ∀ v, scalar val id = .ok v → 0 ≤ v.asInt.toInt

namespace Meaning.Sized

variable {ctx : EvalContext} {val : Valuation} {d : Dim} {n : Int}

theorem bounded (h : Sized val d) : d.Bounded := by
  cases d with
  | const n => exact h
  | sym _ | node _ => trivial

/-- The number of such a dimension is the size of an axis. -/
theorem nonneg (h : Sized val d) (hn : dimNumber ctx val d = .ok n) : 0 ≤ n := by
  cases d with
  | const k =>
    obtain rfl := Except.ok.inj hn
    rw [Dim.toInt_of_bounded h]
    exact h.1
  | sym name =>
    rw [dimNumber] at hn
    cases hget : ctx.sizes.get? name with
    | none =>
      rw [hget] at hn
      cases hn
    | some m =>
      rw [hget] at hn
      obtain rfl := Except.ok.inj hn
      exact Int.natCast_nonneg m
  | node id =>
    obtain ⟨v, hv, hn⟩ := exists_of_bind_ok (show (scalar val id >>= _) = _ from hn)
    obtain rfl := Except.ok.inj hn
    exact h v hv

end Meaning.Sized

/-- What a dimension is read from has a name. -/
def LowerState.Named (s : LowerState) : Dim → Prop
  | .const _ => True
  | .sym name => s.Known name
  | .node id => s.Bound id

theorem LowerState.Named.grow {g : Graph} {s s' : LowerState} (hs : Grows g s s') {d : Dim}
    (h : s.Named d) : s'.Named d := by
  cases d with
  | const n => trivial
  | sym name => exact hs.known h
  | node id => exact hs.bound h

/-- A scalar of a signed integer type holds an integer of that type. -/
def Meaning.Counts (ctx : EvalContext) (val : Valuation) (id : NodeId) : Prop :=
  ctx.graph.isScalar id = true ∧ (ctx.graph.elemSize id).isSignedInteger = true ∧
    ∀ v, val id = .ok v → Types ctx val id v

/-- What the value of such a scalar is. -/
theorem Meaning.Counts.value {ctx : EvalContext} {val : Valuation} {id : NodeId}
    (h : Counts ctx val id) {v : Value} (hv : val id = .ok v) :
    ∃ n : Int64, v = .scalar (.int n) ∧ (ctx.graph.elemSize id).Holds (.int n) := by
  obtain ⟨hscalar, hsize, htypes⟩ := h
  have htype := htypes v hv
  cases v with
  | tensor shape data =>
    rw [htype.1] at hscalar
    cases hscalar
  | scalar w => exact ⟨w.asInt, congrArg Value.scalar (Literal.holds_asInt htype.2 hsize),
      Literal.holds_asInt htype.2 hsize ▸ htype.2⟩

/-- The scalars that the first place and the step along an axis are read from. -/
def SliceIndex.starts : SliceIndex → List NodeId
  | element i => [i]
  | range lower _ step => [lower, step]

theorem SliceIndex.mem_nodes {i : SliceIndex} {id : NodeId} (h : id ∈ i.starts) : id ∈ i.nodes := by
  cases i with
  | element i => exact h
  | range lower upper step =>
    rcases List.mem_pair.mp h with rfl | rfl
    · exact List.mem_cons_self ..
    · simp [nodes]

namespace LowerM

open LowerState (Grows)

variable {ctx : EvalContext} {val : Valuation} {s : LowerState} {M : Buffer.Store} {id : NodeId}
  {k : Nat}

/-- A name holds the number of a dimension. -/
def HoldsSize (ctx : EvalContext) (val : Valuation) (M : Buffer.Store) (d : Dim) (n : Name) : Prop :=
  ∃ size, Meaning.dimNumber ctx val d = .ok size ∧ M n.key = some (.number size)

theorem HoldsSize.extend {M M' : Buffer.Store} (hext : M.Extends M') {d : Dim} {n : Name}
    (h : HoldsSize ctx val M d n) : HoldsSize ctx val M' d n :=
  h.imp fun _ hsize => ⟨hsize.1, hext hsize.2⟩

/-- The name of a dimension holds the extent. -/
theorem HoldsSize.index? {d : Dim} {name : Name} {n : Nat} (h : HoldsSize ctx val M d name)
    (hd : Meaning.Sized val d) (hn : Meaning.dim ctx val d = .ok n) : M.index? name = some n := by
  obtain ⟨size, hsize, hkey⟩ := h
  have hsizeNat : n = size.toNat :=
    Except.ok.inj (hn.symm.trans (Meaning.dim_of_dimNumber hd.bounded hsize))
  have hread : 0 ≤ size ∧ n = size.toNat := ⟨hd.nonneg hsize, hsizeNat⟩
  simp [Buffer.Store.index?, hkey, hread]

/-- A buffer that is allocated with the sizes of its dimensions has their extents. -/
theorem exists_extents {shape : Shape} : ∀ {ns : List Nat} {names : List Name},
    Meaning.dims ctx val shape = .ok ns → (∀ d ∈ shape, Meaning.Sized val d) →
    List.Forall₂ (HoldsSize ctx val M) (shape.filter fun d => !d.isStatic) names →
    ∃ sizes, names.mapM M.index? = some sizes ∧ Buffer.extents (shape.map Dim.static?) sizes = some ns := by
  induction shape with
  | nil =>
    intro ns names hns _ hnames
    obtain rfl := Except.ok.inj hns
    cases hnames
    exact ⟨[], rfl, rfl⟩
  | cons d shape ih =>
    intro ns names hns hsized hnames
    rw [Meaning.dims, List.mapM_cons] at hns
    obtain ⟨n, hn, hns⟩ := exists_of_bind_ok hns
    obtain ⟨rest, hrest, hns⟩ := exists_of_bind_ok hns
    obtain rfl := Except.ok.inj hns
    obtain ⟨hd, hsized⟩ := List.forall_mem_cons.mp hsized
    -- A static size is part of the type of the buffer; only the others are operands.
    cases hstatic : d.isStatic with
    | true =>
      simp only [List.filter_cons, hstatic, Bool.not_true, Bool.false_eq_true, if_false] at hnames
      obtain ⟨sizes, hsizes, hextents⟩ := ih hrest hsized hnames
      refine ⟨sizes, hsizes, ?_⟩
      cases d with
      | const k =>
        obtain ⟨hnonneg, hmax⟩ := hd
        have hk : n = k.toNat := by
          unfold Dim.maxConst at hmax
          rw [← Except.ok.inj hn, Dim.constSize, Word.ofInt, Int.emod_eq_of_lt hnonneg (by omega)]
        simp only [List.map_cons, Dim.static?, Buffer.extents, hextents, hk, Option.map_some]
      | sym _ | node _ => cases hstatic
    | false =>
      simp only [List.filter_cons, hstatic, Bool.not_false, if_true] at hnames
      cases hnames with
      | cons hname hnames =>
        obtain ⟨sizes, hsizes, hextents⟩ := ih hrest hsized hnames
        refine ⟨n :: sizes, ?_, ?_⟩
        · rw [List.mapM_cons, hname.index? hd hn, hsizes]
          rfl
        · cases d with
          | const k => cases hstatic
          | sym _ | node _ =>
            simp only [List.map_cons, Dim.static?, Buffer.extents, hextents, Option.map_some]

/-- A name that is known is given back. -/
theorem node_of_lookup {g : Graph} {n : Name} (h : s.lookup id = some n) :
    node g (k + 1) id s = .ok (n, s) := by
  rw [node, nodeRule, run_bind (show (get : LowerM LowerState) s = .ok (s, s) from rfl), h]
  rfl

/-- A node that has a name is not computed again. -/
theorem performs_node (h : s.Bound id) : Performs kind ctx val (node ctx.graph (k + 1) id) s M
    fun _ M' n => ∃ v, val id = .ok v ∧
      M' n.key = some (.ofValue (ctx.graph.elemSize id) v) := by
  intro hs
  obtain ⟨n, hn⟩ := Option.isSome_iff_exists.mp h
  exact ⟨n, s, [], M, node_of_lookup hn, .refl s, .silent rfl (Nat.le_refl _) hs, nofun, hs.node hn⟩

theorem performs_operand (h : s.Bound id) :
    Performs kind ctx val (operand ctx.graph (node ctx.graph (k + 1)) id) s M fun _ M' o =>
      ∃ v, val id = .ok v ∧ M' o.name.key = some (.ofValue (ctx.graph.elemSize id) v) :=
  (performs_node h).bind fun _ _ _ _ _ hn => performs_pure hn

/-- A node gets its name. -/
theorem performs_name {n : Name} {v : Value} (hv : val id = .ok v)
    (hn : M n.key = some (.ofValue (ctx.graph.elemSize id) v)) :
    Performs kind ctx val (LowerM.bind id n) s M fun s' M' _ =>
      s'.lookup id = some n ∧ M' n.key = some (.ofValue (ctx.graph.elemSize id) v) := by
  intro hs
  refine (performs_modify (.name hs.scopes id n) (LowerState.onScope_blocks s _)
    (LowerState.onScope_counter s _) fun hs => hs.name hv hn).mono
      (fun s' M' _ _ _ ⟨hs', hM'⟩ => ?_) hs
  rw [hs', hM', LowerState.lookup_name hs.scopes, if_pos rfl]
  exact ⟨rfl, hn⟩

/-- A constant is emitted where it is needed first. -/
theorem performs_constant {c : Literal} (hconstant : (ctx.graph.node id).constant? = some c)
    (hval : val id = .ok (.scalar (c.convert (ctx.graph.elemSize id))))
    (hsize : (ctx.graph.elemSize id).isFloatingPoint = false) :
    Performs (·.isNumeric) ctx val (node ctx.graph (k + 1) id) s M fun _ M' n => M' n.key =
      some (.number ((ctx.graph.elemSize id).number (c.convert (ctx.graph.elemSize id)))) := by
  refine performs_get_bind fun hs => ?_
  cases hfound : s.lookup id with
  | some n =>
    obtain ⟨v, hv, hn⟩ := hs.node hfound
    obtain rfl := Except.ok.inj (hv.symm.trans hval)
    exact performs_pure hn
  | none =>
    simp only [hconstant]
    have hemit : Performs (·.isNumeric) ctx val (constant c (ctx.graph.elemSize id)) s M
        fun _ M' n => M' n.key = some (.number ((ctx.graph.elemSize id).number
          (c.convert (ctx.graph.elemSize id)))) := by
      refine performs_definition (fun _ => rfl) fun n => ?_
      simp [Buffer.Stmt.exec, Buffer.constant?, hsize]
    exact hemit.bind fun n s₁ M₁ _ _ hn => (performs_name hval hn).bind
      fun _ _ _ _ hext _ => performs_pure (hext hn)

/-! ## Scalars that are asked for -/

/--
Asking for a scalar succeeds from here on.  It may emit statements on numbers, and the name that it
gives holds the number of the scalar.
-/
def Supplies (ctx : EvalContext) (val : Valuation) (need : NodeId → LowerM Name) (s : LowerState)
    (id : NodeId) : Prop :=
  ∀ ⦃s' : LowerState⦄ ⦃M : Buffer.Store⦄, Grows ctx.graph s s' →
    Performs (·.isNumeric) ctx val (need id) s' M fun _ M' n =>
      ∃ v, val id = .ok v ∧ M' n.key = some (.ofValue (ctx.graph.elemSize id) v)

theorem Supplies.grow {need : NodeId → LowerM Name} {s' : LowerState} (hs : Grows ctx.graph s s')
    (h : Supplies ctx val need s id) : Supplies ctx val need s' id :=
  fun _ _ hs' => h (hs.trans hs')

theorem supplies_of_bound (h : s.Bound id) : Supplies ctx val (node ctx.graph (k + 1)) s id :=
  fun _ _ hs => performs_node (hs.bound h)

theorem supplies_of_constant {c : Literal} (hconstant : (ctx.graph.node id).constant? = some c)
    (hval : val id = .ok (.scalar (c.convert (ctx.graph.elemSize id))))
    (hsize : (ctx.graph.elemSize id).isFloatingPoint = false) :
    Supplies ctx val (node ctx.graph (k + 1)) s id :=
  fun _ _ _ => (performs_constant hconstant hval hsize).mono fun _ _ _ _ _ hn => ⟨_, hval, hn⟩

/-- What a dimension is read from has a name or is found by asking. -/
def SuppliesDim (ctx : EvalContext) (val : Valuation) (need : NodeId → LowerM Name) (s : LowerState) :
    Dim → Prop
  | .const _ => True
  | .sym name => s.Known name
  | .node id => Supplies ctx val need s id

theorem SuppliesDim.grow {need : NodeId → LowerM Name} {s' : LowerState} (hs : Grows ctx.graph s s')
    {d : Dim} (h : SuppliesDim ctx val need s d) : SuppliesDim ctx val need s' d := by
  cases d with
  | const n => trivial
  | sym name => exact hs.known h
  | node id => exact Supplies.grow hs h

theorem suppliesDim_of_named {d : Dim} (h : s.Named d) :
    SuppliesDim ctx val (node ctx.graph (k + 1)) s d := by
  cases d with
  | const n => trivial
  | sym name => exact h
  | node id => exact supplies_of_bound h

section Need

variable {need : NodeId → LowerM Name}

/-- The index that a scalar is converted to holds its number. -/
theorem performs_indexValue (h : Supplies ctx val need s id) (hcounts : Meaning.Counts ctx val id) :
    Performs (·.isNumeric) ctx val (indexValue ctx.graph need id) s M fun _ M' n =>
      HoldsSize ctx val M' (.node id) n := by
  have htyped : Performs (·.isNumeric) ctx val (typedName ctx.graph need id) s M
      fun _ M' v => v.size = ctx.graph.elemSize id ∧ ∃ w, val id = .ok w ∧
        M' v.name.key = some (.ofValue (ctx.graph.elemSize id) w) :=
    (h (.refl s)).bind fun _ _ _ _ _ hn => performs_pure ⟨rfl, hn⟩
  refine htyped.bind fun v s₁ M₁ _ _ ⟨hsize, w, hw, hv⟩ => ?_
  obtain ⟨i, rfl, hholds⟩ := hcounts.value hw
  have hnumber : (ctx.graph.elemSize id).number (.int i) = i.toInt :=
    ElemSize.number_of_holds hholds.1 hholds
  have hindex : Performs (·.isNumeric) ctx val (toIndex v) s₁ M₁ fun _ M' n =>
      M' n.key = some (.number i.toInt) := by
    refine performs_definition (fun _ => rfl) fun n => ?_
    simp only [Buffer.Stmt.exec, Buffer.Store.number?_of_eq hv, hnumber]
    rfl
  refine hindex.mono fun _ _ n _ _ hn => ⟨_, ?_, hn⟩
  simp only [Meaning.dimNumber, Meaning.scalar, hw]
  rfl

/-- A constant index holds its number, whether it was defined before or not. -/
theorem performs_indexConstant (n : Int) :
    Performs (·.isNumeric) ctx val (indexConstant n) s M fun _ M' c =>
      M' c.key = some (.number (Int64.ofInt n).toInt) := by
  refine performs_get_bind fun hs => ?_
  cases hfound : s.indexConstant? n with
  | some c => exact performs_pure (hs.index hfound)
  | none =>
    refine performs_define (fun _ => rfl) (d := .number (Int64.ofInt n).toInt) (fun _ => rfl)
      fun c s₁ M₁ _ _ hc => (performs_modify ?_ (LowerState.onScope_blocks s₁ _)
        (LowerState.onScope_counter s₁ _) fun hs₁ => ?_).bind fun _ _ _ _ hext _ =>
          performs_pure (hext hc)
    · exact grows_indexConstant s₁ n c
    · refine ⟨LowerState.onScope_open hs₁.scopes _, ?_, fun k hk => ?_, fun hm => ?_,
        fun {k m} hm => ?_, fun hm => ?_⟩
      · rw [LowerState.onScope_blocks]
        exact hs₁.blocks
      · exact hs₁.unset k (by rwa [LowerState.onScope_counter] at hk)
      · rw [LowerState.lookup_onScope] at hm
        · exact hs₁.node hm
        · exact fun _ => rfl
      · rw [LowerState.indexConstant?_bind hs₁.scopes] at hm
        split at hm
        · next same =>
          subst same
          obtain rfl := Option.some.inj hm
          exact hc
        · exact hs₁.index hm
      · exact hs₁.symbol (by rwa [LowerState.onScope_symbols] at hm)

/-- The index of a dimension holds the number of the dimension. -/
theorem performs_dimIndex {d : Dim} (h : SuppliesDim ctx val need s d)
    (hcounts : ∀ id, d = .node id → Meaning.Counts ctx val id) :
    Performs (·.isNumeric) ctx val (dimIndex ctx.graph need d) s M fun _ M' n =>
      HoldsSize ctx val M' d n := by
  cases d with
  | const n => exact (performs_indexConstant n).mono fun _ _ _ _ _ hn => ⟨_, rfl, hn⟩
  | sym name =>
    refine performs_get_bind fun hs => ?_
    obtain ⟨n, hn⟩ := Table.get?_eq_some_of_contains h
    rw [hn]
    obtain ⟨size, hsize, hkey⟩ := hs.symbol hn
    refine performs_pure ⟨size, ?_, hkey⟩
    simp only [Meaning.dimNumber, hsize]
  | node id => exact performs_indexValue h (hcounts id rfl)

section Lists

variable {shape : Shape} (hcounts : ∀ id, .node id ∈ shape → Meaning.Counts ctx val id)
include hcounts

/-- The sizes that a buffer is allocated with hold the numbers of its dimensions. -/
theorem performs_dynamicSizes : ∀ {s M}, (∀ d ∈ shape, SuppliesDim ctx val need s d) →
    Performs (·.isNumeric) ctx val (dynamicSizes ctx.graph need shape) s M fun _ M' ns =>
      List.Forall₂ (HoldsSize ctx val M') (shape.filter fun d => !d.isStatic) ns := by
  induction shape with
  | nil => exact fun _ => performs_pure .nil
  | cons d shape ih =>
    intro s M hdims
    obtain ⟨hd, hrest⟩ := List.forall_mem_cons.mp hdims
    have hcounts' := fun id hid => hcounts id (List.mem_cons_of_mem _ hid)
    cases hstatic : d.isStatic with
    | true =>
      simp only [dynamicSizes, hstatic, if_true, List.filter_cons, Bool.not_true, Bool.false_eq_true,
        if_false]
      exact ih hcounts' hrest
    | false =>
      simp only [dynamicSizes, hstatic, Bool.false_eq_true, if_false, List.filter_cons, Bool.not_false,
        if_true]
      refine (performs_dimIndex hd fun id hid =>
        hcounts id (hid ▸ List.mem_cons_self ..)).bind fun n s₁ M₁ hgrows _ hn => ?_
      refine (ih hcounts' fun d hd => (hrest d hd).grow hgrows).bind
        fun ns s₂ M₂ _ hext hns => performs_pure ?_
      exact .cons (hn.extend hext) hns

end Lists

/-! ## Views of slices -/

/-- The scalars that an index is read from are found by asking. -/
def Selects (ctx : EvalContext) (val : Valuation) (need : NodeId → LowerM Name) (s : LowerState)
    (i : SliceIndex) : Prop :=
  ∀ id ∈ i.starts, Supplies ctx val need s id ∧ Meaning.Counts ctx val id

theorem Selects.grow {s' : LowerState} (hs : Grows ctx.graph s s') {i : SliceIndex}
    (h : Selects ctx val need s i) : Selects ctx val need s' i :=
  fun id hid => (h id hid).imp_left (Supplies.grow hs)

/-- The offset and the stride along an axis are what its index says. -/
def HoldsStart (ctx : EvalContext) (val : Valuation) (M : Buffer.Store) (selected : Option SliceIndex)
    (offset stride : Name) : Prop :=
  match selected with
  | some (.element i) =>
    HoldsSize ctx val M (.node i) offset ∧ M stride.key = some (.number 1)
  | some (.range lower _ step) =>
    HoldsSize ctx val M (.node lower) offset ∧ HoldsSize ctx val M (.node step) stride
  | none => M offset.key = some (.number 0) ∧ M stride.key = some (.number 1)

theorem HoldsStart.extend {M M' : Buffer.Store} (hext : M.Extends M') {selected : Option SliceIndex}
    {offset stride : Name} (h : HoldsStart ctx val M selected offset stride) :
    HoldsStart ctx val M' selected offset stride := by
  cases selected with
  | none => exact h.imp (fun h => hext h) fun h => hext h
  | some i =>
    cases i with
    | element i => exact h.imp (HoldsSize.extend hext) fun h => hext h
    | range lower upper step => exact h.imp (HoldsSize.extend hext) (HoldsSize.extend hext)

/-- The names of the views along the axes of a slice hold what the indices and the sizes say. -/
inductive HoldsViews (ctx : EvalContext) (val : Valuation) (M : Buffer.Store) :
    List SliceIndex → Shape → List AxisView → Prop
  | nil {selected : List SliceIndex} : HoldsViews ctx val M selected [] []
  | cons {selected : List SliceIndex} {d : Dim} {sizes : Shape} {view : AxisView}
    {views : List AxisView} (start : HoldsStart ctx val M selected.head? view.offset view.stride)
    (size : HoldsSize ctx val M d view.size) (rest : HoldsViews ctx val M selected.tail sizes views) :
    HoldsViews ctx val M selected (d :: sizes) (view :: views)

theorem HoldsViews.sizes {selected : List SliceIndex} {sizes : Shape} {views : List AxisView}
    (h : HoldsViews ctx val M selected sizes views) :
    List.Forall₂ (HoldsSize ctx val M) sizes (views.map AxisView.size) := by
  induction h with
  | nil => exact .nil
  | cons _ size _ ih => exact .cons size ih

theorem performs_axisStart {selected : Option SliceIndex}
    (h : ∀ i ∈ selected, Selects ctx val need s i) :
    Performs (·.isNumeric) ctx val (axisStart ctx.graph need selected) s M
      fun _ M' start => HoldsStart ctx val M' selected start.1 start.2 := by
  cases selected with
  | none =>
    exact (performs_indexConstant 0).bind fun _ _ _ _ _ hoffset => (performs_indexConstant 1).bind
      fun _ _ _ _ hext hstride => performs_pure ⟨hext hoffset, hstride⟩
  | some i =>
    have hi := h i rfl
    cases i with
    | element id =>
      obtain ⟨hid, hcounts⟩ := hi id (List.mem_cons_self ..)
      exact (performs_indexValue hid hcounts).bind fun _ _ _ _ _ hoffset =>
        (performs_indexConstant 1).bind fun _ _ _ _ hext hstride =>
          performs_pure ⟨hoffset.extend hext, hstride⟩
    | range lower upper step =>
      obtain ⟨hlower, hcountsLower⟩ := hi lower (by simp [SliceIndex.starts])
      obtain ⟨hstep, hcountsStep⟩ := hi step (by simp [SliceIndex.starts])
      exact (performs_indexValue hlower hcountsLower).bind fun _ _ _ hgrows _ hoffset =>
        (performs_indexValue (hstep.grow hgrows) hcountsStep).bind fun _ _ _ _ hext hstride =>
          performs_pure ⟨hoffset.extend hext, hstride⟩

/-- The view of a slice takes what the indices and the sizes say. -/
theorem performs_axisViews {sizes : Shape}
    (hcounts : ∀ id, .node id ∈ sizes → Meaning.Counts ctx val id) :
    ∀ {s M} {selected : List SliceIndex}, (∀ i ∈ selected, Selects ctx val need s i) →
      (∀ d ∈ sizes, SuppliesDim ctx val need s d) →
      Performs (·.isNumeric) ctx val (axisViews ctx.graph need selected sizes) s M
        fun _ M' views => HoldsViews ctx val M' selected sizes views := by
  induction sizes with
  | nil => exact fun _ _ => performs_pure .nil
  | cons d sizes ih =>
    intro s M selected hselected hdims
    obtain ⟨hd, hrest⟩ := List.forall_mem_cons.mp hdims
    have hcounts' := fun id hid => hcounts id (List.mem_cons_of_mem _ hid)
    refine (performs_axisStart fun i hi => hselected i (List.mem_of_head? hi)).bind
      fun start s₁ M₁ h₁ _ hstart => ?_
    refine (performs_dimIndex (hd.grow h₁) fun id hid =>
      hcounts id (hid ▸ List.mem_cons_self ..)).bind fun size s₂ M₂ h₂ hext₂ hsize => ?_
    refine (ih hcounts' (fun i hi => ((hselected i (List.mem_of_mem_tail hi)).grow h₁).grow h₂)
      fun d hd => ((hrest d hd).grow h₁).grow h₂).bind fun views s₃ M₃ _ hext hviews =>
        performs_pure ?_
    exact .cons ((hstart.extend hext₂).extend hext) (hsize.extend hext) hviews

end Need

/-- A statement that is not executed changes nothing that is known. -/
theorem agrees_emit (hs : s.Agrees ctx val M) (stmt : Buffer.Stmt) :
    (({ s with counter := s.counter + 1 } : LowerState).push stmt).Agrees ctx val M :=
  hs.fresh.congr (LowerState.push_scopes _ _) (LowerState.push_open hs.fresh.blocks _)
    (LowerState.push_symbols _ _) (fun i hi => hs.unset i
      (Nat.le_of_succ_le (by rwa [LowerState.push_counter] at hi))) fun _ _ h => h

section Slice

variable {need : NodeId → LowerM Name}

/-- The statements in front of an allocation can be executed, and compute the sizes it takes. -/
theorem exists_alloc (hs : s.Agrees ctx val M) (sz : ElemSize) {shape : Shape}
    (hdims : ∀ d ∈ shape, SuppliesDim ctx val need s d)
    (hcounts : ∀ id, .node id ∈ shape → Meaning.Counts ctx val id) :
    ∃ (j : Nat) (sizes : List Name) (s' : LowerState) (before : List Buffer.Stmt) (M' : Buffer.Store),
      alloc ctx.graph need sz shape s = .ok (⟨.numbered "buf" j, bufferType sz shape⟩, s') ∧
      s.counter ≤ j ∧ j < s'.counter ∧ s'.Agrees ctx val M' ∧
      s'.block = s.block ++ (before ++ [.alloc (.numbered "buf" j) sizes (bufferType sz shape)]) ∧
      Buffer.execAll before M = some M' ∧ (∀ stmt ∈ before, stmt.isNumeric) ∧
      List.Forall₂ (HoldsSize ctx val M') (shape.filter fun d => !d.isStatic) sizes := by
  obtain ⟨sizes, s₁, before, M', hrun, -, hbefore, hnumeric, hsizes⟩ :=
    performs_dynamicSizes hcounts hdims hs
  refine ⟨s₁.counter, sizes, _, before, M', run_bind hrun, hbefore.counter, ?_,
    agrees_emit hbefore.agrees (.alloc (.numbered "buf" s₁.counter) sizes (bufferType sz shape)), ?_,
    hbefore.exec, hnumeric, hsizes⟩
  · rw [LowerState.push_counter]
    exact Nat.lt_succ_self _
  · rw [LowerState.block_push hbefore.agrees.fresh.blocks, ← List.append_assoc]
    exact congrArg (· ++ _) hbefore.block

/--
Statements of a slice from a store on.  Up to the view and from there up to the buffer they can be
executed, and the sizes that the view and the buffer take hold the numbers of the dimensions.
-/
inductive SliceSized (ctx : EvalContext) (val : Valuation) (sizes : Shape) (M : Buffer.Store) :
    List Buffer.Stmt → Prop
  | intro {before between after : List Buffer.Stmt} {view buffer : Name} {src : Operand}
      {offsets viewSizes strides bufferSizes : List Name} {viewType bufferType : Buffer.Ty}
      {M₁ M₂ : Buffer.Store} (hbefore : Buffer.execAll before M = some M₁)
      (hview : List.Forall₂ (HoldsSize ctx val M₁) sizes viewSizes)
      (hbetween : Buffer.execAll between M₁ = some M₂)
      (hbuffer : List.Forall₂ (HoldsSize ctx val M₂) (sizes.filter fun d => !d.isStatic)
        bufferSizes) :
      SliceSized ctx val sizes M (before ++
        .subView view src offsets viewSizes strides viewType ::
          (between ++ .alloc buffer bufferSizes bufferType :: after))

/--
How a slice ends: if axes are dropped, the first ones are merged under a new name.  `name` is the name
that the result gets.
-/
inductive SliceEnds (g : Graph) (target dst : NodeId) (lo hi : Nat) (buffer : Operand) (name : Name) :
    List Buffer.Stmt → Prop
  | same (hrank : (g.shape target).length ≤ (g.shape dst).length) (hname : name = buffer.name) :
      SliceEnds g target dst lo hi buffer name []
  | merged {l : Nat} {ty : Buffer.Ty} (hrank : (g.shape dst).length < (g.shape target).length)
      (hname : name = .numbered "slice" l) (hlo : lo ≤ l) (hhi : l < hi) :
      SliceEnds g target dst lo hi buffer name [.collapseShape name buffer
        (collapsedAxes ((g.shape target).length - (g.shape dst).length) (g.shape target).length) ty]

/--
The statements of a slice from a store on: statements on numbers and the view, statements on numbers
and the buffer, the copy, and what is left to be done.  The numbers of new names are between those of
the states.
-/
inductive SliceEmits (ctx : EvalContext) (val : Valuation) (src : Name) (target : NodeId)
    (selected : List SliceIndex) (sizes : Shape) (dst : NodeId) (s s' : LowerState)
    (M : Buffer.Store) : List Buffer.Stmt → Prop
  | intro {before between after : List Buffer.Stmt} {i j : Nat} {name : Name} {views : List AxisView}
      {bufferSizes : List Name} {sz : ElemSize} {viewType : Buffer.Ty} {M₁ M₂ : Buffer.Store}
      (hbefore : Buffer.execAll before M = some M₁) (hbeforeNumeric : ∀ stmt ∈ before, stmt.isNumeric)
      (hviews : HoldsViews ctx val M₁ selected sizes views)
      (hbetween : Buffer.execAll between M₁ = some M₂)
      (hbetweenNumeric : ∀ stmt ∈ between, stmt.isNumeric)
      (hbuffer : List.Forall₂ (HoldsSize ctx val M₂) (sizes.filter fun d => !d.isStatic) bufferSizes)
      (hview : s.counter ≤ i) (hbufferNew : i < j)
      (hend : SliceEnds ctx.graph target dst (j + 1) s'.counter
        ⟨.numbered "buf" j, bufferType sz sizes⟩ name after)
      (hname : s'.lookup dst = some name) :
      SliceEmits ctx val src target selected sizes dst s s' M (before ++
        .subView (.numbered "view" i) ⟨src, ctx.graph.valueType target⟩ (views.map AxisView.offset)
          (views.map AxisView.size) (views.map AxisView.stride) viewType ::
          (between ++ .alloc (.numbered "buf" j) bufferSizes (bufferType sz sizes) ::
            .copy ⟨.numbered "view" i, viewType⟩ ⟨.numbered "buf" j, bufferType sz sizes⟩ :: after))

theorem SliceEmits.sized {src : Name} {target dst : NodeId} {selected : List SliceIndex}
    {sizes : Shape} {s' : LowerState} {stmts : List Buffer.Stmt}
    (h : SliceEmits ctx val src target selected sizes dst s s' M stmts) :
    SliceSized ctx val sizes M stmts := by
  cases h with
  | intro hbefore _ hviews hbetween _ hbuffer => exact .intro hbefore hviews.sizes hbetween hbuffer

/-- A slice ends with a name for its result. -/
theorem exists_sliceEnd (hs : s.Agrees ctx val M) (target dst : NodeId) (sz : ElemSize)
    (buffer : Operand) {lo : Nat} (hlo : lo ≤ s.counter) :
    ∃ s' name after, (if 0 < (ctx.graph.shape target).length - (ctx.graph.shape dst).length then do
        let id ← fresh "slice"
        emit (.collapseShape id buffer
          (collapsedAxes ((ctx.graph.shape target).length - (ctx.graph.shape dst).length)
            (ctx.graph.shape target).length) (bufferType sz (ctx.graph.shape dst)))
        bind dst id
      else bind dst buffer.name : LowerM Unit) s = .ok ((), s') ∧ s'.block = s.block ++ after ∧
      s'.lookup dst = some name ∧
      SliceEnds ctx.graph target dst lo s'.counter buffer name after := by
  have hblock : ∀ (s : LowerState) (n : Name), (s.name dst n).block = s.block := fun s n =>
    congrArg (fun blocks => (List.headD blocks #[]).toList) (LowerState.onScope_blocks s _)
  by_cases hrank : 0 < (ctx.graph.shape target).length - (ctx.graph.shape dst).length
  · let id := Name.numbered "slice" s.counter
    let stmt : Buffer.Stmt := .collapseShape id buffer
      (collapsedAxes ((ctx.graph.shape target).length - (ctx.graph.shape dst).length)
        (ctx.graph.shape target).length) (bufferType sz (ctx.graph.shape dst))
    have hagrees := agrees_emit hs stmt
    refine ⟨_, id, [stmt], by rw [if_pos hrank]; rfl, (hblock _ _).trans ?_, ?_, ?_⟩
    · exact LowerState.block_push hs.fresh.blocks stmt
    · rw [LowerState.lookup_name hagrees.scopes, if_pos rfl]
    · refine .merged (by omega) rfl hlo ?_
      rw [LowerState.name, LowerState.onScope_counter, LowerState.push_counter]
      exact Nat.lt_succ_self _
  · refine ⟨_, buffer.name, [], by rw [if_neg hrank]; rfl, ?_, ?_, .same (by omega) rfl⟩
    · rw [hblock, List.append_nil]
    · rw [LowerState.lookup_name hs.scopes, if_pos rfl]

/--
Once its source has a name, a slice is lowered to statements that take what the slice says.  `s₀` is
the state before the source was asked for.
-/
theorem exists_slice {s₀ : LowerState} {target : NodeId} (dst : NodeId) (hs : s.Agrees ctx val M)
    {selected : List SliceIndex} {sizes : Shape} {src : Name}
    (htarget : need target s₀ = .ok (src, s))
    (hselected : ∀ i ∈ selected, Selects ctx val need s i)
    (hrank : sizes.length = (ctx.graph.shape target).length)
    (hdims : ∀ d ∈ sizes, SuppliesDim ctx val need s d)
    (hcounts : ∀ id, .node id ∈ sizes → Meaning.Counts ctx val id) :
    ∃ s' stmts, slice ctx.graph need target selected sizes dst s₀ = .ok ((), s') ∧
      s'.block = s.block ++ stmts ∧
      SliceEmits ctx val src target selected sizes dst s s' M stmts := by
  have htake : sizes.take (ctx.graph.shape target).length = sizes := by
    rw [← hrank, List.take_length]
  obtain ⟨views, s₁, before, M₁, hviews, hgrows₁, hbefore, hnumeric, hholds⟩ :=
    performs_axisViews hcounts hselected hdims hs
  -- The view itself is not executed: it is emitted under a name that nothing knows.
  let viewType : Buffer.Ty := .strided (ctx.graph.elemSize target) (ctx.graph.shape target).length
  let view := Name.numbered "view" s₁.counter
  let stmt : Buffer.Stmt := .subView view ⟨src, ctx.graph.valueType target⟩
    (views.map AxisView.offset) (views.map AxisView.size) (views.map AxisView.stride) viewType
  let viewed : LowerState := ({ s₁ with counter := s₁.counter + 1 } : LowerState).push stmt
  obtain ⟨j, names, s₂, between, M₂, halloc, hlo, hhi, hagrees, hblock, hbetween, hnumeric', hnames⟩ :=
    exists_alloc (agrees_emit hbefore.agrees stmt) (ctx.graph.elemSize target)
      (fun d hd => ((hdims d hd).grow hgrows₁).grow (grows_emit ctx.graph s₁ stmt)) hcounts
  let buffer : Operand := ⟨.numbered "buf" j, bufferType (ctx.graph.elemSize target) sizes⟩
  let copy : Buffer.Stmt := .copy ⟨view, viewType⟩ buffer
  let copied := s₂.push copy
  have hcopied : copied.Agrees ctx val M₂ :=
    hagrees.congr (LowerState.push_scopes s₂ copy) (LowerState.push_open hagrees.blocks copy)
      (LowerState.push_symbols s₂ copy) (fun i hi => hagrees.unset i
        (by rwa [LowerState.push_counter] at hi)) fun _ _ h => h
  obtain ⟨s', name, after, hend, hafter, hname, hends⟩ :=
    exists_sliceEnd hcopied target dst (ctx.graph.elemSize target) buffer
      (show j + 1 ≤ copied.counter by rw [LowerState.push_counter]; exact hhi)
  refine ⟨s', before ++ stmt :: (between ++ .alloc buffer.name names buffer.type :: copy :: after), ?_, ?_,
    .intro hbefore.exec hnumeric hholds hbetween hnumeric' hnames hbefore.counter ?_ hends hname⟩
  · unfold slice
    have hsrc : operand ctx.graph need target s₀ =
        .ok (⟨src, ctx.graph.valueType target⟩, s) := run_bind htarget
    rw [run_bind hsrc]
    simp only [htake]
    rw [run_bind hviews]
    have hfresh : fresh "view" s₁ = .ok (view, { s₁ with counter := s₁.counter + 1 }) := rfl
    have hview : emit stmt { s₁ with counter := s₁.counter + 1 } = .ok ((), viewed) := rfl
    have hcopy : emit copy s₂ = .ok ((), copied) := rfl
    exact (run_bind hfresh).trans ((run_bind hview).trans ((run_bind halloc).trans
      ((run_bind hcopy).trans hend)))
  · have hviewed : viewed.block = s.block ++ before ++ [stmt] := by
      rw [LowerState.block_push hbefore.agrees.fresh.blocks, ← hbefore.block]
      rfl
    rw [hafter, LowerState.block_push hagrees.blocks, hblock, hviewed]
    simp only [List.append_assoc, List.cons_append, List.nil_append]
    rfl
  · rw [LowerState.push_counter] at hlo
    exact hlo

end Slice

end LowerM

end TensorKernel
