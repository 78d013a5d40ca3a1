import TensorKernel.Proofs.Build.Dialogue
import TensorKernel.Proofs.Graph.Settled
import TensorKernel.Proofs.Source.Calls

/-!
# What building asks for

Building a function asks the registry for the functions that its body calls by their bare names, for
no others, and for each of them before it succeeds.  Besides, it leaves a graph in which it is
settled what computes each node, and whose constant dimensions are sizes.

`BuildM.Consults` says both of one building step.  What is said about the graph depends on the
builder before; what the step asks for does not.
-/

namespace TensorKernel

/-- What computes each node of the graph of a function is settled, and constants are sizes. -/
structure FunctionGraph.Settled (f : FunctionGraph) : Prop where
  graph : f.graph.Settled f.entry
  bounded : f.graph.Bounded

namespace FunctionBuilder

/--
What computes each node is settled, except for nodes that wait to be computed.  Once something is
returned, the node of a declared result is computed.  Constant dimensions are sizes.
-/
structure Awaits (b : FunctionBuilder) (waiting : NodeId → Prop) : Prop where
  graph : b.graph.Settled (b.entry.awaiting waiting)
  returned : ∀ {ty dst}, b.returnPlan = .static ty dst → b.outputs ≠ [] →
    (b.graph.node dst).producer ≠ none
  bounded : b.graph.Bounded

theorem Awaits.grow {b : FunctionBuilder} {waiting : NodeId → Prop} (h : b.Awaits waiting) {g : Graph}
    (hg : b.graph.Settles g) : ({ b with graph := g } : FunctionBuilder).Awaits waiting :=
  ⟨hg.settled h.graph, fun hplan hout => hg.kept (h.returned hplan hout), hg.bounded h.bounded⟩

end FunctionBuilder

namespace BuildM

variable {W : NodeId → Prop} {α β : Type}

/--
A building step, as a dialogue with whoever provides the graphs: it asks for the given functions.  If
it starts as it should, and is given settled graphs, then it succeeds with a property, and the types
that it asks for are bounded.
-/
def Consults (names : List String) (pre : Prop) (m : Provider → BuildM α) (b : FunctionBuilder)
    (Q : α → FunctionBuilder → Prop) : Prop :=
  ∃ d : Dialogue (α × FunctionBuilder), (∀ call cache, run (m call) b cache = d.run call cache) ∧
    d.Consults names ∧
      (pre → d.Yields KernelType.Bounded FunctionGraph.Settled fun p => Q p.1 p.2)

/-- A step that keeps what is settled, and lets wait what waits. -/
abbrev Asks (waiting : NodeId → Prop) (names : List String) (m : Provider → BuildM α)
    (b : FunctionBuilder) : Prop :=
  Consults names (b.Awaits waiting) m b fun _ b' => b'.Awaits waiting

section Rules

variable {names names' : List String} {pre : Prop} {b : FunctionBuilder}
  {Q R : α → FunctionBuilder → Prop} {m : Provider → BuildM α}

theorem Consults.congr (h : Consults names pre m b Q) (hnames : ∀ id, id ∈ names ↔ id ∈ names') :
    Consults names' pre m b Q := by
  obtain ⟨d, hrun, hd, hyields⟩ := h
  exact ⟨d, hrun, hd.congr hnames, hyields⟩

theorem Consults.mono {pre' : Prop} (h : Consults names pre m b Q) (hpre : pre' → pre)
    (hQ : ∀ a b', Q a b' → R a b') : Consults names pre' m b R := by
  obtain ⟨d, hrun, hd, hyields⟩ := h
  exact ⟨d, hrun, hd, fun hp => (hyields (hpre hp)).mono fun p => hQ p.1 p.2⟩

/-- What was known before is still known. -/
theorem Consults.carry (h : Consults names pre m b Q) (P : Prop) :
    Consults names (pre ∧ P) m b fun a b' => Q a b' ∧ P := by
  obtain ⟨d, hrun, hd, hyields⟩ := h
  exact ⟨d, hrun, hd, fun ⟨hpre, hP⟩ => (hyields hpre).mono fun p hp => ⟨hp, hP⟩⟩

theorem Consults.bind {f : Provider → α → BuildM β} {S : β → FunctionBuilder → Prop}
    (hm : Consults names pre m b Q)
    (hf : ∀ a b', Consults names' (Q a b') (fun call => f call a) b' S) :
    Consults (names ++ names') pre (fun call => m call >>= f call) b S := by
  obtain ⟨d, hrun, hd, hyields⟩ := hm
  choose k hk using fun p : α × FunctionBuilder => hf p.1 p.2
  refine ⟨d.bind k, fun call cache => ?_, hd.bind fun p => (hk p).2.1, fun hpre =>
    (hyields hpre).bind fun p => (hk p).2.2⟩
  rw [run_bind, hrun, Dialogue.run_bind]
  rcases d.run call cache with ⟨r, after⟩
  cases r with
  | ok p => exact (hk p).1 call after
  | error err => rfl

/-- A step after one that asks for nothing. -/
theorem Consults.step {f : Provider → α → BuildM β} {S : β → FunctionBuilder → Prop}
    (hm : Consults [] pre m b Q)
    (hf : ∀ a b', Consults names (Q a b') (fun call => f call a) b' S) :
    Consults names pre (fun call => m call >>= f call) b S :=
  hm.bind hf

/-- A step before one that asks for nothing. -/
theorem Consults.last {f : Provider → α → BuildM β} {S : β → FunctionBuilder → Prop}
    (hm : Consults names pre m b Q)
    (hf : ∀ a b', Consults [] (Q a b') (fun call => f call a) b' S) :
    Consults names pre (fun call => m call >>= f call) b S :=
  (hm.bind hf).congr fun id => by rw [List.append_nil]

/-- A step that asks for nothing and succeeds. -/
theorem consults_of_ok {a : α} {b' : FunctionBuilder}
    (hrun : ∀ call cache, run (m call) b cache = (.ok (a, b'), cache)) (hQ : pre → Q a b') :
    Consults [] pre m b Q :=
  ⟨.done (.ok (a, b')), hrun, Dialogue.consults_ok _, hQ⟩

/-- A step that asks for nothing and fails. -/
theorem consults_throw (names : List String) {err : BuildError} (h : Dialogue.NotRecursive err) :
    Consults names pre (fun _ => (throw err : BuildM α)) b Q :=
  ⟨.done (.error err), fun _ _ => rfl, Dialogue.consults_error h names, fun _ => trivial⟩

/-- A failure of another kind than that of recursion. -/
theorem notRecursive_of_kind {err : BuildError} (h : err.kind ≠ .notImplemented) :
    Dialogue.NotRecursive err := by
  intro id hid
  rw [BuildError.kind, hid] at h
  exact h rfl

theorem consults_fail (names : List String) {span : Span} {fault : BuildFault}
    (h : ∀ id, fault ≠ .recursiveCall id) :
    Consults names pre (fun _ => (fail span fault : BuildM α)) b Q :=
  consults_throw names h

theorem consults_fail_bind (names : List String) {f : Provider → β → BuildM α} {span : Span}
    {fault : BuildFault} (h : ∀ id, fault ≠ .recursiveCall id) :
    Consults names pre (fun call => fail span fault >>= f call) b Q :=
  consults_fail names h

theorem consults_failInternal (names : List String) {fault : BuildFault}
    (h : ∀ id, fault ≠ .recursiveCall id) :
    Consults names pre (fun _ => (failInternal fault : BuildM α)) b Q :=
  consults_throw names h

theorem consults_pure {a : α} (h : pre → Q a b) :
    Consults [] pre (fun _ => (pure a : BuildM α)) b Q :=
  consults_of_ok (fun _ _ => rfl) h

theorem consults_get_bind {f : Provider → FunctionBuilder → BuildM α}
    (h : Consults names pre (fun call => f call b) b Q) :
    Consults names pre (fun call => get >>= f call) b Q := h

theorem consults_ite {c : Prop} [Decidable c] {m' : Provider → BuildM α}
    (hthen : c → Consults names pre m b Q) (helse : ¬ c → Consults names pre m' b Q) :
    Consults names pre (fun call => if c then m call else m' call) b Q := by
  by_cases h : c
  · simpa only [if_pos h] using hthen h
  · simpa only [if_neg h] using helse h

theorem consults_ofExcept {span : Span} {r : Except BuildFault α} (hok : ∀ a, r = .ok a → pre → Q a b)
    (herror : ∀ fault, r = .error fault → ∀ id, fault ≠ .recursiveCall id) :
    Consults [] pre (fun _ => ofExcept span r) b Q := by
  cases r with
  | ok a => exact consults_pure (hok a rfl)
  | error fault => exact consults_fail [] (herror fault rfl)

end Rules

section AsksRules

variable {b : FunctionBuilder}

theorem asks_pure (a : α) : Asks W [] (fun _ => (pure a : BuildM α)) b :=
  consults_pure id

theorem asks_onGraph {f : Graph → α × Graph} (h : b.graph.Settles (f b.graph).2) :
    Asks W [] (fun _ => onGraph f) b :=
  consults_of_ok (fun _ _ => rfl) fun hb => hb.grow h

/-- A step that settles because the constants before it are sizes, and something else holds. -/
theorem consults_onGraph {P : Prop} {f : Graph → α × Graph}
    (h : b.graph.Bounded → P → b.graph.Settles (f b.graph).2) :
    Consults [] (b.Awaits W ∧ P) (fun _ => onGraph f) b fun _ b' => b'.Awaits W :=
  consults_of_ok (fun _ _ => rfl) fun ⟨hb, hP⟩ => hb.grow (h hb.bounded hP)

end AsksRules

/-! ## Operators -/

variable {b : FunctionBuilder}

theorem asks_intConstant (v : Int) (span : Span) : Asks W [] (fun _ => intConstant v span) b := by
  unfold intConstant
  cases ElemSize.ofInt? v with
  | some sz => exact asks_onGraph (Graph.settles_addConstant _ _ _)
  | none => exact consults_fail [] nofun

theorem asks_floatConstant (v : Float) (span : Span) : Asks W [] (fun _ => floatConstant v span) b := by
  unfold floatConstant
  cases ElemSize.ofFloat? v with
  | some sz => exact asks_onGraph (Graph.settles_addConstant _ _ _)
  | none => exact consults_fail [] nofun

theorem asks_applyUnary (op : UnOp) (arg : NodeId) (span : Span) :
    Asks W [] (fun _ => applyUnary op arg span) b :=
  consults_get_bind <| consults_ite (fun _ => consults_fail [] nofun) fun _ =>
    consults_ite (fun _ => consults_fail [] nofun) fun _ =>
      consults_of_ok (fun _ _ => rfl) fun hb => hb.grow (Graph.settles_unary hb.bounded op arg _)

/-- The result has dimensions of the operands. -/
theorem consults_resultShape (op : BinOp) (lhs rhs : NodeId) (span : Span) :
    Consults [] (b.Awaits W) (fun _ => resultShape op (b.graph.type lhs) (b.graph.type rhs) span) b
      fun shape b' => b'.Awaits W ∧ ∀ s, shape = some s → ∀ d ∈ s, d.Bounded := by
  unfold resultShape
  refine consults_ite (fun _ => consults_pure fun hb => ⟨hb, nofun⟩) fun _ => ?_
  cases hshape : Shape.broadcast? (b.graph.type lhs).shape (b.graph.type rhs).shape with
  | some shape =>
    refine consults_pure fun hb => ⟨hb, fun s hs => ?_⟩
    obtain rfl := Option.some.inj hs
    exact (hb.bounded lhs).broadcast (hb.bounded rhs) hshape
  | none => exact consults_fail [] nofun

theorem asks_applyBinary (op : BinOp) (lhs rhs : NodeId) (span : Span) :
    Asks W [] (fun _ => applyBinary op lhs rhs span) b :=
  consults_get_bind <| consults_ite (fun _ => consults_fail [] nofun) fun _ =>
    (consults_resultShape op lhs rhs span).step fun _ _ =>
      consults_onGraph fun _ hshape => Graph.settles_binary _ op lhs rhs _ hshape

theorem asks_applyChain (span : Span) (rest : List (BinOp × NodeId)) :
    ∀ {b : FunctionBuilder} (lhs : NodeId), Asks W [] (fun _ => applyChain lhs span rest) b := by
  induction rest with
  | nil => exact fun lhs => asks_pure lhs
  | cons head rest ih =>
    exact fun lhs => consults_get_bind <| consults_ite
      (fun _ => (asks_applyBinary head.1 lhs head.2 span).step fun result _ => ih result)
      fun _ => consults_fail [] nofun

theorem asks_dimNode (d : Dim) (span : Span) : Asks W [] (fun _ => dimNode d span) b := by
  cases d with
  | const n => exact asks_intConstant n span
  | node id => exact asks_pure id
  | sym name =>
    refine consults_get_bind ?_
    cases b.symbols.get? name with
    | some symbol => exact asks_pure symbol.node
    | none => exact consults_failInternal [] nofun

theorem asks_requireIndex (id : NodeId) (span : Span) : Asks W [] (fun _ => requireIndex id span) b :=
  consults_get_bind <| consults_ite (fun _ => asks_pure ()) fun _ => consults_fail [] nofun

theorem asks_elementIndex {names : List String} {value : Provider → BuildM NodeId}
    (h : Asks W names value b) (span : Span) :
    Asks W names (fun call => elementIndex (value call) span) b :=
  h.last fun id _ => (asks_requireIndex id span).step fun _ _ => asks_pure _

/-- What a part that may be missing asks for. -/
def AsksIf (W : NodeId → Prop) (names : List String) : Option (Provider → BuildM α) → Prop
  | none => names = []
  | some m => ∀ b, Asks W names m b

/-- Without a part its default is built. -/
theorem AsksIf.getD {names : List String} {m : Option (Provider → BuildM α)} (h : AsksIf W names m)
    {default : BuildM α} (hdefault : Asks W [] (fun _ => default) b) :
    Asks W names (fun call => (m.map (· call)).getD default) b := by
  cases m with
  | none => exact h ▸ hdefault
  | some m => exact h b

theorem asks_rangeIndex {names names' names'' : List String}
    {lower upper step : Option (Provider → BuildM NodeId)} (hlower : AsksIf W names lower)
    (hupper : AsksIf W names' upper) (hstep : AsksIf W names'' step) (axis : Dim) (span : Span) :
    Asks W (names ++ (names' ++ names'')) (fun call => rangeIndex (lower.map (· call))
      (upper.map (· call)) (step.map (· call)) axis span) b := by
  unfold rangeIndex
  simp only [Option.isNone_map]
  exact (hlower.getD (asks_onGraph (Graph.settles_addConstant _ _ _))).bind fun lower _ =>
    (hupper.getD (asks_dimNode axis span)).bind fun upper _ =>
    (hstep.getD (asks_onGraph (Graph.settles_addConstant _ _ _))).last fun step _ =>
    (asks_requireIndex lower span).step fun _ _ => (asks_requireIndex upper span).step fun _ _ =>
    (asks_requireIndex step span).step fun _ _ => consults_get_bind <|
      consults_ite (fun _ => consults_fail [] nofun) fun _ => asks_pure _

/-- The size of a slice is a size if it is a constant. -/
theorem consults_sliceSize (choice : AxisIndex) (axis : Dim) (span : Span) :
    Consults [] (b.Awaits W ∧ axis.Bounded) (fun _ => sliceSize choice axis span) b
      fun size b' => b'.Awaits W ∧ size.Bounded := by
  unfold sliceSize
  cases choice.index with
  | element id => exact consults_pure fun hb => ⟨hb.1, by decide, by decide⟩
  | range lower upper step =>
    refine consults_get_bind ?_
    dsimp only
    split
    · exact consults_ite (fun hmax => consults_pure fun hb => ⟨hb.1, Int.le_max_right .., hmax⟩)
        fun _ => consults_fail [] nofun
    · refine consults_ite (fun _ => consults_pure id) fun _ => ?_
      exact ((asks_intConstant 1 span).mono And.left fun _ _ => id).step fun one _ =>
        (asks_applyBinary .sub upper lower span).step fun extent _ =>
        (asks_applyBinary .sub extent one span).step fun last _ =>
        (asks_applyBinary .floorDiv last step span).step fun steps _ =>
        (asks_applyBinary .add steps one span).step fun size _ => consults_pure fun hb => ⟨hb, trivial⟩

theorem consults_sliceSizes (span : Span) (choices : List AxisIndex) :
    ∀ {b : FunctionBuilder} (axes : Shape),
      Consults [] (b.Awaits W ∧ ∀ d ∈ axes, d.Bounded) (fun _ => sliceSizes span choices axes) b
        fun sizes b' => b'.Awaits W ∧ ∀ d ∈ sizes, d.Bounded := by
  induction choices with
  | nil => exact fun axes => consults_pure fun hb => ⟨hb.1, nofun⟩
  | cons choice choices ih =>
    intro b axes
    cases axes with
    | nil => exact consults_pure fun hb => ⟨hb.1, nofun⟩
    | cons axis axes =>
      refine (((consults_sliceSize choice axis span).carry (∀ d ∈ axes, d.Bounded)).mono
        (fun ⟨hb, haxes⟩ => ⟨⟨hb, haxes _ (List.mem_cons_self ..)⟩,
          List.forall_mem_of_forall_mem_cons haxes⟩) fun _ _ => id).step fun size b₁ => ?_
      refine (((ih (b := b₁) axes).carry size.Bounded).mono
        (fun ⟨⟨hb, hsize⟩, haxes⟩ => ⟨⟨hb, haxes⟩, hsize⟩) fun _ _ => id).step fun sizes b₂ => ?_
      exact consults_pure fun ⟨⟨hb, hsizes⟩, hsize⟩ => ⟨hb, List.forall_mem_cons.mpr ⟨hsize, hsizes⟩⟩

/-- A tensor is indexed along as many axes as there are indices. -/
theorem asks_indexedAxes_bind {names : List String} {f : Provider → Shape → BuildM α}
    (target : NodeId) (count : Nat) (span : Span)
    (hf : ∀ axes : Shape, count ≤ axes.length → Asks W names (fun call => f call axes) b) :
    Asks W names (fun call => indexedAxes target count span >>= f call) b := by
  show Asks W names (fun call => (if (b.graph.shape target).isEmpty then fail span .indexedScalar
    else if (b.graph.shape target).length < count then
      fail span (.tooManyIndices (b.graph.shape target).length)
    else pure (b.graph.shape target)) >>= f call) b
  split
  · exact consults_fail_bind names nofun
  · split
    · exact consults_fail_bind names nofun
    · next hlength => exact hf _ (Nat.le_of_not_lt hlength)

theorem asks_readTensor (target : NodeId) (choices : List AxisIndex) (span : Span) :
    Asks W [] (fun _ => readTensor target choices span) b := by
  refine consults_get_bind (consults_ite (fun _ => asks_onGraph
    (Graph.settles_compute none (.scalar _) .getItem _ nofun nofun
      (KernelType.bounded_scalar _)))
    fun _ => ?_)
  refine (((consults_sliceSizes span choices (b.graph.shape target)).carry
    (∀ d ∈ b.graph.shape target, d.Bounded)).mono (fun hb =>
      ⟨⟨hb, hb.bounded target⟩, hb.bounded target⟩) fun _ _ => id).step fun picked b₁ => ?_
  refine consults_of_ok (fun _ _ => rfl) fun ⟨⟨hb, hpicked⟩, haxes⟩ => hb.grow ?_
  refine Graph.settles_compute none (.tensor _ (trimmedShape _)) (.slice _ _) _ nofun nofun
    fun d hd => ?_
  rcases List.mem_append.mp (List.mem_of_mem_drop hd) with hd | hd
  · exact hpicked d hd
  · exact haxes d (List.mem_of_mem_drop hd)

end BuildM

end TensorKernel
