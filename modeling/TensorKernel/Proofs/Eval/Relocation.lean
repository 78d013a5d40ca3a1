import TensorKernel.Proofs.Eval.Meaning
import TensorKernel.Proofs.Except
import TensorKernel.Proofs.Graph.Splice
import TensorKernel.Proofs.Table

/-!
# Meaning and relocation

An operator means the same wherever its graph is embedded, if the nodes that it reads do.  Values
are compared exactly and faults by what some function `φ` keeps of them: `id` where nothing moves,
and a constant where only the values matter.
-/

namespace TensorKernel

/-! ## Agreement -/

variable {ε : Type} {φ : EvalFault → ε} {α β : Type}

/-- Two results are the same value, or faults of which the same is kept. -/
def Agree (φ : EvalFault → ε) (x y : Except EvalFault α) : Prop :=
  x.mapError φ = y.mapError φ

namespace Agree

variable {x y z : Except EvalFault α}

theorem refl (x : Except EvalFault α) : Agree φ x x := rfl

theorem error {f f' : EvalFault} (h : φ f = φ f') :
    Agree φ (.error f : Except EvalFault α) (.error f') :=
  congrArg Except.error h

theorem bind {f g : α → Except EvalFault β} (h : Agree φ x y)
    (hf : ∀ a, x = .ok a → Agree φ (f a) (g a)) : Agree φ (x >>= f) (y >>= g) := by
  cases x with
  | error e =>
    cases y with
    | error e' => exact congrArg Except.error (Except.error.inj h)
    | ok b => cases h
  | ok a =>
    cases y with
    | error e' => cases h
    | ok b =>
      obtain rfl := Except.ok.inj h
      exact hf a rfl

theorem mapM {γ : Type} {f : α → Except EvalFault γ} {g : β → Except EvalFault γ} (m : α → β)
    {xs : List α} (h : ∀ a ∈ xs, Agree φ (f a) (g (m a))) :
    Agree φ (xs.mapM f) ((xs.map m).mapM g) := by
  induction xs with
  | nil => exact refl _
  | cons a xs ih =>
    rw [List.map_cons, List.mapM_cons, List.mapM_cons]
    refine (h a (List.mem_cons_self ..)).bind fun c _ => ?_
    exact (ih fun a ha => h a (List.mem_cons_of_mem _ ha)).bind fun cs _ => refl _

theorem mapM_same {f g : β → Except EvalFault α} {xs : List β}
    (h : ∀ b ∈ xs, Agree φ (f b) (g b)) : Agree φ (xs.mapM f) (xs.mapM g) := by
  have hmap := mapM (g := g) id h
  rwa [List.map_id] at hmap

/-- Agreement on every fault is equality. -/
theorem eq_of_id (h : Agree id x y) : x = y := by
  cases x <;> cases y <;> exact h

/-- Results that agree on what is kept of a fault agree on their values. -/
theorem toOption_eq (h : Agree φ x y) : x.toOption = y.toOption := by
  cases x <;> cases y <;> first | rfl | cases h
  rfl

end Agree

namespace Meaning

/-! ## Reading related nodes -/

/-- Two graphs and valuations of them that agree on the nodes that may be read. -/
structure Relates (φ : EvalFault → ε) (r : Relocation) (e e' : Entry) (avail : NodeId → Prop)
    (ctx ctx' : EvalContext) (source target : Valuation) : Prop where
  embeds : Graph.Embeds ctx.graph e ctx'.graph e' r
  lt : ∀ id, avail id → id.index < ctx.graph.nodes.size
  val : ∀ id, avail id → Agree φ (source id) (target (r.node id))
  symbol : ∀ name, e.symbol name →
    Agree φ (dim ctx source (.sym name)) (dim ctx' target (r.symbol name))
  scalar : ∀ id, φ (.expectedScalar id) = φ (.expectedScalar (r.node id))
  tensor : ∀ id, φ (.expectedTensor id) = φ (.expectedTensor (r.node id))

/-- Placeholders stand for the same elements wherever they are moved to. -/
theorem get?_ofList_relocated (r : Relocation) (holes : List NodeId) (elems : List Literal)
    (id : NodeId) :
    (Scope.ofList ((holes.map r.node).zip elems)).get? (r.node id) =
      (Scope.ofList (holes.zip elems)).get? id := by
  have hlookup : ∀ pairs : List (NodeId × Literal),
      Table.lookup (r.node id) (pairs.map fun p => (r.node p.1, p.2)) = Table.lookup id pairs := by
    intro pairs
    induction pairs with
    | nil => rfl
    | cons pair rest ih =>
      have hinj : r.node id = r.node pair.1 ↔ id = pair.1 :=
        ⟨fun heq => Graph.Relocation.node_inj r heq, congrArg r.node⟩
      simp only [List.map_cons, Table.lookup, hinj, ih]
  have hzip : (holes.map r.node).zip elems = (holes.zip elems).map fun p => (r.node p.1, p.2) := by
    rw [List.zip_map_left]
    rfl
  simp only [Scope.get?, Scope.ofList, hzip, ← List.map_reverse, hlookup]

namespace Relates

variable {r : Relocation} {e e' : Entry} {avail : NodeId → Prop} {ctx ctx' : EvalContext}
  {val val' : Valuation} (h : Relates φ r e e' avail ctx ctx' val val')
include h

theorem agree_scalar {id : NodeId} (hid : avail id) :
    Agree φ (Meaning.scalar val id) (Meaning.scalar val' (r.node id)) := by
  refine (h.val id hid).bind fun v _ => ?_
  cases v with
  | scalar v => exact .refl _
  | tensor shape data => exact .error (h.scalar id)

theorem agree_tensor {id : NodeId} (hid : avail id) :
    Agree φ (Meaning.tensor val id) (Meaning.tensor val' (r.node id)) := by
  refine (h.val id hid).bind fun v _ => ?_
  cases v with
  | scalar v => exact .error (h.tensor id)
  | tensor shape data => exact .refl _

theorem agree_index {id : NodeId} (hid : avail id) (size : Nat) :
    Agree φ (index val id size) (index val' (r.node id) size) :=
  (h.agree_scalar hid).bind fun _ _ => .refl _

theorem agree_indices {ids : List NodeId} : ∀ {sizes : List Nat}, (∀ id ∈ ids, avail id) →
    Agree φ (indices val ids sizes) (indices val' (ids.map r.node) sizes) := by
  induction ids with
  | nil => exact fun _ => .refl _
  | cons id ids ih =>
    intro sizes hids
    cases sizes with
    | nil => exact .refl _
    | cons size sizes =>
      refine (h.agree_index (hids id (List.mem_cons_self ..)) size).bind fun i _ => ?_
      exact (ih fun id hid => hids id (List.mem_cons_of_mem _ hid)).bind fun is _ => .refl _

theorem agree_dim {d : Dim} (hd : ctx.graph.DimValid e avail d) :
    Agree φ (dim ctx val d) (dim ctx' val' (r.dim d)) := by
  cases d with
  | const n => exact .refl _
  | sym name => exact h.symbol name hd
  | node id => exact (h.agree_scalar hd.avail).bind fun v _ => .refl _

theorem agree_dims {shape : Shape} (hshape : ∀ d ∈ shape, ctx.graph.DimValid e avail d) :
    Agree φ (dims ctx val shape) (dims ctx' val' (shape.map r.dim)) :=
  Agree.mapM r.dim fun d hd => h.agree_dim (hshape d hd)

/-! ## Operators on scalars and bodies -/

omit h in
theorem agree_scalarOp {ok : NodeId → Prop} {op : Op} {dst : NodeId}
    (hop : ctx.graph.ScalarOp ok op dst) (r : Relocation) {sz : ElemSize}
    (hok : ∀ id, ok id → Agree φ (Meaning.scalar val id) (Meaning.scalar val' (r.node id))) :
    Agree φ (scalarOp val op sz) (scalarOp val' (r.opData op) sz) := by
  cases hop with
  | unary harg _ _ _ => exact (hok _ harg).bind fun v _ => .refl _
  | binary hlhs hrhs _ _ _ _ =>
    exact (hok _ hlhs).bind fun l _ => (hok _ hrhs).bind fun v _ => .refl _

/-- What is inside a body agrees: placeholders stand for elements, and the rest is read outside. -/
theorem agree_inside {holes : List NodeId} {elems : List Literal} {id : NodeId}
    (hlength : holes.length = elems.length) (hid : id ∈ holes ∨ avail id) :
    Agree φ (Meaning.scalar (inside val holes elems) id)
      (Meaning.scalar (inside val' (holes.map r.node) elems) (r.node id)) := by
  unfold Meaning.scalar inside
  rw [get?_ofList_relocated]
  cases hfound : (Scope.ofList (holes.zip elems)).get? id with
  | some v => exact .refl _
  | none =>
    have hnot : id ∉ holes := by
      intro hmem
      have hsome := (Scope.get?_ofList_zip hlength id).mpr hmem
      rw [hfound] at hsome
      cases hsome
    exact h.agree_scalar (hid.resolve_left hnot)

theorem agree_body (hc : ctx.graph.Coherent) {outer : List NodeId}
    {pairs : List (NodeId × NodeId)} {inner dst : NodeId}
    (hbody : ctx.graph.BodyValid e avail outer pairs inner)
    (hdst : dst.index < ctx.graph.nodes.size) {elems : List Literal}
    (hlength : pairs.length = elems.length) :
    Agree φ (body ctx val (pairs.map Prod.snd) inner dst elems)
      (body ctx' val' ((pairs.map Prod.snd).map r.node) (r.node inner) (r.node dst) elems) := by
  obtain ⟨o, hproducer, hop, -⟩ := hbody.inner
  have hinner := Graph.lt_of_producer hproducer
  unfold body
  rw [h.embeds.elemSize hdst]
  refine Agree.bind ?_ fun v _ => .refl _
  unfold innerValue
  rw [h.embeds.constant hinner, h.embeds.producer hproducer, hproducer, h.embeds.elemSize hinner]
  cases (ctx.graph.node inner).constant? with
  | some v => exact .refl _
  | none =>
    show Agree φ (scalarOp _ (ctx.graph.op o) _) (scalarOp _ (ctx'.graph.op (r.op o)) _)
    rw [h.embeds.op (hc _ _ hproducer).1]
    refine agree_scalarOp hop r fun id hid => h.agree_inside (by simpa using hlength) ?_
    exact hid.imp_right fun hid => hid.1

/-! ## Operators -/

theorem agree_elementwise (hc : ctx.graph.Coherent) {inputs : List NodeId}
    {pairs : List (NodeId × NodeId)} {inner dst : NodeId} (hinputs : ∀ id ∈ inputs, avail id)
    (houter : ∀ p ∈ pairs, p.1 ∈ inputs) (hdst : dst.index < ctx.graph.nodes.size)
    (hdims : ∀ d ∈ ctx.graph.shape dst, ctx.graph.DimValid e avail d)
    (hbody : ctx.graph.BodyValid e avail inputs pairs inner) :
    Agree φ (elementwise ctx val inputs ⟨pairs, [(inner, dst)]⟩)
      (elementwise ctx' val' (inputs.map r.node) (r.body ⟨pairs, [(inner, dst)]⟩)) := by
  refine (Agree.mapM r.node fun id hid => h.val id (hinputs id hid)).bind fun _ _ => ?_
  have hshape := h.agree_dims hdims
  rw [← h.embeds.shape hdst] at hshape
  refine hshape.bind fun shape _ => ?_
  have hoperands : Agree φ (pairs.mapM fun pair => Meaning.tensor val pair.1)
      ((r.pairs pairs).mapM fun pair => Meaning.tensor val' pair.1) :=
    Agree.mapM (fun pair => (r.node pair.1, r.node pair.2)) fun pair hpair =>
      h.agree_tensor (hinputs _ (houter pair hpair))
  refine hoperands.bind fun operands hok => ?_
  have hlength := length_of_mapM_ok hok
  have hholes : (r.pairs pairs).map Prod.snd = (pairs.map Prod.snd).map r.node := by
    simp [Relocation.pairs]
  -- The elements are read from equal operands; only the body has to be compared.
  have hrows : Agree φ ((Index.rowMajor shape).mapM fun idx => do
        let elems ← elements operands idx
        body ctx val (pairs.map Prod.snd) inner dst elems)
      ((Index.rowMajor shape).mapM fun idx => do
        let elems ← elements operands idx
        body ctx' val' ((r.pairs pairs).map Prod.snd) (r.node inner) (r.node dst) elems) := by
    refine Agree.mapM_same fun idx _ => (Agree.refl _).bind fun elems helems => ?_
    have hcount := length_of_mapM_ok helems
    rw [hholes]
    exact h.agree_body hc hbody hdst (by omega)
  exact hrows.bind fun data _ => .refl _

omit h in
theorem agree_fold {combine combine' : Literal → Literal → Except EvalFault Literal}
    (hcombine : ∀ v cell, Agree φ (combine v cell) (combine' v cell)) (axes outShape : List Nat)
    (data : Array Literal) (idxs : List (List Nat)) : ∀ (i : Nat) (cells : Array Literal),
      Agree φ (fold combine axes outShape data idxs i cells)
        (fold combine' axes outShape data idxs i cells) := by
  induction idxs with
  | nil => exact fun _ _ => .refl _
  | cons idx rest ih =>
    intro i cells
    refine (Agree.refl _).bind fun v _ => (Agree.refl _).bind fun cell _ => ?_
    exact (hcombine v cell).bind fun next _ => ih _ _

theorem agree_reduction (hc : ctx.graph.Coherent) {arg init x acc inner dst : NodeId}
    (axes : List Nat) (harg : avail arg) (hinit : avail init)
    (hdst : dst.index < ctx.graph.nodes.size)
    (hbody : ctx.graph.BodyValid e avail [] [(arg, x), (init, acc)] inner) :
    Agree φ (reduction ctx val axes arg init [x, acc] inner dst)
      (reduction ctx' val' axes (r.node arg) (r.node init) ([x, acc].map r.node) (r.node inner)
        (r.node dst)) := by
  refine (h.agree_tensor harg).bind fun operand _ => ?_
  refine (h.agree_scalar hinit).bind fun start _ => ?_
  refine (agree_fold (fun v cell => h.agree_body hc hbody hdst rfl) _ _ _ _ _ _).bind
    fun cells _ => ?_
  rw [h.embeds.isScalar hdst]
  exact .refl _

theorem agree_getItem {target dst : NodeId} {is : List NodeId} (htarget : avail target)
    (his : ∀ id ∈ is, avail id) (hdst : dst.index < ctx.graph.nodes.size) :
    Agree φ (getItem ctx val target is dst)
      (getItem ctx' val' (r.node target) (is.map r.node) (r.node dst)) := by
  refine (h.agree_tensor htarget).bind fun operand _ => ?_
  refine (h.agree_indices his).bind fun idx _ => ?_
  rw [h.embeds.elemSize hdst]
  exact .refl _

theorem agree_setItem {target value dst : NodeId} {is : List NodeId} (htarget : avail target)
    (hvalue : avail value) (his : ∀ id ∈ is, avail id)
    (hdst : dst.index < ctx.graph.nodes.size) :
    Agree φ (setItem ctx val target value is dst)
      (setItem ctx' val' (r.node target) (r.node value) (is.map r.node) (r.node dst)) := by
  refine (h.agree_tensor htarget).bind fun operand _ => ?_
  refine (h.agree_scalar hvalue).bind fun v _ => (h.agree_indices his).bind fun idx _ => ?_
  rw [h.embeds.elemSize hdst]
  exact .refl _

theorem agree_starts {selected : List SliceIndex} : ∀ {sizes : List Nat},
    (∀ i ∈ selected, ∀ id ∈ i.nodes, avail id) →
    Agree φ (starts val selected sizes) (starts val' (selected.map r.index) sizes) := by
  induction selected with
  | nil =>
    intro sizes _
    induction sizes with
    | nil => exact .refl _
    | cons size sizes ih => exact ih.bind fun rest _ => .refl _
  | cons i selected ih =>
    intro sizes hselected
    have hrest := fun j hj => hselected j (List.mem_cons_of_mem _ hj)
    have hhead := hselected i (List.mem_cons_self ..)
    cases sizes with
    | nil => exact .refl _
    | cons size sizes =>
      cases i with
      | element id =>
        refine (h.agree_index (hhead id (by simp [SliceIndex.nodes])) size).bind fun start _ => ?_
        exact (ih hrest).bind fun rest _ => .refl _
      | range lower upper step =>
        refine (h.agree_scalar (hhead lower (by simp [SliceIndex.nodes]))).bind fun start _ => ?_
        refine (h.agree_scalar (hhead step (by simp [SliceIndex.nodes]))).bind fun stride _ => ?_
        exact (ih hrest).bind fun rest _ => .refl _

theorem agree_slice {target dst : NodeId} {selected : List SliceIndex} {sizes : Shape}
    (htarget : avail target) (hselected : ∀ i ∈ selected, ∀ id ∈ i.nodes, avail id)
    (hsizes : ∀ d ∈ sizes, ctx.graph.DimValid e avail d)
    (hdims : ∀ d ∈ ctx.graph.shape dst, ctx.graph.DimValid e avail d)
    (hdst : dst.index < ctx.graph.nodes.size) :
    Agree φ (slice ctx val target selected sizes dst)
      (slice ctx' val' (r.node target) (selected.map r.index) (sizes.map r.dim) (r.node dst)) := by
  refine (h.agree_tensor htarget).bind fun operand _ => ?_
  refine (h.agree_dims hsizes).bind fun sizes _ => ?_
  refine (h.agree_starts hselected).bind fun steps _ => (Agree.refl _).bind fun out _ => ?_
  rw [h.embeds.shape hdst]
  exact (h.agree_dims hdims).bind fun outShape _ => .refl _

/-- An operator means the same where its graph is embedded. -/
theorem agree_operator (hc : ctx.graph.Coherent) {op : Op} {dst : NodeId}
    (hop : ctx.graph.Computes e avail op dst) (hdst : dst.index < ctx.graph.nodes.size) :
    Agree φ (operator ctx val op dst) (operator ctx' val' (r.opData op) (r.node dst)) := by
  obtain ⟨hdims, hvalid⟩ := hop
  cases hvalid with
  | scalar hop =>
    have hscalar : Agree φ (scalarOp val op (ctx.graph.elemSize dst))
        (scalarOp val' (r.opData op) (ctx'.graph.elemSize (r.node dst))) := by
      rw [h.embeds.elemSize hdst]
      exact agree_scalarOp hop r fun id hid => h.agree_scalar hid
    cases hop <;> exact hscalar.bind fun v _ => .refl _
  | elementwise hinputs houter sdst size body =>
    exact h.agree_elementwise hc hinputs (fun p hp => (houter p hp).1) hdst hdims body
  | reduction harg hinit sarg sinit isize full partly size body =>
    exact h.agree_reduction hc _ harg hinit hdst body
  | getItem htarget starget hindices rank sdst size =>
    exact h.agree_getItem htarget (fun id hid => (hindices id hid).avail) hdst
  | setItem htarget starget hvalue svalue hindices rank type =>
    exact h.agree_setItem htarget hvalue (fun id hid => (hindices id hid).avail) hdst
  | slice htarget starget hselected selectedLe rank hsizes trims sdst size =>
    exact h.agree_slice htarget (fun i hi id hid => (hselected i hi id hid).avail) hsizes hdims hdst
  | copy hkind hsrc same =>
    rcases hkind with rfl | rfl <;>
    · refine (h.val _ hsrc).bind fun v _ => ?_
      rw [h.embeds.elemSize hdst]
      exact .refl _

end Relates

end Meaning

end TensorKernel
