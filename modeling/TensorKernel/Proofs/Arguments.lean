import TensorKernel.Proofs.ClosedBodies
import TensorKernel.Proofs.TypeSoundness

/-!
# Which arguments a function accepts

Binding finds the size of a shape symbol at one recorded axis of one parameter, and compares it with
the axes of all other parameters afterwards.  The main statement says what this comes to: arguments
are accepted exactly if they are of the kinds of their parameters and have the declared shapes under
some assignment of sizes to the symbols.  There is only one such assignment, and evaluation uses it.

The elements of an argument are counted in a word.  So the number of elements is compared with the
product of the sizes only if that product fits into a word.
-/

namespace TensorKernel

/-- The size that a dimension declares if the shape symbols have the given sizes. -/
def Dim.declared? (size : String → Nat) : Dim → Option Nat
  | .const n => some n.toNat
  | .sym name => some (size name)
  | .node _ => none

/-- A constant that may be the size of an axis is that size. -/
theorem Dim.constSize_of_bounded {n : Int} (h : (Dim.const n).Bounded) : constSize n = n.toNat := by
  obtain ⟨hnonneg, hmax⟩ := h
  unfold maxConst at hmax
  rw [constSize, Word.ofInt, Int.emod_eq_of_lt hnonneg (by omega)]

/-- A dimension that parameters are declared with. -/
def Dim.Declarable (d : Dim) : Prop :=
  d.Bounded ∧ ∀ id, d ≠ .node id

namespace Graph

/-- A dimension stands in the shape of a node, or among the sizes of a slice. -/
def Mentions (g : Graph) (d : Dim) : Prop :=
  (∃ id, d ∈ g.shape id) ∨ ∃ o selected sizes, (g.op o).kind = .slice selected sizes ∧ d ∈ sizes

end Graph

namespace FunctionGraph

/-! ## One argument -/

section Argument

variable {g : Graph} {id : NodeId} {v : Value}

/--
A scalar for a parameter that is one, and a tensor for any other, which has as many elements as are
counted from its sizes.
-/
def Suits (count : List Nat → Nat) (g : Graph) (id : NodeId) : Value → Prop
  | .scalar _ => g.isScalar id = true
  | .tensor shape data => g.isScalar id = false ∧ data.size = count shape

instance (count : List Nat → Nat) (g : Graph) (id : NodeId) :
    (v : Value) → Decidable (Suits count g id v)
  | .scalar _ => inferInstanceAs (Decidable (_ = _))
  | .tensor _ _ => inferInstanceAs (Decidable (_ ∧ _))

/-- Counting in words makes no difference if the product of the sizes fits into a word. -/
theorem suits_count_iff (hfits : Index.size v.shape < Word.count) :
    Suits Index.count g id v ↔ Suits Index.size g id v := by
  cases v with
  | scalar x => exact Iff.rfl
  | tensor shape data =>
    have hcount : Index.count shape = Index.size shape := Word.wrap_of_lt hfits
    rw [Suits, Suits, hcount]

/-- An argument is bound if it is of the kind of its parameter and of the same rank. -/
theorem exists_bindArgument_iff {param : String} :
    (∃ w, bindArgument g param id v = .ok w) ↔
      Suits Index.count g id v ∧ v.shape.length = (g.shape id).length := by
  constructor
  · rintro ⟨w, hw⟩
    obtain ⟨-, hrank, hkind⟩ := bindArgument_spec hw
    cases v with
    | scalar x => exact ⟨hkind, hrank⟩
    | tensor shape data => exact ⟨⟨hkind.1, hkind.2.symm⟩, hrank⟩
  · rintro ⟨hsuits, hrank⟩
    cases v with
    | scalar x => exact ⟨_, if_pos hsuits⟩
    | tensor shape data =>
      have hkind : ¬ ((g.node id).isScalar = true ∨ shape.length ≠ (g.node id).shape.length) := by
        rw [not_or, not_not, Bool.not_eq_true]
        exact ⟨hsuits.1, hrank⟩
      refine ⟨_, (if_neg hkind).trans (if_neg ?_)⟩
      rw [not_not]
      exact hsuits.2.symm

/-- Sizes are the declared ones if there is one for each dimension, and each agrees with its own. -/
theorem map_declared?_eq_iff {size : String → Nat} {shape : Shape}
    (hshape : ∀ d ∈ shape, d.Declarable) : ∀ {ns : List Nat},
    shape.map (Dim.declared? size) = ns.map some ↔
      ns.length = shape.length ∧ ∀ q ∈ shape.zip ns, SizedBy size q.1 q.2 := by
  induction shape with
  | nil =>
    intro ns
    cases ns <;> simp
  | cons d shape ih =>
    intro ns
    obtain ⟨hd, hrest⟩ := List.forall_mem_cons.mp hshape
    cases ns with
    | nil => simp
    | cons n ns =>
      have hhead : d.declared? size = some n ↔ SizedBy size d n := by
        cases d with
        | const k =>
          rw [Dim.declared?, SizedBy, Option.some.injEq, Dim.constSize_of_bounded hd.1]
          exact eq_comm
        | sym name => exact Option.some_inj.trans eq_comm
        | node id => exact absurd rfl (hd.2 id)
      rw [List.map_cons, List.map_cons, List.cons.injEq, ih hrest, hhead, List.zip_cons_cons,
        List.forall_mem_cons, List.length_cons, List.length_cons, Nat.succ_inj]
      exact and_left_comm

end Argument

/-! ## All arguments -/

/-- Every argument is of the kind of its parameter. -/
def SuitsAll (f : FunctionGraph) (count : List Nat → Nat) (args : List Value) : Prop :=
  ∀ p ∈ f.inputs.zip args, Suits count f.graph p.1.2 p.2

/-- Every argument has the declared shape of its parameter if the symbols have the given sizes. -/
def ShapedBy (f : FunctionGraph) (size : String → Nat) (args : List Value) : Prop :=
  ∀ p ∈ f.inputs.zip args, (f.graph.shape p.1.2).map (Dim.declared? size) = p.2.shape.map some

instance (f : FunctionGraph) (count : List Nat → Nat) (args : List Value) :
    Decidable (f.SuitsAll count args) :=
  inferInstanceAs (Decidable (∀ p ∈ f.inputs.zip args, Suits count f.graph p.1.2 p.2))

instance (f : FunctionGraph) (size : String → Nat) (args : List Value) :
    Decidable (f.ShapedBy size args) :=
  inferInstanceAs (Decidable (∀ p ∈ f.inputs.zip args, _ = _))

/-- Whatever becomes of the evaluation, it does not refuse the arguments. -/
def Accepts (f : FunctionGraph) (args : List Value) : Prop :=
  ∀ fault, f.eval args = .error fault → fault.refusesArguments = false

section Built

variable {f : FunctionGraph} {sz : ElemSize} {args : List Value} {size : String → Nat}
  (hf : f.WellFormed sz) (hs : f.Settled)

section WellFormed

include hf

/-- Evaluation refuses the arguments exactly if they cannot be bound. -/
theorem WellFormed.accepts_iff : f.Accepts args ↔ ∃ given sizes, f.bindAll args = .ok (given, sizes) := by
  have heval := hf.evaluable.eval_eq hf.outputs args
  constructor
  · intro haccepts
    cases hbind : f.bindAll args with
    | ok bound => exact ⟨bound.1, bound.2, rfl⟩
    | error fault =>
      rw [hbind] at heval
      have hrefuses : fault.refusesArguments = true := (safe_bindAll hf.interface args).1 fault hbind
      rw [haccepts fault heval] at hrefuses
      cases hrefuses
  · rintro ⟨given, sizes, hbind⟩ fault hfault
    rw [hbind] at heval
    exact ((hf.safe_results hbind).1 fault (heval.symm.trans hfault)).bound

/-- Two assignments under which the arguments have the declared shapes agree on all symbols. -/
theorem ShapedBy.unique (hlength : f.inputs.length = args.length) (h : f.ShapedBy size args)
    {size' : String → Nat} (h' : f.ShapedBy size' args) {name : String}
    (hname : f.symbols.contains name = true) : size' name = size name := by
  obtain ⟨symbol, hsymbol⟩ := Table.get?_eq_some_of_contains hname
  obtain ⟨hmem, haxis⟩ := hf.interface.symbolArg _ (Table.mem_of_get? hsymbol)
  obtain ⟨p, hp, hid⟩ := exists_mem_zip hlength hmem
  have hdeclared := congrArg (fun sizes => sizes[symbol.axis]?) ((h' p hp).trans (h p hp).symm)
  rw [← hid] at haxis
  simpa only [List.getElem?_map, haxis, Option.map_some, Dim.declared?, Option.some.injEq]
    using hdeclared

end WellFormed

section Settled

include hf hs

/-- The dimensions of parameters are constants that are sizes, and known symbols. -/
theorem WellFormed.declarable {id : NodeId} (hid : id ∈ f.inputs.map Prod.snd) {d : Dim}
    (hd : d ∈ f.graph.shape id) :
    d.Declarable ∧ ∀ name, d = .sym name → f.symbols.contains name = true := by
  have hbounded := hs.bounded id d hd
  rcases hf.valid.entry.dims (Or.inl hid) d hd with ⟨n, rfl⟩ | ⟨name, rfl, hname⟩
  · exact ⟨⟨hbounded, nofun⟩, nofun⟩
  · refine ⟨⟨hbounded, nofun⟩, fun other hother => ?_⟩
    obtain rfl := Dim.sym.inj hother
    exact hname

/-- Arguments that are bound have the declared shapes under the sizes that symbols are bound to. -/
theorem Admits.fits {given : GivenValues} {sizes : Table String Nat} (h : f.Admits args given sizes) :
    f.SuitsAll Index.count args ∧ f.ShapedBy (fun name => (sizes.get? name).getD 0) args := by
  refine ⟨fun p hp => ?_, fun p hp => ?_⟩
  · obtain ⟨v, hv, -⟩ := h.input p hp
    exact (exists_bindArgument_iff.mp ⟨v, hv⟩).1
  · obtain ⟨v, hv, hgiven⟩ := h.input p hp
    have hid : p.1.2 ∈ f.inputs.map Prod.snd := List.mem_map_of_mem (List.of_mem_zip hp).1
    have hshape : v.shape = p.2.shape := by
      rw [(bindArgument_spec hv).1, Value.shape_convert]
    refine (map_declared?_eq_iff fun d hd => (hf.declarable hs hid hd).1).mpr
      ⟨(bindArgument_spec hv).2.1, fun q hq => ?_⟩
    rw [← hshape] at hq
    have hrequired := h.dims hgiven q hq
    obtain ⟨hdeclarable, hknown⟩ := hf.declarable hs hid (List.of_mem_zip hq).1
    generalize q.1 = d at *
    cases d with
    | const n => exact (hrequired _ rfl).symm
    | sym name =>
      obtain ⟨n, hn⟩ := Table.get?_eq_some_of_contains ((h.known name).mpr (hknown name rfl))
      rw [SizedBy, hn]
      exact (hrequired n hn).symm
    | node id => exact absurd rfl (hdeclarable.2 id)

/-- Arguments with the declared shapes are bound, and the symbols to the sizes of the assignment. -/
theorem ShapedBy.exists_bindAll (hlength : f.inputs.length = args.length)
    (hsuits : f.SuitsAll Index.count args) (h : f.ShapedBy size args) :
    ∃ given sizes, f.bindAll args = .ok (given, sizes) ∧
      ∀ name, sizes.get? name = if f.symbols.contains name then some (size name) else none := by
  have hfits : ∀ p ∈ f.inputs.zip args, p.2.shape.length = (f.graph.shape p.1.2).length ∧
      ∀ q ∈ (f.graph.shape p.1.2).zip p.2.shape, SizedBy size q.1 q.2 := fun p hp =>
    (map_declared?_eq_iff fun d hd =>
      (hf.declarable hs (List.mem_map_of_mem (List.of_mem_zip hp).1) hd).1).mp (h p hp)
  obtain ⟨given, sizes, hbind, hsizes⟩ := FunctionGraph.exists_bindAll hf.evaluable hlength
    (fun p hp => exists_bindArgument_iff.mpr ⟨hsuits p hp, (hfits p hp).1⟩)
    fun p hp => (hfits p hp).2
  refine ⟨given, sizes, hbind, fun name => ?_⟩
  have hknown := (admits_of_bindAll hf.interface hbind).known name
  split
  · next hname =>
    obtain ⟨n, hn⟩ := Table.get?_eq_some_of_contains (hknown.mpr hname)
    rw [hn, hsizes name n hn]
  · next hname =>
    rw [← hknown, Table.contains, Option.not_isSome_iff_eq_none] at hname
    exact hname

/-- Evaluation accepts arguments exactly if they suit the parameters and have the declared shapes. -/
theorem WellFormed.accepts_iff_fits (hlength : f.inputs.length = args.length) :
    f.Accepts args ↔ f.SuitsAll Index.count args ∧ ∃ size, f.ShapedBy size args := by
  rw [hf.accepts_iff]
  constructor
  · rintro ⟨given, sizes, hbind⟩
    obtain ⟨hsuits, hshaped⟩ := (admits_of_bindAll hf.interface hbind).fits hf hs
    exact ⟨hsuits, _, hshaped⟩
  · rintro ⟨hsuits, size, hshaped⟩
    obtain ⟨given, sizes, hbind, -⟩ := hshaped.exists_bindAll hf hs hlength hsuits
    exact ⟨given, sizes, hbind⟩

end Settled

end Built

end FunctionGraph

/-! ## Mentioned symbols -/

/-- No symbol is mentioned in a graph but the ones that its parameters introduce. -/
theorem Graph.Enclosed.contains_of_mentions {f : FunctionGraph} (henclosed : f.graph.Enclosed f.entry)
    {sz : ElemSize} (hf : f.WellFormed sz) (hs : f.Settled) {name : String}
    (h : f.graph.Mentions (.sym name)) : f.symbols.contains name = true := by
  rcases h with ⟨id, hd⟩ | ⟨o, selected, sizes, hkind, hd⟩
  · have hscalar : f.graph.isScalar id = true → f.symbols.contains name = true := fun hscalar =>
      absurd hd (Graph.not_mem_shape_of_isScalar hscalar _)
    -- The shape of a node: given nodes know the symbols, and every other class of node is a scalar.
    by_cases hlt : id.index < f.graph.nodes.size
    · rcases hf.valid.classified id hlt with hid | hid | hhole | ⟨o, -, hop, -⟩
      · exact hid.dims hf.valid _ hd
      · exact hid.1.elim
      · rcases hs.graph.idle hlt hhole.producer with hid | hid | hid
        · exact hscalar hid
        · exact absurd hid hhole.notGiven
        · exact absurd hid hhole.notResult
      · exact hscalar hop.isScalar
    · refine hscalar ?_
      rw [Graph.isScalar, Graph.node_of_size_le (Nat.le_of_not_lt hlt)]
      rfl
  -- The sizes of a slice: no other operator carries sizes, and these were checked.
  · by_cases ho : o.index < f.graph.ops.size
    · obtain ⟨dst, hop | ⟨ok, hop⟩⟩ := henclosed.op_cases hf.valid hs.graph ho
      · have hvalid := hop.valid
        generalize f.graph.op o = op at hkind hvalid
        cases hvalid with
        | slice _ _ _ _ _ hsizes _ _ _ =>
          obtain ⟨-, rfl⟩ := OpKind.slice.inj hkind
          exact hsizes _ hd
        | scalar hop => cases hop <;> cases hkind
        | copy hcopy _ _ => rcases hcopy with rfl | rfl <;> cases hkind
        | elementwise | reduction | getItem | setItem => cases hkind
      · generalize f.graph.op o = op at hkind hop
        cases hop <;> cases hkind
    · rw [Graph.op_of_size_le (Nat.le_of_not_lt ho)] at hkind
      cases hkind

/-! ## Built graphs -/

/-- A kernel with a symbol that two parameters share, and a constant dimension. -/
def sharedRows : FunctionDef :=
  let name (id : String) : Expr := .name id .nowhere
  ⟨"rows", [⟨"x", some (.subscript (name "int64") (.tuple [name "M", .int 3 .nowhere] .nowhere)
      .nowhere), .nowhere⟩, ⟨"y", some (.subscript (name "int32") (name "M") .nowhere), .nowhere⟩,
    ⟨"k", some (name "int8"), .nowhere⟩], .missing, [.returns (some (name "M")) .nowhere], .nowhere⟩

end TensorKernel
