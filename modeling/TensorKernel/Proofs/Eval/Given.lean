import TensorKernel.Proofs.Build.WellFormed
import TensorKernel.Proofs.Eval.Evaluation
import TensorKernel.Proofs.Eval.Typing

/-!
# Arguments of functions

`FunctionGraph.Admits` says what the arguments of a function give: values to the nodes of parameters
and shape symbols, and sizes to the symbols, which agree with every declared dimension.  Evaluation
starts there, so that a result is the meaning of its node, and it starts there whenever the
arguments fit one assignment of sizes to symbols.
-/

namespace TensorKernel

theorem Value.shape_convert (v : Value) (sz : ElemSize) : (v.convert sz).shape = v.shape := by
  cases v <;> rfl

namespace FunctionGraph

variable {g : Graph}

/-! ## Parameters -/

section Parameters

variable {inputs : List (String × NodeId)}

/-- Every parameter has its converted argument, and nothing else has changed. -/
theorem bindArguments_ok : ∀ {given given' : GivenValues} {args : List Value},
    inputs.length = args.length → (inputs.map Prod.snd).Nodup →
    bindArguments g given inputs args = .ok given' →
      (∀ p ∈ inputs.zip args, ∃ v, bindArgument g p.1.1 p.1.2 p.2 = .ok v ∧
        given'.get? p.1.2 = some v) ∧
      ∀ id, id ∉ inputs.map Prod.snd → given'.get? id = given.get? id := by
  induction inputs with
  | nil =>
    intro given given' args _ _ h
    obtain rfl := Except.ok.inj h
    exact ⟨by simp, fun _ _ => rfl⟩
  | cons input inputs ih =>
    intro given given' args hlength hnodup h
    cases args with
    | nil => cases hlength
    | cons arg args =>
      obtain ⟨param, id⟩ := input
      rw [List.map_cons, List.nodup_cons] at hnodup
      obtain ⟨v, hv, h⟩ := exists_of_bind_ok h
      obtain ⟨hinputs, hrest⟩ := ih (Nat.succ.inj hlength) hnodup.2 h
      have hid : given'.get? id = some v := by
        rw [hrest id hnodup.1, Table.get?_insert_self]
      refine ⟨fun p hp => ?_, fun other hother => ?_⟩
      · rcases List.mem_cons.mp hp with rfl | hp
        · exact ⟨v, hv, hid⟩
        · exact hinputs p hp
      · rw [List.map_cons, List.mem_cons, not_or] at hother
        rw [hrest other hother.2, Table.get?_insert, if_neg hother.1]

theorem bindArguments_keys : ∀ {given given' : GivenValues} {args : List Value},
    inputs.length = args.length → (inputs.map Prod.snd ++ given.keys).Nodup →
    bindArguments g given inputs args = .ok given' →
      given'.keys.Perm (inputs.map Prod.snd ++ given.keys) := by
  induction inputs with
  | nil =>
    intro given given' args _ _ h
    obtain rfl := Except.ok.inj h
    exact .refl _
  | cons input inputs ih =>
    intro given given' args hlength hnodup h
    cases args with
    | nil => cases hlength
    | cons arg args =>
      obtain ⟨param, id⟩ := input
      rw [List.map_cons, List.cons_append, List.nodup_cons] at hnodup
      obtain ⟨v, -, h⟩ := exists_of_bind_ok h
      have hnew : given.contains id = false := by
        rw [Bool.eq_false_iff]
        intro hmem
        exact hnodup.1 (List.mem_append_right _ ((Table.contains_iff_mem_keys _ _).mp hmem))
      have hinsert : (given.insert id v).keys.Perm (id :: given.keys) :=
        (Table.insert_perm v hnew).map Prod.fst
      have hmove : (inputs.map Prod.snd ++ (given.insert id v).keys).Perm
          (id :: (inputs.map Prod.snd ++ given.keys)) :=
        (hinsert.append_left _).trans List.perm_middle
      exact (ih (Nat.succ.inj hlength)
        (hmove.nodup_iff.mpr (List.nodup_cons.mpr hnodup)) h).trans hmove

/-- The parameters are bound if every argument fits its parameter. -/
theorem exists_bindArguments : ∀ {args : List Value},
    (∀ p ∈ inputs.zip args, ∃ v, bindArgument g p.1.1 p.1.2 p.2 = .ok v) →
    ∀ given, ∃ given', bindArguments g given inputs args = .ok given' := by
  induction inputs with
  | nil => exact fun _ given => ⟨given, rfl⟩
  | cons input inputs ih =>
    intro args h given
    cases args with
    | nil => exact ⟨given, rfl⟩
    | cons arg args =>
      obtain ⟨param, id⟩ := input
      obtain ⟨v, hv⟩ := h _ (List.mem_cons_self ..)
      obtain ⟨given', hrest⟩ := ih (fun p hp => h p (List.mem_cons_of_mem _ hp)) (given.insert id v)
      refine ⟨given', ?_⟩
      rw [bindArguments, hv]
      exact hrest

/-- An argument of a parameter has its rank. -/
theorem bindArgument_spec {param : String} {id : NodeId} {v w : Value}
    (h : bindArgument g param id v = .ok w) : w = v.convert (g.elemSize id) ∧
      v.shape.length = (g.shape id).length ∧ match v with
      | .scalar _ => g.isScalar id = true
      | .tensor shape data => g.isScalar id = false ∧ Index.count shape = data.size := by
  unfold bindArgument at h
  cases v with
  | scalar x =>
    dsimp only at h
    split at h
    · next hscalar =>
      refine ⟨(Except.ok.inj h).symm, ?_, hscalar⟩
      rw [Graph.shape_of_isScalar hscalar]
      rfl
    · cases h
  | tensor shape data =>
    dsimp only at h
    split at h
    · cases h
    · next hshape =>
      rw [not_or, not_not, Bool.not_eq_true] at hshape
      split at h
      · cases h
      · next hcount =>
        exact ⟨(Except.ok.inj h).symm, hshape.2, hshape.1, not_not.mp hcount⟩

end Parameters

/-! ## Shape symbols -/

section Symbols

variable {entries : List (String × ShapeSymbol)}

/-- The size of the axis that a shape symbol stands for. -/
def axisSize? (given : GivenValues) (symbol : ShapeSymbol) : Option Nat :=
  (given.get? symbol.arg).bind fun v => v.shape[symbol.axis]?

/-- The value of the scalar that holds a size. -/
def sizeValue (g : Graph) (id : NodeId) (n : Nat) : Value :=
  .scalar ((Literal.int (Int64.ofNat n)).convert (g.elemSize id))

theorem bindSymbols_cons {given : GivenValues} {sizes : Table String Nat} {name : String}
    {symbol : ShapeSymbol} {n : Nat} (h : axisSize? given symbol = some n) :
    bindSymbols g given sizes ((name, symbol) :: entries) =
      bindSymbols g (given.insert symbol.node (sizeValue g symbol.node n)) (sizes.insert name n)
        entries := by
  unfold axisSize? at h
  rw [bindSymbols, h]
  rfl

/-- A value for another node leaves the axis that a symbol stands for as it is. -/
theorem axisSize?_insert_of_ne {given : GivenValues} {symbol : ShapeSymbol} {node : NodeId}
    (v : Value) (hne : symbol.arg ≠ node) :
    axisSize? (given.insert node v) symbol = axisSize? given symbol := by
  unfold axisSize?
  rw [Table.get?_insert, if_neg hne]

/-- A step of binding symbols found the axis that the symbol stands for. -/
theorem exists_axisSize {given given' : GivenValues} {sizes sizes' : Table String Nat}
    {name : String} {symbol : ShapeSymbol}
    (h : bindSymbols g given sizes ((name, symbol) :: entries) = .ok (given', sizes')) :
    ∃ n, axisSize? given symbol = some n := by
  unfold axisSize?
  rw [bindSymbols] at h
  split at h
  · cases h
  · next n hn => exact ⟨n, hn⟩

/-- Every symbol has the size of its axis, and nothing else has changed. -/
theorem bindSymbols_ok : ∀ {given given' : GivenValues} {sizes sizes' : Table String Nat},
    (entries.map fun p => p.2.node).Nodup →
    (∀ p ∈ entries, p.2.arg ∉ entries.map fun p => p.2.node) →
    bindSymbols g given sizes entries = .ok (given', sizes') →
      (∀ p ∈ entries, ∃ n, axisSize? given p.2 = some n ∧
        given'.get? p.2.node = some (sizeValue g p.2.node n)) ∧
      (∀ id, id ∉ (entries.map fun p => p.2.node) → given'.get? id = given.get? id) ∧
      ∀ name, sizes'.contains name = true ↔
        sizes.contains name = true ∨ name ∈ entries.map Prod.fst := by
  induction entries with
  | nil =>
    intro given given' sizes sizes' _ _ h
    obtain ⟨rfl, rfl⟩ := Prod.mk.inj (Except.ok.inj h)
    exact ⟨by simp, fun _ _ => rfl, by simp⟩
  | cons entry entries ih =>
    intro given given' sizes sizes' hnodup hargs h
    obtain ⟨name, symbol⟩ := entry
    rw [List.map_cons, List.nodup_cons] at hnodup
    obtain ⟨n, hn⟩ := exists_axisSize h
    rw [bindSymbols_cons hn] at h
    have hrest : ∀ p ∈ entries, p.2.arg ∉ entries.map fun p => p.2.node := fun p hp hmem =>
      hargs p (List.mem_cons_of_mem _ hp) (List.mem_cons_of_mem _ hmem)
    obtain ⟨hsymbols, hkeep, hsizes⟩ := ih hnodup.2 hrest h
    -- The axes of the other symbols are those of parameters, which the first symbol is not.
    have haxis : ∀ p ∈ entries,
        axisSize? (given.insert symbol.node (sizeValue g symbol.node n)) p.2 =
          axisSize? given p.2 := fun p hp =>
      axisSize?_insert_of_ne _ fun heq =>
        hargs p (List.mem_cons_of_mem _ hp) (heq ▸ List.mem_cons_self ..)
    refine ⟨fun p hp => ?_, fun id hid => ?_, fun other => ?_⟩
    · rcases List.mem_cons.mp hp with rfl | hp
      · refine ⟨n, hn, ?_⟩
        rw [hkeep _ hnodup.1, Table.get?_insert_self]
      · obtain ⟨m, hm, hvalue⟩ := hsymbols p hp
        exact ⟨m, (haxis p hp).symm.trans hm, hvalue⟩
    · rw [List.map_cons, List.mem_cons, not_or] at hid
      rw [hkeep id hid.2, Table.get?_insert, if_neg hid.1]
    · rw [hsizes, Table.contains_insert, List.map_cons, List.mem_cons, Bool.or_eq_true,
        decide_eq_true_eq]
      tauto

theorem bindSymbols_keys : ∀ {given given' : GivenValues} {sizes sizes' : Table String Nat},
    ((entries.map fun p => p.2.node) ++ given.keys).Nodup →
    bindSymbols g given sizes entries = .ok (given', sizes') →
      given'.keys.Perm ((entries.map fun p => p.2.node) ++ given.keys) := by
  induction entries with
  | nil =>
    intro given given' sizes sizes' _ h
    obtain ⟨rfl, rfl⟩ := Prod.mk.inj (Except.ok.inj h)
    exact .refl _
  | cons entry entries ih =>
    intro given given' sizes sizes' hnodup h
    obtain ⟨name, symbol⟩ := entry
    rw [List.map_cons, List.cons_append, List.nodup_cons] at hnodup
    obtain ⟨n, hn⟩ := exists_axisSize h
    rw [bindSymbols_cons hn] at h
    have hnew : given.contains symbol.node = false := by
      rw [Bool.eq_false_iff]
      intro hmem
      exact hnodup.1 (List.mem_append_right _ ((Table.contains_iff_mem_keys _ _).mp hmem))
    have hinsert : (given.insert symbol.node (sizeValue g symbol.node n)).keys.Perm
        (symbol.node :: given.keys) := (Table.insert_perm _ hnew).map Prod.fst
    have hmove : ((entries.map fun p => p.2.node) ++
        (given.insert symbol.node (sizeValue g symbol.node n)).keys).Perm
        (symbol.node :: ((entries.map fun p => p.2.node) ++ given.keys)) :=
      (hinsert.append_left _).trans List.perm_middle
    exact (ih (hmove.nodup_iff.mpr (List.nodup_cons.mpr hnodup)) h).trans hmove

/-- The symbols are bound if each stands for an axis of some argument. -/
theorem exists_bindSymbols : ∀ {given : GivenValues} (sizes : Table String Nat),
    (∀ p ∈ entries, ∃ n, axisSize? given p.2 = some n) →
    (∀ p ∈ entries, p.2.arg ∉ entries.map fun p => p.2.node) →
    ∃ given' sizes', bindSymbols g given sizes entries = .ok (given', sizes') ∧
      ∀ name n, sizes'.get? name = some n →
        sizes.get? name = some n ∨ ∃ p ∈ entries, p.1 = name ∧ axisSize? given p.2 = some n := by
  induction entries with
  | nil => exact fun {given} sizes _ _ => ⟨given, sizes, rfl, fun _ _ h => Or.inl h⟩
  | cons entry entries ih =>
    intro given sizes haxes hargs
    obtain ⟨name, symbol⟩ := entry
    obtain ⟨n, hn⟩ := haxes _ (List.mem_cons_self ..)
    -- Binding a symbol gives a value to its own node, which is no argument of another symbol.
    have haxis : ∀ p ∈ entries,
        axisSize? (given.insert symbol.node (sizeValue g symbol.node n)) p.2 =
          axisSize? given p.2 := fun p hp =>
      axisSize?_insert_of_ne _ fun heq =>
        hargs p (List.mem_cons_of_mem _ hp) (heq ▸ List.mem_cons_self ..)
    obtain ⟨given', sizes', hrest, hsizes⟩ := @ih
      (given.insert symbol.node (sizeValue g symbol.node n)) (sizes.insert name n)
      (fun p hp => by rw [haxis p hp]; exact haxes p (List.mem_cons_of_mem _ hp))
      fun p hp hmem => hargs p (List.mem_cons_of_mem _ hp) (List.mem_cons_of_mem _ hmem)
    refine ⟨given', sizes', (bindSymbols_cons hn).trans hrest, fun other m hm => ?_⟩
    rcases hsizes other m hm with h | ⟨p, hp, hname, h⟩
    · rw [Table.get?_insert] at h
      split at h
      · next heq =>
        obtain rfl := Option.some.inj h
        exact Or.inr ⟨_, List.mem_cons_self .., heq.symm, hn⟩
      · exact Or.inl h
    · exact Or.inr ⟨p, List.mem_cons_of_mem _ hp, hname, (haxis p hp).symm.trans h⟩

end Symbols

/-! ## Checked sizes -/

theorem checkDims_ok (id : NodeId) {sizes : Table String Nat} {pairs : List (Dim × Nat)} :
    checkDims id sizes pairs = .ok () ↔
      ∀ q ∈ pairs, ∀ n, requiredSize sizes q.1 = some n → n = q.2 := by
  induction pairs with
  | nil => simp [checkDims]
  | cons q pairs ih =>
    obtain ⟨d, n⟩ := q
    rw [checkDims, List.forall_mem_cons]
    cases hrequired : requiredSize sizes d with
    | none => simp [ih]
    | some required =>
      by_cases hsame : required = n <;> simp [hsame, ih]

theorem checkSizes_ok {sizes : Table String Nat} {values : List (NodeId × Value)} :
    checkSizes g sizes values = .ok () ↔
      ∀ p ∈ values, ∀ q ∈ (g.shape p.1).zip p.2.shape, ∀ n,
        requiredSize sizes q.1 = some n → n = q.2 := by
  induction values with
  | nil => simp [checkSizes]
  | cons p values ih =>
    obtain ⟨id, v⟩ := p
    rw [List.forall_mem_cons, ← ih, ← checkDims_ok id, checkSizes]
    cases checkDims id sizes ((g.shape id).zip v.shape) with
    | error fault => simp [bind, Except.bind]
    | ok _ => simp [bind, Except.bind]

/-! ## Sizes under an assignment -/

/-- A dimension has a size if symbols have the given sizes; a computed one may have any. -/
def SizedBy (size : String → Nat) : Dim → Nat → Prop
  | .const k, n => n = Dim.constSize k
  | .sym name, n => n = size name
  | .node _, _ => True

/-- The check of a size that is known finds what an assignment has. -/
theorem SizedBy.eq_of_required {size : String → Nat} {sizes : Table String Nat} {d : Dim} {n m : Nat}
    (h : SizedBy size d n) (hsize : ∀ name k, sizes.get? name = some k → k = size name)
    (hm : requiredSize sizes d = some m) : m = n := by
  cases d with
  | const k => exact (Option.some.inj hm).symm.trans h.symm
  | sym name => exact (hsize name m hm).trans h.symm
  | node id => cases hm

/-- A value has the rank of a node, and each of its axes the size that the node has for it. -/
structure ValueSizedBy (g : Graph) (size : String → Nat) (id : NodeId) (v : Value) : Prop where
  rank : v.shape.length = (g.shape id).length
  dims : ∀ q ∈ (g.shape id).zip v.shape, SizedBy size q.1 q.2

/-- An axis whose dimension is a symbol has the size of that symbol. -/
theorem ValueSizedBy.axisSize? {size : String → Nat} {symbol : ShapeSymbol} {name : String} {v : Value}
    {given : GivenValues} (h : ValueSizedBy g size symbol.arg v) (hv : given.get? symbol.arg = some v)
    (hsym : (g.shape symbol.arg)[symbol.axis]? = some (.sym name)) :
    FunctionGraph.axisSize? given symbol = some (size name) := by
  obtain ⟨hlt, -⟩ := List.getElem?_eq_some_iff.mp hsym
  have hlt' : symbol.axis < v.shape.length := h.rank.symm ▸ hlt
  have hget := List.getElem?_eq_getElem hlt'
  have hsize : v.shape[symbol.axis] = size name := h.dims (.sym name, v.shape[symbol.axis])
    (List.mem_of_getElem? (List.getElem?_zip_eq_some.mpr ⟨hsym, hget⟩))
  unfold FunctionGraph.axisSize?
  rw [hv, Option.bind_some, hget, hsize]

/-! ## All arguments -/

/-- What a function is given for some arguments. -/
structure Admits (f : FunctionGraph) (args : List Value) (given : GivenValues)
    (sizes : Table String Nat) : Prop where
  length : f.inputs.length = args.length
  givenBy : f.entry.GivenBy given
  input : ∀ p ∈ f.inputs.zip args, ∃ v, bindArgument f.graph p.1.1 p.1.2 p.2 = .ok v ∧
    given.get? p.1.2 = some v
  symbol : ∀ p ∈ f.symbols.entries, ∃ n, axisSize? given p.2 = some n ∧
    sizes.get? p.1 = some n ∧ given.get? p.2.node = some (sizeValue f.graph p.2.node n)
  known : ∀ name, sizes.contains name = true ↔ f.symbols.contains name = true
  dims : ∀ {id v}, given.get? id = some v → ∀ q ∈ (f.graph.shape id).zip v.shape, ∀ n,
    requiredSize sizes q.1 = some n → n = q.2

section Interface

variable {f : FunctionGraph} {sz : ElemSize} {args : List Value} {given : GivenValues}
  {sizes : Table String Nat} (hf : f.graph.Interface sz f.inputs f.symbols)
include hf

theorem symbolArg_not_symbol : ∀ p ∈ f.symbols.entries,
    p.2.arg ∉ f.symbols.entries.map fun p => p.2.node := by
  intro p hp hmem
  obtain ⟨-, -, hdisjoint⟩ := List.nodup_append.mp hf.nodup
  exact hdisjoint _ (hf.symbolArg p hp).1 _ hmem rfl

/-- Values are given to every parameter and every symbol once. -/
theorem keys_of_bind {given₁ given₂ : GivenValues} {sizes' : Table String Nat}
    (hlength : f.inputs.length = args.length)
    (hargs : bindArguments f.graph .empty f.inputs args = .ok given₁)
    (hbind : bindSymbols f.graph given₁ sizes f.symbols.entries = .ok (given₂, sizes')) :
    given₂.keys.Nodup ∧
      ∀ id, id ∈ given₂.keys ↔ id ∈ f.inputs.map Prod.snd ∨ ∃ p ∈ f.symbols.entries, p.2.node = id := by
  obtain ⟨hinputs, -, -⟩ := List.nodup_append.mp hf.nodup
  have hkeys₁ : given₁.keys.Perm (f.inputs.map Prod.snd) := by
    have hperm := bindArguments_keys hlength (by simpa [Table.keys, Table.empty] using hinputs)
      hargs
    simpa [Table.keys, Table.empty] using hperm
  have hmove := hkeys₁.append_left (f.symbols.entries.map fun p => p.2.node)
  have hnodup := List.nodup_append_comm.mp hf.nodup
  have hkeys := (bindSymbols_keys (hmove.nodup_iff.mpr hnodup) hbind).trans hmove
  refine ⟨hkeys.nodup_iff.mpr hnodup, fun id => ?_⟩
  rw [hkeys.mem_iff, List.mem_append, Or.comm]
  simp

/-- The parameters, the symbols and the sizes are bound one after another. -/
theorem admits_of_bindAll (h : f.bindAll args = .ok (given, sizes)) : f.Admits args given sizes := by
  obtain ⟨hinputs, hsymbols, hdisjoint⟩ := List.nodup_append.mp hf.nodup
  unfold bindAll at h
  split at h
  · cases h
  · next hlength =>
    have hlength : f.inputs.length = args.length := by
      rw [not_not] at hlength
      exact hlength.symm
    obtain ⟨given₁, hargs, h⟩ := exists_of_bind_ok h
    obtain ⟨⟨given₂, sizes₂⟩, hbind, h⟩ := exists_of_bind_ok h
    obtain ⟨_, hchecked, h⟩ := exists_of_bind_ok h
    obtain ⟨rfl, rfl⟩ := Prod.mk.inj (Except.ok.inj h)
    obtain ⟨hinput, -⟩ := bindArguments_ok hlength hinputs hargs
    obtain ⟨hsymbol, hkeep, hknown⟩ := bindSymbols_ok hsymbols (symbolArg_not_symbol hf) hbind
    obtain ⟨-, hkeys⟩ := keys_of_bind hf hlength hargs hbind
    have hdims : ∀ {id v}, given₂.get? id = some v → ∀ q ∈ (f.graph.shape id).zip v.shape, ∀ n,
        requiredSize sizes₂ q.1 = some n → n = q.2 := fun {id v} hv =>
      checkSizes_ok.mp hchecked (id, v) (Table.mem_of_get? hv)
    have hsizes : ∀ name, sizes₂.contains name = true ↔ f.symbols.contains name = true := by
      intro name
      rw [hknown, Table.contains_iff_mem_keys f.symbols]
      simp [Table.contains, Table.keys]
    have haxis : ∀ p ∈ f.symbols.entries, axisSize? given₂ p.2 = axisSize? given₁ p.2 := by
      intro p hp
      unfold axisSize?
      rw [hkeep _ (symbolArg_not_symbol hf p hp)]
    refine ⟨hlength, fun id => ?_, fun p hp => ?_, fun p hp => ?_, hsizes, hdims⟩
    · rw [Table.contains_iff_mem_keys, hkeys]
      rfl
    · obtain ⟨v, hv, hget⟩ := hinput p hp
      refine ⟨v, hv, ?_⟩
      rw [hkeep, hget]
      intro hmem
      exact hdisjoint _ (List.mem_map_of_mem (List.of_mem_zip hp).1) _ hmem rfl
    · -- The size of a symbol is that of its own axis, since this axis was checked as well.
      obtain ⟨n, hn, hvalue⟩ := hsymbol p hp
      obtain ⟨m, hm⟩ := Table.get?_eq_some_of_contains
        ((hsizes p.1).mpr (Table.contains_of_mem hp))
      have hn' : axisSize? given₂ p.2 = some n := (haxis p hp).trans hn
      refine ⟨n, hn', ?_, hvalue⟩
      obtain ⟨v, hv, hshape⟩ := Option.bind_eq_some_iff.mp hn'
      have hpair : (Dim.sym p.1, n) ∈ (f.graph.shape p.2.arg).zip v.shape :=
        List.mem_of_getElem? (List.getElem?_zip_eq_some.mpr ⟨(hf.symbolArg p hp).2, hshape⟩)
      rw [hm, hdims hv _ hpair m hm]

end Interface

/--
A function graph that can be evaluated: its parameters and symbols are what its graph is given.
Nodes may be set apart for a result.
-/
structure Evaluable (sz : ElemSize) (e : Entry) (f : FunctionGraph) : Prop where
  coherent : f.graph.Coherent
  entryValid : f.graph.EntryValid e
  node : ∀ id, e.node id ↔ f.entry.node id
  symbol : ∀ name, e.symbol name ↔ f.symbols.contains name = true
  interface : f.graph.Interface sz f.inputs f.symbols

theorem WellFormed.evaluable {sz : ElemSize} {f : FunctionGraph} (hf : f.WellFormed sz) :
    f.Evaluable sz f.entry where
  coherent := hf.valid.coherent
  entryValid := hf.valid.entry
  node _ := Iff.rfl
  symbol _ := Iff.rfl
  interface := hf.interface

section Evaluable

variable {f : FunctionGraph} {sz : ElemSize} {e : Entry} {args : List Value} {given : GivenValues}
  {sizes : Table String Nat} (hf : f.Evaluable sz e)
include hf

theorem Evaluable.givenBy (h : f.Admits args given sizes) : e.GivenBy given := by
  intro id
  rw [h.givenBy id, hf.node id]

omit hf in
/-- Every parameter is paired with its argument. -/
theorem exists_mem_zip (hlength : f.inputs.length = args.length) {id : NodeId}
    (hid : id ∈ f.inputs.map Prod.snd) : ∃ p ∈ f.inputs.zip args, p.1.2 = id := by
  obtain ⟨input, hinput, rfl⟩ := List.mem_map.mp hid
  obtain ⟨i, hi, rfl⟩ := List.mem_iff_getElem.mp hinput
  have hi' : i < args.length := by rw [← hlength]; exact hi
  exact ⟨(f.inputs[i], args[i]), List.mem_of_getElem? (List.getElem?_zip_eq_some.mpr
    ⟨List.getElem?_eq_getElem hi, List.getElem?_eq_getElem hi'⟩), rfl⟩

omit hf in
/-- Sizes that agree with each dimension are the sizes of the shape. -/
theorem dims_eq_of_zip {ctx : EvalContext} {val : Valuation} {shape : Shape} :
    ∀ {ns : List Nat}, ns.length = shape.length →
      (∀ q ∈ shape.zip ns, Meaning.dim ctx val q.1 = .ok q.2) →
      Meaning.dims ctx val shape = .ok ns := by
  induction shape with
  | nil =>
    intro ns hlength _
    obtain rfl := List.length_eq_zero_iff.mp hlength
    rfl
  | cons d shape ih =>
    intro ns hlength h
    cases ns with
    | nil => cases hlength
    | cons n ns =>
      have hhead : Meaning.dim ctx val d = .ok n := h (d, n) (List.mem_cons_self ..)
      have htail := ih (Nat.succ.inj hlength) fun q hq => h q (List.mem_cons_of_mem _ hq)
      unfold Meaning.dims at htail ⊢
      rw [List.mapM_cons, hhead, htail]
      rfl

/-- What a function is given has the types of its parameters and symbols. -/
theorem Admits.types (h : f.Admits args given sizes) (val : Valuation) {id : NodeId} {v : Value}
    (hv : given.get? id = some v) : Meaning.Types ⟨f.graph, sizes⟩ val id v := by
  have hid : f.entry.node id := (h.givenBy id).mp (by simp [Table.contains, hv])
  rcases hid with hin | ⟨p, hp, rfl⟩
  · obtain ⟨p, hp, rfl⟩ := exists_mem_zip h.length hin
    obtain ⟨w, hw, hget⟩ := h.input p hp
    obtain rfl := Option.some.inj (hget.symm.trans hv)
    obtain ⟨hconvert, hrank, hkind⟩ := bindArgument_spec hw
    generalize p.2 = arg at *
    subst hconvert
    cases arg with
    | scalar x => exact ⟨hkind, Literal.holds_convert x _⟩
    | tensor shape data =>
      refine ⟨hkind.1, dims_eq_of_zip hrank fun q hq => ?_, ?_, fun u hu => ?_⟩
      · have hrequired := h.dims hv q hq
        -- The dimensions of a parameter are constants or symbols, and both were checked.
        rcases hf.entryValid.dims ((hf.node _).mpr (Or.inl hin)) q.1 (List.of_mem_zip hq).1 with
          ⟨n, hn⟩ | ⟨name, hname, hknown⟩
        · rw [hn] at hrequired ⊢
          exact congrArg Except.ok (hrequired _ rfl)
        · obtain ⟨n, hn⟩ := Table.get?_eq_some_of_contains ((h.known name).mpr ((hf.symbol name).mp hknown))
          rw [hname] at hrequired ⊢
          simp only [Meaning.dim, hn]
          exact congrArg Except.ok (hrequired n hn)
      · rw [Array.size_map, ← hkind.2]
        exact Nat.mod_mod _ _
      · obtain ⟨u', -, rfl⟩ := Array.mem_map.mp hu
        exact Literal.holds_convert u' _
  · obtain ⟨n, -, -, hvalue⟩ := h.symbol p hp
    obtain rfl := Option.some.inj (hvalue.symm.trans hv)
    exact ⟨Graph.isScalar_of_type (hf.interface.symbolType p hp), Literal.holds_convert _ _⟩

/-- Evaluation gives the meanings of the results. -/
theorem Evaluable.eval_eq (houtputs : ∀ id ∈ f.outputs, f.graph.Available e id) (args : List Value) :
    f.eval args = (do
      let (given, sizes) ← f.bindAll args
      f.outputs.mapM (meaning ⟨f.graph, sizes⟩ given)) := by
  unfold eval
  cases hbind : f.bindAll args with
  | error fault => rfl
  | ok bound =>
    obtain ⟨given, sizes⟩ := bound
    have hadmits := admits_of_bindAll hf.interface hbind
    have hgiven := hf.givenBy hadmits
    have hfollows : Evaluator.Follows ⟨f.graph, sizes⟩ given e _ _ _ _ :=
      Evaluator.follows_nodes hf.coherent hf.entryValid hgiven (Evaluator.memory_start hgiven)
        houtputs
    exact hfollows.result

/-! ## Fitting arguments -/

/-- Arguments are bound if each fits its parameter and all agree on the sizes of the symbols. -/
theorem exists_bindAll (hlength : f.inputs.length = args.length)
    (hinput : ∀ p ∈ f.inputs.zip args, ∃ v, bindArgument f.graph p.1.1 p.1.2 p.2 = .ok v)
    {size : String → Nat}
    (hsized : ∀ p ∈ f.inputs.zip args, ∀ q ∈ (f.graph.shape p.1.2).zip p.2.shape,
      SizedBy size q.1 q.2) :
    ∃ given sizes, f.bindAll args = .ok (given, sizes) ∧
      ∀ name n, sizes.get? name = some n → n = size name := by
  obtain ⟨hinputs, hsymbols, hdisjoint⟩ := List.nodup_append.mp hf.interface.nodup
  obtain ⟨given₁, hargs⟩ := exists_bindArguments hinput .empty
  obtain ⟨hinput₁, -⟩ := bindArguments_ok hlength hinputs hargs
  have hvalue : ∀ id ∈ f.inputs.map Prod.snd, ∃ v, given₁.get? id = some v ∧
      ValueSizedBy f.graph size id v := by
    intro id hid
    obtain ⟨p, hp, rfl⟩ := exists_mem_zip hlength hid
    obtain ⟨v, hv, hget⟩ := hinput₁ p hp
    obtain ⟨rfl, hrank, -⟩ := bindArgument_spec hv
    refine ⟨_, hget, ?_, ?_⟩
    · rw [Value.shape_convert]
      exact hrank
    · rw [Value.shape_convert]
      exact hsized p hp
  -- Every symbol is bound to the size that the assignment has for it.
  have haxis : ∀ p ∈ f.symbols.entries, axisSize? given₁ p.2 = some (size p.1) := by
    intro p hp
    obtain ⟨hmem, hsym⟩ := hf.interface.symbolArg p hp
    obtain ⟨v, hv, hvsized⟩ := hvalue _ hmem
    exact hvsized.axisSize? hv hsym
  obtain ⟨given₂, sizes, hbind, hsizes⟩ := exists_bindSymbols (g := f.graph) .empty
    (fun p hp => ⟨_, haxis p hp⟩) (symbolArg_not_symbol hf.interface)
  have hsize : ∀ name n, sizes.get? name = some n → n = size name := by
    intro name n hn
    rcases hsizes name n hn with h | ⟨p, hp, rfl, h⟩
    · cases h
    · exact Option.some.inj (h.symm.trans (haxis p hp))
  refine ⟨given₂, sizes, ?_, hsize⟩
  obtain ⟨hsymbol, hkeep, -⟩ := bindSymbols_ok hsymbols (symbolArg_not_symbol hf.interface) hbind
  obtain ⟨hnodup, hkeys⟩ := keys_of_bind hf.interface hlength hargs hbind
  -- So the check of the sizes finds what was assumed of the arguments.
  have hchecked : checkSizes f.graph sizes given₂.entries = .ok () := by
    refine checkSizes_ok.mpr fun p hp q hq n hn => ?_
    have hget := Table.get?_of_mem hnodup (show (p.1, p.2) ∈ given₂.entries from hp)
    have hmem : p.1 ∈ given₂.keys := List.mem_map_of_mem (f := Prod.fst) hp
    rcases (hkeys p.1).mp hmem with hin | ⟨s, hs, heq⟩
    · obtain ⟨v, hv, hvsized⟩ := hvalue p.1 hin
      rw [hkeep p.1 fun hmem => hdisjoint _ hin _ hmem rfl, hv] at hget
      obtain rfl := Option.some.inj hget
      exact (hvsized.dims q hq).eq_of_required hsize hn
    · have hshape : f.graph.shape p.1 = [] := by
        rw [← heq]
        exact Graph.shape_of_isScalar (Graph.isScalar_of_type (hf.interface.symbolType s hs))
      rw [hshape] at hq
      cases hq
  unfold bindAll
  rw [if_neg (not_not.mpr hlength.symm), hargs]
  show (bindSymbols f.graph given₁ .empty f.symbols.entries >>= _) = _
  rw [hbind]
  show (checkSizes f.graph sizes given₂.entries >>= _) = _
  rw [hchecked]
  rfl

end Evaluable

end FunctionGraph

end TensorKernel
