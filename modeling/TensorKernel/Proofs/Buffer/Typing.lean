import TensorKernel.Proofs.Buffer.Scoping

/-!
# Typed buffer programs

When a statement uses names at the types that it states, given which names have which types, and
when a function is typed: every name has the type of its definition.
-/

namespace TensorKernel

namespace Buffer

/-- Whether it is arithmetic on floating-point numbers. -/
def ArithOp.isFloat : ArithOp → Bool
  | addF | subF | mulF | divF | remF | powF | maximumF | minimumF => true
  | _ => false

/--
The types between which an operation converts.  Extensions are to strictly wider types, truncations
to strictly narrower ones; indices are converted to and from the given element sizes.
-/
def CastOp.Legal (castable : ElemSize → Prop) : CastOp → Ty → Ty → Prop
  | extSI, .scalar s, .scalar t =>
    s.isSignedInteger = true ∧ t.isSignedInteger = true ∧ s.bits < t.bits
  | extUI, .scalar s, .scalar t => s = .bool ∧ t.isSignedInteger = true
  | truncI, .scalar s, .scalar t =>
    s.isSignedInteger = true ∧ t.isSignedInteger = true ∧ t.bits < s.bits
  | siToFP, .scalar s, .scalar t => s.isSignedInteger = true ∧ t.isFloatingPoint = true
  | uiToFP, .scalar s, .scalar t => s = .bool ∧ t.isFloatingPoint = true
  | fpToSI, .scalar s, .scalar t => s.isFloatingPoint = true ∧ t.isSignedInteger = true
  | extF, .scalar s, .scalar t =>
    s.isFloatingPoint = true ∧ t.isFloatingPoint = true ∧ s.bits < t.bits
  | truncF, .scalar s, .scalar t =>
    s.isFloatingPoint = true ∧ t.isFloatingPoint = true ∧ t.bits < s.bits
  | indexCast, .index, .scalar t => castable t
  | indexCast, .scalar s, .index => castable s
  | _, _, _ => False

/-- The number of axes of a buffer in memory of its own whose size is not known. -/
def Ty.unknownAxes? : Ty → Option Nat
  | memref _ shape => some (shape.countP Option.isNone)
  | _ => none

/-- A block that yields values of the given types at its end and only there. -/
def Yields (types : List Ty) (block : List Stmt) : Prop :=
  ∃ front values, block = front ++ [.yield values] ∧ (∀ s ∈ front, s.isTerminator = false) ∧
    values.map Operand.type = types

section Rules

variable (castable : ElemSize → Prop) (has : Name → Ty → Prop)

/-- A buffer of the type that it is used at. -/
def Operand.IsBuffer (o : Operand) : Prop :=
  has o.name o.type ∧ o.type.isBuffer = true

/-- One index for every axis. -/
def Indices (rank : Nat) (indices : List Name) : Prop :=
  indices.length = rank ∧ ∀ n ∈ indices, has n .index

/-- The arguments of a region are elements of its buffers, and it yields elements of the results. -/
structure Region (ins outs args : List Operand) (body : List Stmt) : Prop where
  buffers : ∀ o ∈ ins ++ outs, o.IsBuffer has
  args : args.map Operand.type = (ins ++ outs).map fun o => o.type.element
  yields : Yields (outs.map fun o => o.type.element) body

/-- A statement uses names at the types that it states, and these types fit its operation. -/
def Stmt.Typed : Stmt → Prop
  | constant _ _ _ => True
  | arith _ op lhs rhs type => has lhs type ∧ has rhs type ∧ op.isFloat = type.isFloat
  | unary _ _ arg type => has arg type ∧ type.isFloat = true
  | compare _ _ lhs rhs type => has lhs type ∧ has rhs type
  | select _ condition yes no type => has condition (.scalar .bool) ∧ has yes type ∧ has no type
  | cast _ op arg source target => has arg source ∧ op.Legal castable source target
  | dim _ src axis => src.IsBuffer has ∧ has axis .index
  | alloc _ sizes type => Indices has sizes.length sizes ∧ type.unknownAxes? = some sizes.length
  | alloca _ type => type.unknownAxes? = some 0
  | load _ src indices => src.IsBuffer has ∧ Indices has src.type.rank indices
  | store value dst indices =>
    has value dst.type.element ∧ dst.IsBuffer has ∧ Indices has dst.type.rank indices
  | copy src dst =>
    src.IsBuffer has ∧ dst.IsBuffer has ∧ src.type.element = dst.type.element ∧
      src.type.rank = dst.type.rank
  | subView _ src offsets sizes strides type =>
    src.IsBuffer has ∧ Indices has src.type.rank offsets ∧ Indices has src.type.rank sizes ∧
      Indices has src.type.rank strides ∧ type.isBuffer = true ∧
      type.element = src.type.element ∧ type.rank = src.type.rank
  | collapseShape _ src groups type =>
    src.IsBuffer has ∧ type.isBuffer = true ∧ type.element = src.type.element ∧
      groups.flatten = List.range src.type.rank ∧ groups.length = type.rank ∧ [] ∉ groups
  | fill value dst =>
    has value.name value.type ∧ dst.IsBuffer has ∧ value.type = dst.type.element
  | generic maps parallel ins outs args body =>
    Region has ins outs args body ∧ (∀ m ∈ maps, m.rank = parallel) ∧
      (maps.map fun m => m.results.length) = (ins ++ outs).map fun o => o.type.rank
  | reduce ins outs _ args body => Region has ins outs args body
  | yield values => ∀ v ∈ values, has v.name v.type
  | returns values => ∀ v ∈ values, has v.name v.type

end Rules

section Changes

variable {castable : ElemSize → Prop} {has has' : Name → Ty → Prop}

theorem Region.imp (h : ∀ n type, has n type → has' n type) {ins outs args : List Operand}
    {body : List Stmt} (hregion : Region has ins outs args body) : Region has' ins outs args body :=
  ⟨fun o ho => ⟨h _ _ (hregion.buffers o ho).1, (hregion.buffers o ho).2⟩, hregion.args,
    hregion.yields⟩

/-- What is typed stays typed when names get more types. -/
theorem Stmt.Typed.imp (h : ∀ n type, has n type → has' n type) {s : Stmt}
    (hs : s.Typed castable has) : s.Typed castable has' := by
  have hbuffer : ∀ {o : Operand}, o.IsBuffer has → o.IsBuffer has' := fun ho => ⟨h _ _ ho.1, ho.2⟩
  have hindices : ∀ {rank indices}, Indices has rank indices → Indices has' rank indices :=
    fun hi => ⟨hi.1, fun n hn => h _ _ (hi.2 n hn)⟩
  cases s with
  | constant | alloca => exact hs
  | arith => exact ⟨h _ _ hs.1, h _ _ hs.2.1, hs.2.2⟩
  | unary => exact ⟨h _ _ hs.1, hs.2⟩
  | compare => exact ⟨h _ _ hs.1, h _ _ hs.2⟩
  | select => exact ⟨h _ _ hs.1, h _ _ hs.2.1, h _ _ hs.2.2⟩
  | cast => exact ⟨h _ _ hs.1, hs.2⟩
  | dim => exact ⟨hbuffer hs.1, h _ _ hs.2⟩
  | alloc => exact ⟨hindices hs.1, hs.2⟩
  | load => exact ⟨hbuffer hs.1, hindices hs.2⟩
  | store => exact ⟨h _ _ hs.1, hbuffer hs.2.1, hindices hs.2.2⟩
  | copy => exact ⟨hbuffer hs.1, hbuffer hs.2.1, hs.2.2⟩
  | subView =>
    obtain ⟨hsrc, hoffsets, hsizes, hstrides, hrest⟩ := hs
    exact ⟨hbuffer hsrc, hindices hoffsets, hindices hsizes, hindices hstrides, hrest⟩
  | collapseShape => exact ⟨hbuffer hs.1, hs.2⟩
  | fill => exact ⟨h _ _ hs.1, hbuffer hs.2.1, hs.2.2⟩
  | generic => exact ⟨hs.1.imp h, hs.2⟩
  | reduce => exact Region.imp h hs
  | yield | returns => exact fun v hv => h _ _ (hs v hv)

/-- The names that a typed statement reads have types. -/
theorem Stmt.Typed.operands {s : Stmt} (hs : s.Typed castable has) :
    ∀ n ∈ s.operands, ∃ type, has n type := by
  have hregion : ∀ {ins outs args : List Operand} {body : List Stmt},
      Region has ins outs args body → ∀ n ∈ (ins ++ outs).map Operand.name, ∃ type, has n type := by
    intro ins outs args body h n hn
    obtain ⟨o, ho, rfl⟩ := List.mem_map.mp hn
    exact ⟨_, (h.buffers o ho).1⟩
  have hvalues : ∀ {values : List Operand}, (∀ v ∈ values, has v.name v.type) →
      ∀ n ∈ values.map Operand.name, ∃ type, has n type := by
    intro values h n hn
    obtain ⟨v, hv, rfl⟩ := List.mem_map.mp hn
    exact ⟨_, h v hv⟩
  cases s with
  | constant | alloca => simp [Stmt.operands]
  | generic => exact hregion hs.1
  | reduce => exact hregion hs
  | yield | returns => exact hvalues hs
  | subView =>
    obtain ⟨hsrc, hoffsets, hsizes, hstrides, -⟩ := hs
    intro n hn
    simp only [Stmt.operands, List.mem_cons, List.mem_append] at hn
    rcases hn with rfl | (hn | hn) | hn
    · exact ⟨_, hsrc.1⟩
    · exact ⟨_, hoffsets.2 n hn⟩
    · exact ⟨_, hsizes.2 n hn⟩
    · exact ⟨_, hstrides.2 n hn⟩
  | _ => grind [Stmt.Typed, Stmt.operands, Operand.IsBuffer, Indices]

end Changes

/-! ## Typed in context -/

/-- A statement is typed where each known name has the type that is known of it. -/
def TypedIn (castable : ElemSize → Prop) (known : List Operand) (s : Stmt) : Prop :=
  s.Typed castable fun n type => ⟨n, type⟩ ∈ known

namespace TypedIn

variable {castable : ElemSize → Prop} {known : List Operand} {s : Stmt}

theorem persistent : Persistent (TypedIn castable) :=
  fun _ _ _ hsub hs => Stmt.Typed.imp (fun _ _ h => hsub h) hs

theorem readsKnown (h : TypedIn castable known s) : ReadsKnown known s := by
  intro n hn
  obtain ⟨type, htype⟩ := Stmt.Typed.operands h n hn
  exact List.mem_map.mpr ⟨_, htype, rfl⟩

end TypedIn

/-! ## Typed functions -/

/-- In a list of values with different names, the name of a value finds the value. -/
theorem find?_same {ds : List Operand} (hnodup : (ds.map Operand.key).Nodup) {d : Operand}
    (hd : d ∈ ds) : (ds.find? fun other => other.name.same d.name) = some d := by
  have hunique : ∀ other ∈ ds, other.name.same d.name = true → other = d := by
    intro other hother hsame
    exact List.inj_on_of_nodup_map hnodup hother hd (by simpa [Operand.key, Name.same] using hsame)
  cases hfind : ds.find? fun other => other.name.same d.name with
  | none => simpa [Name.same] using List.find?_eq_none.mp hfind d hd
  | some other =>
    have hsame := List.find?_some hfind
    rw [hunique other (List.mem_of_find?_eq_some hfind) hsame]

namespace Function

/-- The type of a name at its definition. -/
def typeOf? (fn : Function) (name : Name) : Option Ty :=
  ((fn.params ++ definitions fn.body).find? fun d => d.name.same name).map Operand.type

/--
A typed function: all definitions have different names, every statement at every depth uses names at
the types of their definitions, and the function returns values of the declared types at its end.
-/
structure WellTyped (fn : Function) : Prop where
  distinct : ((fn.params ++ definitions fn.body).map Operand.key).Nodup
  typed : ∀ s ∈ statements fn.body,
    s.Typed (fun sz => sz.isSignedInteger = true) fun n type => fn.typeOf? n = some type
  returns : ∃ front values, fn.body = front ++ [.returns values] ∧
    (∀ s ∈ front, s.isTerminator = false) ∧ values.map Operand.type = fn.results

/-- It suffices that every statement is typed in the context of what is known before it. -/
theorem typed_of_holds {fn : Function} {castable : ElemSize → Prop}
    (hdistinct : ((fn.params ++ definitions fn.body).map Operand.key).Nodup)
    (h : Holds (TypedIn castable) fn.params fn.body) :
    ∀ s ∈ statements fn.body, s.Typed castable fun n type => fn.typeOf? n = some type := by
  intro s hs
  refine Stmt.Typed.imp (fun n type hknown => ?_) (h.of_mem TypedIn.persistent hs)
  rw [typeOf?, find?_same hdistinct hknown]
  rfl

end Function

end Buffer

end TensorKernel
