import TensorKernel.Buffer.Program
import TensorKernel.Eval.Value
import TensorKernel.Graph.Apply

/-!
# Running buffer programs

What the statements of a buffer program compute on booleans, signed integers and indices.  Integers
are in two's complement, and a scalar is the number that its bits read as with a sign: a boolean has
one bit, so a true one is minus one.  A buffer is reached under the name that allocated it or under
that of a parameter.

Some programs stop without a result: where a division has no result, where memory is read before it
is written or accessed outside of its bounds, and at statements that nothing is said about here,
which are those on floating-point numbers, on views and over several buffers at once.
-/

namespace TensorKernel

namespace ElemSize

/-- The number that the low bits of an integer read as with a sign. -/
def signed (sz : ElemSize) (n : Int) : Int :=
  n.bmod (Nat.pow 2 sz.bits)

/-- The least number that the bits of a type can read as. -/
def least (sz : ElemSize) : Int :=
  -(Nat.pow 2 (sz.bits - 1) : Nat)

/-- The number that represents a value of a type. -/
def number (sz : ElemSize) (v : Literal) : Int :=
  sz.signed v.asInt.toInt

end ElemSize

namespace Buffer

/-! ## Data -/

/--
What a name holds: the number of a scalar or an index, or a buffer with its sizes and the elements
that were written, which are found by their index vectors.
-/
inductive Datum where
  | number (n : Int)
  | buffer (sizes : List Nat) (cells : List Nat → Option Int)

/-- The number of a scalar or an index. -/
def Datum.number? : Datum → Option Int
  | .number n => some n
  | .buffer _ _ => none

theorem Datum.eq_numbers {data : List Datum} : ∀ {ns : List Int},
    data.map number? = ns.map some → data = ns.map .number := by
  induction data with
  | nil =>
    intro ns h
    cases ns with
    | nil => rfl
    | cons n ns => simp at h
  | cons d data ih =>
    intro ns h
    cases ns with
    | nil => simp at h
    | cons n ns =>
      obtain ⟨hd, hdata⟩ := List.cons.inj h
      cases d with
      | number m => rw [Option.some.inj hd, ih hdata, List.map_cons]
      | buffer sizes cells => cases hd

/-- The buffer that represents a tensor, whose elements are in row-major order. -/
def Datum.ofTensor (sz : ElemSize) (shape : List Nat) (data : Array Literal) : Datum :=
  .buffer shape fun idx =>
    if idx ∈ Index.enumerate shape then (data[Index.linear shape idx]?).map sz.number else none

/-- The cells of the buffer of a tensor. -/
def Datum.cells (sz : ElemSize) (shape : List Nat) (data : Array Literal) (idx : List Nat) :
    Option Int :=
  if idx ∈ Index.enumerate shape then (data[Index.linear shape idx]?).map sz.number else none

/-- What represents a value with elements of a type. -/
def Datum.ofValue (sz : ElemSize) : Value → Datum
  | .scalar v => .number (sz.number v)
  | .tensor shape data => .ofTensor sz shape data

/-- What names hold. -/
abbrev Store := NameKey → Option Datum

namespace Store

/-- The store without names. -/
def empty : Store := fun _ => none

/-- The store in which a name holds something else. -/
def set (M : Store) (n : Name) (d : Datum) : Store :=
  fun key => if key = n.key then some d else M key

/-- The store in which names hold the given data. -/
def ofList (entries : List (Name × Datum)) : Store :=
  entries.foldl (fun M entry => M.set entry.1 entry.2) .empty

/-- The number that a name holds. -/
def number? (M : Store) (n : Name) : Option Int :=
  match M n.key with
  | some (.number k) => some k
  | _ => none

/-- The sizes of a buffer and what was written to it. -/
def buffer? (M : Store) (n : Name) : Option (List Nat × (List Nat → Option Int)) :=
  match M n.key with
  | some (.buffer sizes cells) => some (sizes, cells)
  | _ => none

/-- The number that a name holds as an index, which is not negative. -/
def index? (M : Store) (n : Name) : Option Nat := do
  let k ← M.number? n
  if 0 ≤ k then some k.toNat else none

/-- An element of a buffer. -/
def load? (M : Store) (n : Name) (idx : List Nat) : Option Int := do
  let (_, cells) ← M.buffer? n
  cells idx

/-- The store after an element of a buffer was written. -/
def store? (M : Store) (n : Name) (idx : List Nat) (k : Int) : Option Store := do
  let (sizes, cells) ← M.buffer? n
  if idx ∈ Index.enumerate sizes then
    some (M.set n (.buffer sizes fun other => if other = idx then some k else cells other))
  else none

/-- The store after every element of a buffer was written. -/
def fill? (M : Store) (n : Name) (k : Int) : Option Store := do
  let (sizes, _) ← M.buffer? n
  some (M.set n (.buffer sizes fun idx => if idx ∈ Index.enumerate sizes then some k else none))

end Store

/-! ## Operations -/

/-- The type whose bits arithmetic works on. -/
def Ty.integer? : Ty → Option ElemSize
  | scalar sz => if sz.isFloatingPoint then none else some sz
  | _ => none

/-- What arithmetic gives.  A quotient has to exist and to fit. -/
def ArithOp.eval? (op : ArithOp) (sz : ElemSize) (l r : Int) : Option Int :=
  match op with
  | addI => some (sz.signed (l + r))
  | subI => some (sz.signed (l - r))
  | mulI => some (sz.signed (l * r))
  | floorDivSI => if r = 0 ∨ l = sz.least ∧ r = -1 then none else some (sz.signed (l.fdiv r))
  | remSI => if r = 0 ∨ l = sz.least ∧ r = -1 then none else some (l.tmod r)
  | andI => some (BitVec.ofInt sz.bits l &&& BitVec.ofInt sz.bits r).toInt
  | orI => some (BitVec.ofInt sz.bits l ||| BitVec.ofInt sz.bits r).toInt
  | xorI => some (BitVec.ofInt sz.bits l ^^^ BitVec.ofInt sz.bits r).toInt
  | maxSI => some (max l r)
  | minSI => some (min l r)
  | _ => none

/-- Whether a comparison holds. -/
def Predicate.holds (predicate : Predicate) (l r : Int) : Bool :=
  match predicate with
  | eq => l = r
  | ne => l ≠ r
  | lt => l < r
  | le => l ≤ r
  | gt => r < l
  | ge => r ≤ l

/-- The number of a boolean. -/
def truth (b : Bool) : Int :=
  if b then -1 else 0

/-- What a conversion gives. -/
def CastOp.eval? (op : CastOp) (source target : Ty) (n : Int) : Option Int :=
  match op, source, target with
  | extSI, .scalar _, .scalar _ => some n
  | extUI, .scalar s, .scalar _ => some (n % (Nat.pow 2 s.bits : Nat))
  | truncI, .scalar _, .scalar t => some (t.signed n)
  | indexCast, .index, .scalar t => some (t.signed n)
  | indexCast, .scalar _, .index => some n
  | _, _, _ => none

/-- The number of a constant of a type. -/
def constant? (v : Literal) : Ty → Option Int
  | .index => some v.asInt.toInt
  | .scalar sz => if sz.isFloatingPoint then none else some (sz.number (v.convert sz))
  | _ => none

/-- The sizes of a buffer: those that its type states, and the given ones at the other axes. -/
def extents : List (Option Int) → List Nat → Option (List Nat)
  | [], [] => some []
  | some n :: shape, sizes => (extents shape sizes).map (n.toNat :: ·)
  | none :: shape, size :: sizes => (extents shape sizes).map (size :: ·)
  | _, _ => none

/-- A step of a reduction: the element at an index vector is combined with its cell. -/
def reduceElement (combine : Store → Option (List Datum)) (src dst x acc : Name) (axes : List Nat)
    (M : Store) (idx : List Nat) : Option Store := do
  let v ← M.load? src idx
  let cell ← M.load? dst (Graph.withoutAxes axes idx)
  match ← combine ((M.set x (.number v)).set acc (.number cell)) with
  | [.number n] => M.store? dst (Graph.withoutAxes axes idx) n
  | _ => none

/-! ## Statements -/

/-- Whether a statement computes a number from numbers. -/
def Stmt.isNumeric : Stmt → Bool
  | constant .. | arith .. | compare .. | select .. | cast .. => true
  | _ => false

/-- The values that a block ends with. -/
def Stmt.values? : Stmt → Option (List Operand)
  | yield values => some values
  | returns values => some values
  | _ => none

mutual

/-- The store after a statement.  What a region defines is gone after it. -/
def Stmt.exec : Stmt → Store → Option Store
  | .constant dst v type, M => do
    let n ← constant? v type
    some (M.set dst (.number n))
  | .arith dst op lhs rhs type, M => do
    let sz ← type.integer?
    let l ← M.number? lhs
    let r ← M.number? rhs
    let n ← op.eval? sz l r
    some (M.set dst (.number n))
  | .compare dst predicate lhs rhs type, M => do
    let _ ← type.integer?
    let l ← M.number? lhs
    let r ← M.number? rhs
    some (M.set dst (.number (truth (predicate.holds l r))))
  | .select dst condition yes no _, M => do
    let c ← M.number? condition
    let y ← M.number? yes
    let n ← M.number? no
    some (M.set dst (.number (if c = 0 then n else y)))
  | .cast dst op arg source target, M => do
    let n ← M.number? arg
    let n ← op.eval? source target n
    some (M.set dst (.number n))
  | .dim dst src axis, M => do
    let (sizes, _) ← M.buffer? src.name
    let axis ← M.index? axis
    let size ← sizes[axis]?
    some (M.set dst (.number size))
  | .alloc dst sizes (.memref _ shape), M => do
    let sizes ← sizes.mapM M.index?
    let sizes ← extents shape sizes
    some (M.set dst (.buffer sizes fun _ => none))
  | .alloca dst (.memref _ shape), M => do
    let sizes ← extents shape []
    some (M.set dst (.buffer sizes fun _ => none))
  | .load dst src indices, M => do
    let idx ← indices.mapM M.index?
    let n ← M.load? src.name idx
    some (M.set dst (.number n))
  | .store value dst indices, M => do
    let n ← M.number? value
    let idx ← indices.mapM M.index?
    M.store? dst.name idx n
  | .fill value dst, M => do
    let n ← M.number? value.name
    M.fill? dst.name n
  | .reduce [src] [dst] axes [x, acc] body, M => do
    let (sizes, _) ← M.buffer? src.name
    (Index.enumerate sizes).foldlM
      (reduceElement (fun M => run body M) src.name dst.name x.name acc.name axes) M
  | _, _ => none

/-- What a block ends with. -/
def run : List Stmt → Store → Option (List Datum)
  | [], _ => none
  | s :: rest, M =>
    match s.values? with
    | some values => values.mapM fun v => M v.name.key
    | none => do
      let M ← s.exec M
      run rest M

end

/-- What the function returns for arguments, which are given in the order of its parameters. -/
def Function.run (fn : Function) (args : List Datum) : Option (List Datum) :=
  Buffer.run fn.body (.ofList ((fn.params.map Operand.name).zip args))

end Buffer

end TensorKernel
