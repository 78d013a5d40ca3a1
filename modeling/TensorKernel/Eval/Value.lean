import TensorKernel.Literal
import TensorKernel.Word

/-!
# Values and their indices

A tensor holds its elements in row-major order: the last index varies fastest.  `rowMajor` lists the
index vectors of a shape in that order, and `linear` is the position of an index vector in it.

Sizes and positions are exact numbers.  `count` and `place` are what a machine word keeps of them,
by which the elements of a tensor are counted and read.
-/

namespace TensorKernel

/-- The argument or the result of a function. -/
inductive Value where
  | scalar (value : Literal)
  | tensor (shape : List Nat) (data : Array Literal)
deriving DecidableEq, Inhabited

namespace Value

/-- The sizes of the axes; a scalar has none. -/
def shape : Value → List Nat
  | scalar _ => []
  | tensor shape _ => shape

/-- The value with every element in the representation of a type. -/
def convert (v : Value) (sz : ElemSize) : Value :=
  match v with
  | scalar v => scalar (v.convert sz)
  | tensor shape data => tensor shape (data.map fun v => v.convert sz)

end Value

namespace Index

/-- The number of index vectors of a shape. -/
def size (shape : List Nat) : Nat :=
  shape.foldl (· * ·) 1

/-- The number of elements of a tensor, which is counted in a word. -/
def count (shape : List Nat) : Nat :=
  Word.wrap (size shape)

/-- The index vectors of a shape, where the last index varies fastest. -/
def enumerate : List Nat → List (List Nat)
  | [] => [[]]
  | n :: rest => (List.range n).flatMap fun i => (enumerate rest).map (i :: ·)

/-- An axis of size zero leaves no index vectors. -/
theorem enumerate_eq_nil_of_zero_mem {shape : List Nat} (h : 0 ∈ shape) : enumerate shape = [] := by
  induction shape with
  | nil => cases h
  | cons n rest ih =>
    rcases List.mem_cons.mp h with h | h
    · subst h
      rfl
    · simp [enumerate, ih h]

/--
The index vectors of a shape in row-major order.  If an axis is empty there are none, and nothing is
enumerated along the other axes, however long they are.
-/
def rowMajor (shape : List Nat) : List (List Nat) :=
  if shape.contains 0 then [] else enumerate shape

/-- Looking for an empty axis first does not change the enumeration. -/
theorem rowMajor_eq_enumerate (shape : List Nat) : rowMajor shape = enumerate shape := by
  unfold rowMajor
  split
  · next h => exact (enumerate_eq_nil_of_zero_mem (List.contains_iff_mem.mp h)).symm
  · rfl

/-- The position of an index vector in row-major order. -/
def linear (shape index : List Nat) : Nat :=
  (shape.zip index).foldl (fun acc entry => acc * entry.1 + entry.2) 0

/-- The place at which an index vector reads a tensor, which is held in a word. -/
def place (shape index : List Nat) : Nat :=
  Word.wrap (linear shape index)

/--
The index vector by which an operand of an elementwise operator is read.  The operand is aligned at
the last axes, and an axis of size one is always read at its only element.  Axes in front of those
of the result are read at their first element.
-/
def broadcast (shape index : List Nat) : List Nat :=
  let leading := List.replicate (shape.length - index.length) 0
  (shape.zip (leading ++ index.drop (index.length - shape.length))).map fun entry =>
    if entry.1 = 1 then 0 else entry.2

end Index

end TensorKernel
