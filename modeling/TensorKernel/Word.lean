/-!
# Machine words

Sizes, counts of elements and places in files are held in words of 64 bits.  `Word.wrap` is what a
word keeps of a number.  Numbers are computed exactly and wrapped once, which comes to the same as
wrapping after every step.
-/

namespace TensorKernel

namespace Word

/-- How many values a word has. -/
def count : Nat := 18446744073709551616

/-- What a word keeps of a number. -/
def wrap (n : Nat) : Nat :=
  n % count

/-- What a word without a sign keeps of an integer. -/
def ofInt (n : Int) : Nat :=
  (n % 18446744073709551616).toNat

/-- A number that fits into a word is kept. -/
theorem wrap_of_lt {n : Nat} (h : n < count) : wrap n = n :=
  Nat.mod_eq_of_lt h

/-- What is kept fits into a word. -/
theorem wrap_lt (n : Nat) : wrap n < count :=
  Nat.mod_lt n (by decide)

end Word

end TensorKernel
