/-!
# Doubles as exact numbers

`Binary64.ofFloat` reads the bits of a double as an exact number `± mantissa · 2 ^ exponent`.  The
exact view serves two rules that the arithmetic of doubles alone cannot express: the remainder of a
division, which is always representable, and the shortest decimal text of a number.
-/

namespace TensorKernel

/-- The number that a double stands for. -/
inductive Binary64 where
  | notANumber
  | infinite (negative : Bool)
  | finite (negative : Bool) (mantissa : Nat) (exponent : Int)
deriving DecidableEq, Inhabited

namespace Binary64

/-- The number of bits of the mantissa that are stored. -/
def storedBits : Nat := 52

/-- The number of exponents that are stored; the last of them marks what is no finite number. -/
def exponentCount : Nat := 2048

/-- The exponent of the last bit of the numbers next to zero. -/
def leastExponent : Int := -1074

/-- The number with the given bits: a sign, eleven bits of exponent and the stored mantissa. -/
def ofBits (bits : Nat) : Binary64 :=
  let negative := bits / Nat.pow 2 63 % 2 == 1
  let exponent : Nat := bits / Nat.pow 2 storedBits % exponentCount
  let mantissa : Nat := bits % Nat.pow 2 storedBits
  if exponent = exponentCount - 1 then
    if mantissa = 0 then infinite negative else notANumber
  else if exponent = 0 then finite negative mantissa leastExponent
  else finite negative (Nat.pow 2 storedBits + mantissa) (leastExponent + (exponent - 1))

/-- The number a double stands for. -/
def ofFloat (x : Float) : Binary64 :=
  ofBits x.toBits.toNat

/--
The absolute value of a remainder on the finer of the two grids of its operands, with the exponent
of that grid.
-/
def remainderOnGrid (lm : Nat) (le : Int) (rm : Nat) (re : Int) : Nat × Int :=
  let grid := min le re
  ((lm * Nat.pow 2 (le - grid).toNat) % (rm * Nat.pow 2 (re - grid).toNat), grid)

/--
The remainder of the division that rounds towards zero.  It takes the sign of the dividend, an
infinite divisor leaves the dividend as it is, and there is none of an infinite dividend or for a
divisor of zero.
-/
def remainder (l r : Float) : Float :=
  match ofFloat l, ofFloat r with
  | finite negative lm le, finite _ rm re =>
    if rm = 0 then 0.0 / 0.0
    else
      let (mantissa, grid) := remainderOnGrid lm le rm re
      let x := (Float.ofNat mantissa).scaleB grid
      if negative then -x else x
  | finite _ _ _, infinite _ => l
  | _, _ => 0.0 / 0.0

/-- The remainder is smaller than the divisor on the common grid. -/
theorem remainderOnGrid_lt (lm : Nat) (le : Int) (rm : Nat) (re : Int) (h : 0 < rm) :
    (remainderOnGrid lm le rm re).1 <
      rm * Nat.pow 2 (re - (remainderOnGrid lm le rm re).2).toNat :=
  Nat.mod_lt _ (Nat.mul_pos h (Nat.two_pow_pos _))

end Binary64

end TensorKernel
