/-!
# Single precision

Values of single precision are kept as doubles.  `Binary32.round` takes a double to single precision
and back, by the bits of both formats.  What is not a number becomes the one such value that a format
has, and a number that is too large becomes infinite.
-/

namespace TensorKernel

namespace Binary32

open Float.Model (Format UnpackedFloat)

/-- A number rounded to the nearest one of a format, and to the even one of two. -/
def fit (format : Format) : UnpackedFloat → UnpackedFloat
  | .finite sign mantissa exponent _ => UnpackedFloat.round format sign mantissa exponent
  | x => x

/-- The bits in single precision of a double. -/
def narrow (bits : BitVec Format.binary64.numBits) : BitVec Format.binary32.numBits :=
  UnpackedFloat.pack .binary32 (fit .binary32 (UnpackedFloat.unpack .binary64 bits))

/-- The bits of the double that a number of single precision is. -/
def widen (bits : BitVec Format.binary32.numBits) : BitVec Format.binary64.numBits :=
  UnpackedFloat.pack .binary64 (fit .binary64 (UnpackedFloat.unpack .binary32 bits))

/-- A double rounded to single precision. -/
def round (x : Float) : Float :=
  .ofBits ⟨widen (narrow x.toBits.toBitVec)⟩

end Binary32

end TensorKernel
