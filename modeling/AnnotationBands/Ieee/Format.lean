/-!
Binary interchange formats of IEEE 754, worked out on the bit pattern as a
natural number. A pattern is a sign bit above a *magnitude*; the finite
magnitudes below `infinity` count the non-negative values of the format in
increasing order, and those above it are not numbers.

A finite magnitude stands for `significand * 2 ^ exponent`, which is exact
(`Format.significand`, `Format.exponent`).
-/

namespace AnnotationBands.Ieee

/-- A binary interchange format. -/
structure Format where
  /-- Bits of the significand that are stored: its leading bit is implied. -/
  fractionBits : Nat
  exponentBits : Nat
  deriving DecidableEq

namespace Format

/-- The format of 32 bits. -/
def binary32 : Format := ⟨23, 8⟩

/-- The format of 64 bits. -/
def binary64 : Format := ⟨52, 11⟩

variable (fmt : Format)

/-- The pattern of negative zero, which is the sign bit alone. -/
def signBit : Nat := Nat.pow 2 (fmt.fractionBits + fmt.exponentBits)

/-- A pattern without its sign. -/
def magnitude (pattern : Nat) : Nat := pattern % fmt.signBit

/-- Whether the sign bit is set. -/
def isNegative (pattern : Nat) : Bool := decide (fmt.signBit ≤ pattern)

/-- The magnitude of infinity: all exponent bits set, no fraction. -/
def infinity : Nat := (Nat.pow 2 fmt.exponentBits - 1) * Nat.pow 2 fmt.fractionBits

/-- A pattern that is not a number has a magnitude above infinity. -/
def isNaN (pattern : Nat) : Bool := decide (fmt.infinity < fmt.magnitude pattern)

/-- A pattern that stands for a number has a magnitude below infinity. -/
def isFinite (pattern : Nat) : Bool := decide (fmt.magnitude pattern < fmt.infinity)

/-- The exponent of the last place of the smallest values. -/
def leastExponent : Int := 2 - Nat.pow 2 (fmt.exponentBits - 1) - fmt.fractionBits

/-- How many steps a magnitude's last place is above that of the smallest
values. The two lowest exponent fields share their last place. -/
def scale (magnitude : Nat) : Nat := magnitude / Nat.pow 2 fmt.fractionBits - 1

/-- The exponent of a magnitude's last place. -/
def exponent (magnitude : Nat) : Int := fmt.leastExponent + fmt.scale magnitude

/-- A magnitude as a whole number of units in its last place. -/
def significand (magnitude : Nat) : Nat := magnitude - fmt.scale magnitude * Nat.pow 2 fmt.fractionBits

/-- Equality of the numbers that two patterns stand for: nothing equals a
pattern that is not a number, and both zeros are equal. -/
def numericEq (a b : Nat) : Bool :=
  !fmt.isNaN a && !fmt.isNaN b && (a == b || (fmt.magnitude a == 0 && fmt.magnitude b == 0))

end Format

end AnnotationBands.Ieee
