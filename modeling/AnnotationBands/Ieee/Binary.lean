import AnnotationBands.Ieee.Format
/-!
The two floating-point types of constants, kept as bit patterns. Equality of
the types is equality of the patterns, so every pattern that is not a number is
its own value and the two zeros are apart; equality of the numbers that they
stand for is `numericEq`.
-/

namespace AnnotationBands.Ieee

/-- A pattern of 32 bits. -/
structure Binary32 where
  bits : UInt32
  deriving DecidableEq

/-- A pattern of 64 bits. -/
structure Binary64 where
  bits : UInt64
  deriving DecidableEq

/-- Equality of numbers in 32 bits. -/
def Binary32.numericEq (a b : Binary32) : Bool := Format.binary32.numericEq a.bits.toNat b.bits.toNat

/-- Equality of numbers in 64 bits. -/
def Binary64.numericEq (a b : Binary64) : Bool := Format.binary64.numericEq a.bits.toNat b.bits.toNat

end AnnotationBands.Ieee
