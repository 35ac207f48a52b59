import AnnotationBands.Ieee.Format
/-!
Rounding a quotient of natural numbers to the nearest value of a format, ties
to the even significand, and the arithmetic that follows from it: the exact
result of an operation is a quotient, and the operation rounds it.
-/

namespace AnnotationBands.Ieee

/-- The natural number nearest to `num / den`, ties to even. -/
def roundDiv (num den : Nat) : Nat :=
  let q := num / den
  let twice := 2 * (num % den)
  if twice < den ∨ (twice = den ∧ q % 2 = 0) then q else q + 1

/-- A quotient of two natural numbers. -/
structure Ratio where
  num : Nat
  den : Nat

namespace Ratio

/-- The product with a power of two. -/
def scaleBy (r : Ratio) (e : Int) : Ratio :=
  if 0 ≤ e then ⟨r.num * Nat.pow 2 e.toNat, r.den⟩ else ⟨r.num, r.den * Nat.pow 2 (-e).toNat⟩

def mul (r s : Ratio) : Ratio := ⟨r.num * s.num, r.den * s.den⟩

def div (r s : Ratio) : Ratio := ⟨r.num * s.den, r.den * s.num⟩

end Ratio

namespace Format

variable (fmt : Format)

/-- The exact value of a finite magnitude. -/
def toRatio (magnitude : Nat) : Ratio := (Ratio.mk (fmt.significand magnitude) 1).scaleBy (fmt.exponent magnitude)

/-- The magnitude nearest to a quotient. The last place is chosen so that the
significand has all its bits, or is that of the smallest values; a significand
that rounds up to the next power of two carries into the exponent, and a result
past the largest value is infinity. -/
def ofRatio (r : Ratio) : Nat :=
  if r.num = 0 then 0
  else
    let width : Int := Nat.log2 r.num - Nat.log2 r.den
    let guess := max fmt.leastExponent (width - 1 - fmt.fractionBits)
    let scaled := r.scaleBy (-guess)
    let last := if scaled.num < scaled.den * Nat.pow 2 (fmt.fractionBits + 1) then guess else guess + 1
    let units := r.scaleBy (-last)
    let steps := (last - fmt.leastExponent).toNat
    min fmt.infinity (steps * Nat.pow 2 fmt.fractionBits + roundDiv units.num units.den)

/-- The magnitude nearest to a natural number. -/
def ofNat (n : Nat) : Nat := fmt.ofRatio ⟨n, 1⟩

/-- The product of two finite magnitudes. -/
def mul (a b : Nat) : Nat := fmt.ofRatio ((fmt.toRatio a).mul (fmt.toRatio b))

/-- The quotient of two finite magnitudes, the second of them not zero. -/
def div (a b : Nat) : Nat := fmt.ofRatio ((fmt.toRatio a).div (fmt.toRatio b))

/-- A finite magnitude in another format. -/
def convert (target : Format) (magnitude : Nat) : Nat := target.ofRatio (fmt.toRatio magnitude)

end Format

end AnnotationBands.Ieee
