import AnnotationBands.Ieee.Rounding
/-!
The shortest decimal that reads back: of all decimals that lie in the interval
of reals that round to a magnitude, one with the fewest digits, and of these
the one nearest to the magnitude's value, ties to the even digit.
-/

namespace AnnotationBands.Ieee

/-- The number `digits * 10 ^ exponent`. -/
structure Decimal where
  digits : Nat
  exponent : Int

namespace Decimal

/-- The digits as characters, the leading one first. -/
def characters (d : Decimal) : List Char := Nat.toDigits 10 d.digits

/-- The exponent of the leading digit. -/
def leadingExponent (d : Decimal) : Int := d.exponent + d.characters.length - 1

end Decimal

namespace Format

variable (fmt : Format)

/-- The reals that round to a magnitude, as bounds in quarters of its last
place, and whether the bounds belong to it. Below a power of two the values lie
twice as close. -/
def quarterBounds (magnitude : Nat) : Nat × Nat × Bool :=
  let m := fmt.significand magnitude
  let below := if m = Nat.pow 2 fmt.fractionBits ∧ 0 < fmt.scale magnitude then 1 else 2
  (4 * m - below, 4 * m + 2, m % 2 == 0)

/-- The multiple of `10 ^ e` that is nearest to the magnitude's value among its
two neighbours there that round to the magnitude, if either does. -/
def onGrid (magnitude : Nat) (e : Int) : Option Decimal :=
  let (low, high, closed) := fmt.quarterBounds magnitude
  let quarter : Ratio := (Ratio.mk 1 1).scaleBy (fmt.exponent magnitude - 2)
  let grid : Ratio := if 0 ≤ e then ⟨Nat.pow 10 e.toNat, 1⟩ else ⟨1, Nat.pow 10 (-e).toNat⟩
  let unit := quarter.div grid
  let value := 4 * fmt.significand magnitude * unit.num
  let reads (d : Nat) : Bool :=
    let x := d * unit.den
    decide (low * unit.num < x ∧ x < high * unit.num) || (closed && (x == low * unit.num || x == high * unit.num))
  let down := value / unit.den
  let nearest := roundDiv value unit.den
  if reads nearest then some ⟨nearest, e⟩
  else if reads down then some ⟨down, e⟩
  else if reads (down + 1) then some ⟨down + 1, e⟩
  else none

/-- Tries finer and finer grids. -/
def firstOnGrid (magnitude : Nat) : Nat → Int → Decimal
  | 0, e => (fmt.onGrid magnitude e).getD ⟨0, 0⟩
  | n + 1, e =>
    match fmt.onGrid magnitude e with
    | some d => d
    | none => firstOnGrid magnitude n (e - 1)

/-- The shortest decimal that reads back as a finite magnitude other than zero.
The step of the first grid is above the value, and the last grid has more
digits than the two formats ever need. -/
def shortest (magnitude : Nat) : Decimal :=
  let bits : Int := Nat.log2 (fmt.significand magnitude) + 1 + fmt.exponent magnitude
  fmt.firstOnGrid magnitude 24 (bits * 30103 / 100000 + 2)

end Format

end AnnotationBands.Ieee
