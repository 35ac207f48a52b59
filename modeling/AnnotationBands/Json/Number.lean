import AnnotationBands.Ieee.Binary
import AnnotationBands.Ieee.Rounding
/-!
Numbers of JSON texts. A number is kept as the digits that were written,
because what it means depends on the type that is asked for: an integer has
neither a fraction nor an exponent and fits a word of 64 bits; anything else is
a floating-point number.

A floating-point number is not always the nearest to the decimal that was
written. Its digits make a word of 64 bits until the next one does not fit,
that word is rounded, and the result is multiplied or divided by one power of
ten.
-/

namespace AnnotationBands.Json

open Ieee

/-- A number as it was written. Digits are numbers below ten, the leading one
first. -/
structure Number where
  negative : Bool
  whole : List Nat
  /-- The digits after the point; there is none without a point. -/
  fraction : Option (List Nat)
  /-- Whether the exponent is negative, and its digits. -/
  exponent : Option (Bool × List Nat)

namespace Number

/-- The number that digits stand for. -/
def ofDigits (digits : List Nat) : Nat := digits.foldl (fun n d => 10 * n + d) 0

/-- The integer that was written. Minus zero and what does not fit 64 bits,
signed if negative, is none. -/
def toInt? (n : Number) : Option Int :=
  if n.fraction.isNone && n.exponent.isNone then
    let magnitude := ofDigits n.whole
    if n.negative then
      if 0 < magnitude ∧ magnitude ≤ UInt64.size / 2 then some (-magnitude) else none
    else if magnitude < UInt64.size then some magnitude else none
  else none

/-- Appends digits to a number as long as it fits 64 bits; the number, and how
many digits were left out. -/
def appendDigits : Nat → List Nat → Nat × Nat
  | n, [] => (n, 0)
  | n, d :: ds => if 10 * n + d < UInt64.size then appendDigits (10 * n + d) ds else (n, ds.length + 1)

/-- The digits as one word, and the power of ten that it is to be multiplied
with on account of the place of the point. A digit that is left out counts if
it stands before the point. -/
def significand (n : Number) : Nat × Int :=
  let (whole, leftOut) := appendDigits 0 n.whole
  let fraction := n.fraction.getD []
  let (word, ignored) := appendDigits whole fraction
  (word, leftOut - (fraction.length - ignored : Nat))

/-- The greatest power of ten in 64 bits. -/
def greatestPower : Nat := 308

/-- Multiplies a magnitude with a power of ten, rounding once; `none` if it
grows too large. For a power below the least one, the magnitude is first
divided by the greatest power, as often as it takes. -/
def scaleByTen (magnitude : Nat) (e : Int) : Option Nat :=
  if magnitude = 0 then some 0
  else if 0 ≤ e then
    if e ≤ greatestPower then
      let product := Format.binary64.mul magnitude (Format.binary64.ofNat (Nat.pow 10 e.toNat))
      if product < Format.binary64.infinity then some product else none
    else none
  else if -greatestPower ≤ e then
    some (Format.binary64.div magnitude (Format.binary64.ofNat (Nat.pow 10 (-e).toNat)))
  else
    scaleByTen (Format.binary64.div magnitude (Format.binary64.ofNat (Nat.pow 10 greatestPower))) (e + greatestPower)
termination_by (-e).toNat
decreasing_by simp only [greatestPower] at *; omega

/-- The magnitude in 64 bits; `none` if it is too large. An exponent that does
not fit a signed word of 32 bits is too large for every number but zero, or
makes every number zero. -/
def magnitude64? (n : Number) : Option Nat :=
  let (word, place) := n.significand
  let (negative, digits) := n.exponent.getD (false, [])
  let exponent := ofDigits digits
  if exponent ≤ Int32.maxValue.toInt then
    scaleByTen (Format.binary64.ofNat word) (place + (if negative then -(exponent : Int) else exponent))
  else if word = 0 || negative then some 0 else none

/-- The pattern of a magnitude with a sign. -/
def withSign (fmt : Format) (negative : Bool) (magnitude : Nat) : Nat :=
  if negative then fmt.signBit + magnitude else magnitude

/-- The number in 64 bits; `none` if it is too large. -/
def toBinary64? (n : Number) : Option Binary64 := do
  let magnitude ← n.magnitude64?
  return ⟨UInt64.ofNat (withSign .binary64 n.negative magnitude)⟩

/-- The number in 32 bits. An integer is rounded once; any other number goes
through 64 bits and is `none` only if it is too large for these. -/
def toBinary32? (n : Number) : Option Binary32 := do
  let magnitude ←
    match n.toInt? with
    | some v => some (Format.binary32.ofNat v.natAbs)
    | none => (Format.binary64.convert .binary32) <$> n.magnitude64?
  return ⟨UInt32.ofNat (withSign .binary32 n.negative magnitude)⟩

end Number

end AnnotationBands.Json
