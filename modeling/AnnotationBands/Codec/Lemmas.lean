import AnnotationBands.Codec
/-!
A number's digits are read back to the number, whatever bytes follow
(`absorb_digits`).
-/

namespace AnnotationBands.Codec

theorem low_add_radix (c : Codec) : c.low + c.radix = 256 := by cases c <;> rfl

theorem radix_pos (c : Codec) : 0 < c.radix := by cases c <;> decide

theorem digit_lt (c : Codec) (z : Nat) : c.digit z < 256 := by
  have := c.low_add_radix
  have := Nat.mod_lt (z - c.low) c.radix_pos
  unfold digit; omega

theorem low_le_digit (c : Codec) (z : Nat) : c.low ≤ c.digit z := Nat.le_add_right _ _

/-- What is left of a number behind its digit is a number of times the radix. -/
theorem digit_add_mul (c : Codec) {z : Nat} (h : c.low ≤ z) :
    c.digit z + c.radix * ((z - c.low) / c.radix) = z := by
  have := Nat.div_add_mod (z - c.low) c.radix
  unfold digit; omega

theorem sub_digit_div (c : Codec) {z : Nat} (h : c.low ≤ z) :
    (z - c.digit z) / c.radix = (z - c.low) / c.radix := by
  have : z - c.digit z = c.radix * ((z - c.low) / c.radix) := by have := c.digit_add_mul h; omega
  rw [this, Nat.mul_div_cancel_left _ c.radix_pos]

theorem toNat_ofNat_digit (c : Codec) (z : Nat) : (UInt8.ofNat (c.digit z)).toNat = c.digit z := by
  simp [Nat.mod_eq_of_lt (c.digit_lt z)]

/-- A number within reach is read back from its digits, and the bytes behind
them are left. -/
theorem absorb_digits (c : Codec) {n z : Nat} (rest : List UInt8) (h : z < c.reach n) :
    c.absorb n (c.digits n z ++ rest) = some (z, rest) := by
  induction n generalizing z with
  | zero =>
    have : z = 0 := by simp only [reach] at h; omega
    simp [digits, absorb, this]
  | succ n ih =>
    by_cases hz : z < c.low
    · have : z < 256 := by have := c.low_add_radix; omega
      simp [digits, absorb, hz, Nat.mod_eq_of_lt this]
    · have hz : c.low ≤ z := Nat.le_of_not_lt hz
      have hlt : (z - c.low) / c.radix < c.reach n := by
        rw [Nat.div_lt_iff_lt_mul c.radix_pos, Nat.mul_comm]
        simp only [reach] at h; omega
      simp only [digits, Nat.not_lt.mpr hz, if_false, List.cons_append, absorb, c.toNat_ofNat_digit,
        Nat.not_lt.mpr (c.low_le_digit z), c.sub_digit_div hz, ih hlt, Option.map_some, c.digit_add_mul hz]

end AnnotationBands.Codec
