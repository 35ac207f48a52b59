import AnnotationBands.Codec.Bytewise
import AnnotationBands.Proofs.Canonical
/-!
# The byte code byte by byte

To write a number one byte at a time and to add up the bytes that are taken one
at a time is the same code: what is left of the number after a byte is the exact
quotient, so the division loses nothing, and a total so far is the value of the
bytes so far. The number of codes comes out of the powers of the radix as it does
out of the ranges of each length (`Codec.codewords_eq`). Main statement:
`BandCodec.bytewise_eq_direct`.
-/

namespace AnnotationBands

namespace Codec

variable {c : Codec}

/-! ## Codes -/

theorem sumPowers_eq (n : Nat) (sum power : Int) :
    c.low * (c.sumPowers n sum power).1 + (c.sumPowers n sum power).2 = c.low * sum + power * c.reach n := by
  induction n generalizing sum power with
  | zero => simp [sumPowers, reach]
  | succ n ih =>
    rw [sumPowers, ih, reach]
    push_cast
    ring

theorem codewords_eq (c : Codec) : c.codewords = c.cardinality := by
  have h := c.sumPowers_eq c.maxBytes 0 1
  rw [mul_zero, zero_add, one_mul] at h
  exact h

theorem encodes_iff {value : Int} : 0 ≤ value ∧ value ≤ c.codewords - 1 ↔ c.Encodes value := by
  have hpos : 0 < c.cardinality := by cases c <;> decide
  rw [codewords_eq, Encodes, largest]
  omega

/-- Lifting comes to the one number between `low` and 256 with the same rest. -/
theorem lift_eq {z : Nat} (hz : c.low ≤ z) {d : Int} (hlt : d < c.low + c.radix) (hmod : d % c.radix = z % c.radix) :
    c.lift d = c.digit z := by
  fun_induction lift c d with
  | case1 d hlow ih => exact ih (by omega) (by rw [Int.add_emod_right, hmod])
  | case2 d hlow =>
    have hdiff : (d - c.low) % c.radix = (z - c.low : Int) % c.radix := by rw [Int.sub_emod, hmod, ← Int.sub_emod]
    rw [Int.emod_eq_of_lt (by omega) (by omega)] at hdiff
    rw [digit]
    push_cast [hz]
    omega

theorem putByte_eq (b : Nat) (out : List UInt8) : putByte b out = .ok () (out ++ [UInt8.ofNat b]) := by
  have hbyte : UInt8.ofInt b = UInt8.ofNat b := by
    apply UInt8.toNat_inj.1
    simp [UInt8.ofInt]
    omega
  rw [putByte, hbyte]

theorem putDigits_eq (n z : Nat) (out : List UInt8) : c.putDigits n z out = .ok () (out ++ c.digits n z) := by
  induction n generalizing z out with
  | zero => simp [putDigits, digits, pure, EStateM.pure]
  | succ n ih =>
    rw [putDigits, digits]
    by_cases hlow : z < c.low
    · have hlow' : (z : Int) < c.low := by omega
      simp only [if_pos hlow, if_pos hlow']
      exact bind_of_ok (putByte_eq z out)
    · -- the byte is a digit, so more of the number follows
      have hz : c.low ≤ z := Nat.le_of_not_lt hlow
      have hlow' : ¬ (z : Int) < c.low := by omega
      have hrest : (z : Int).tmod c.radix = ((z % c.radix : Nat) : Int) := by
        rw [Int.tmod_eq_emod_of_nonneg (Int.natCast_nonneg z), Int.natCast_emod]
      have hlift : c.lift ((z : Int).tmod c.radix) = c.digit z := by
        have hmod := Nat.mod_lt z c.radix_pos
        rw [hrest]
        exact lift_eq hz (by omega) (by rw [Int.natCast_emod, Int.emod_emod_of_dvd _ (Int.dvd_refl _)])
      have hle : c.digit z ≤ z := by
        have := c.digit_add_mul hz
        omega
      have hquotient : ((z : Int) - c.digit z).tdiv c.radix = ((z - c.digit z) / c.radix : Nat) := by
        rw [← Int.natCast_sub hle, Int.tdiv_eq_ediv_of_nonneg (Int.natCast_nonneg _), Int.natCast_ediv]
      have hdigit : ¬ (c.digit z : Int) < c.low := by
        have := c.low_le_digit z
        omega
      simp only [if_neg hlow, if_neg hlow', hlift]
      rw [bind_of_ok (putByte_eq _ out), if_neg hdigit, hquotient, ih, List.append_assoc, List.singleton_append]

/-- A value is put at the end of the buffer, or nothing is. -/
theorem putValue_eq (value : Int) (out : List UInt8) :
    (∀ bytes, c.encodeValue value = .ok bytes → c.putValue value out = .ok () (out ++ bytes)) ∧
      ∀ e, c.encodeValue value = .error e → c.putValue value out = .error e out := by
  unfold encodeValue putValue
  by_cases h : c.Encodes value
  · simp only [if_pos h, if_pos (encodes_iff.2 h)]
    refine ⟨?_, fun e he => by cases he⟩
    rintro _ ⟨⟩
    obtain ⟨z, rfl⟩ := Int.eq_ofNat_of_zero_le h.1
    exact putDigits_eq _ z out
  · simp only [if_neg h, if_neg (mt encodes_iff.1 h)]
    refine ⟨fun bytes he => (by cases he), ?_⟩
    rintro _ ⟨⟩
    rfl

theorem putValues_of_ok {values : List Int} {bytes : List UInt8} (h : c.encodeList values = .ok bytes)
    (out : List UInt8) : c.putValues values out = .ok () (out ++ bytes) := by
  induction values generalizing bytes out with
  | nil =>
    obtain rfl : [] = bytes := Except.ok.inj h
    rw [List.append_nil]
    rfl
  | cons value values ih =>
    obtain ⟨first, more, hfirst, hmore, rfl⟩ := encodeList_cons_eq_ok h
    rw [putValues, bind_of_ok ((putValue_eq value out).1 first hfirst), ih hmore, List.append_assoc]

theorem encodeList_cons_eq_error {value : Int} {values : List Int} {e : BandError}
    (h : c.encodeList (value :: values) = .error e) :
    c.encodeValue value = .error e ∨ ∃ first, c.encodeValue value = .ok first ∧ c.encodeList values = .error e := by
  rw [encodeList] at h
  cases hvalue : c.encodeValue value with
  | error e' =>
    rw [hvalue] at h
    exact .inl h
  | ok first =>
    cases hvalues : c.encodeList values with
    | error e' =>
      rw [hvalue, hvalues] at h
      exact .inr ⟨first, rfl, h⟩
    | ok more =>
      rw [hvalue, hvalues] at h
      cases h

/-- The values ahead of the one that has no code are in the buffer. -/
theorem putValues_of_error {values : List Int} {e : BandError} (h : c.encodeList values = .error e)
    (out : List UInt8) : ∃ out', c.putValues values out = .error e out' := by
  induction values generalizing out with
  | nil => cases h
  | cons value values ih =>
    rw [putValues]
    rcases encodeList_cons_eq_error h with hvalue | ⟨first, hfirst, hmore⟩
    · exact ⟨out, bind_of_error ((putValue_eq value out).2 e hvalue)⟩
    · rw [bind_of_ok ((putValue_eq value out).1 first hfirst)]
      exact ih hmore _

theorem takeDigits_of_some {n v : Nat} {input rest : List UInt8} (h : c.absorb n input = some (v, rest))
    (total power : Int) : c.takeDigits n total power input = .ok (total + v * power) rest := by
  induction n generalizing v input total power with
  | zero =>
    obtain ⟨rfl, rfl⟩ := Prod.mk.inj (Option.some.inj h)
    simp [takeDigits, pure, EStateM.pure]
  | succ n ih =>
    cases input with
    | nil => cases h
    | cons b input =>
      rw [takeDigits, bind_of_ok (show takeByte (b :: input) = .ok b input from rfl)]
      simp only [absorb] at h ⊢
      by_cases hlow : b.toNat < c.low
      · rw [if_pos hlow] at h
        obtain ⟨rfl, rfl⟩ := Prod.mk.inj (Option.some.inj h)
        rw [if_pos hlow]
        rfl
      · rw [if_neg hlow] at h
        obtain ⟨⟨w, r⟩, hr, hw⟩ := Option.map_eq_some_iff.1 h
        obtain ⟨rfl, rfl⟩ := Prod.mk.inj hw
        rw [if_neg hlow, ih hr]
        congr 1
        push_cast
        ring

theorem takeDigits_of_none {n : Nat} {input : List UInt8} (h : c.absorb n input = none) (total power : Int) :
    c.takeDigits n total power input = .error (.io .endOfInput) [] := by
  induction n generalizing input total power with
  | zero => cases h
  | succ n ih =>
    cases input with
    | nil => rfl
    | cons b input =>
      rw [takeDigits, bind_of_ok (show takeByte (b :: input) = .ok b input from rfl)]
      simp only [absorb] at h ⊢
      by_cases hlow : b.toNat < c.low
      · rw [if_pos hlow] at h
        cases h
      · rw [if_neg hlow] at h ⊢
        exact ih (Option.map_eq_none_iff.1 h) _ _

theorem takeValue_eq (c : Codec) : c.takeValue = c.decodeValue := by
  funext input
  unfold takeValue decodeValue
  cases h : c.absorb c.maxBytes input with
  | none => rw [takeDigits_of_none h]
  | some found =>
    rw [takeDigits_of_some h, zero_add, mul_one]

theorem takeValues_eq (c : Codec) (n : Nat) : c.takeValues n = c.decodeList n := by
  induction n with
  | zero => rfl
  | succ n ih => rw [takeValues, decodeList, takeValue_eq, ih]

end Codec

/-- Coding byte by byte is coding each value by its digits. -/
theorem BandCodec.bytewise_eq_direct : BandCodec.bytewise = BandCodec.direct := by
  have hencode (c : Codec) (values : List Int) : BandCodec.bytewise.encode c values = c.encodeList values := by
    unfold bytewise
    cases h : c.encodeList values with
    | ok bytes => simp only [Codec.putValues_of_ok h, List.nil_append]
    | error e =>
      obtain ⟨out, hout⟩ := Codec.putValues_of_error h []
      simp only [hout]
  have hdecode (c : Codec) (n : Nat) : BandCodec.bytewise.decode c n = c.decodeList n := c.takeValues_eq n
  rw [direct, ← funext fun c => funext (hencode c), ← funext fun c => funext (hdecode c)]

end AnnotationBands
