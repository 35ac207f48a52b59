import AnnotationBands.Proofs.Bytewise
/-!
# Each value has one code, and each code one value

The codes of values can stand one behind the other with nothing in between: a
value is read back from its code whatever bytes follow, and takes no byte more
(`Codec.encodeList_roundTrip`). And no bytes are wasted: input is refused only
when it ends inside a code, and all other input begins with the code of some
value (`Codec.decodeValue_canonical`). Both hold of the code as it is put
together byte by byte.
-/

namespace AnnotationBands

namespace Codec

variable {c : Codec}

/-! ## Encoding -/

theorem length_digits (n z : Nat) : (c.digits (n + 1) z).length ≤ n + 1 ∧ 1 ≤ (c.digits (n + 1) z).length := by
  induction n generalizing z with
  | zero =>
    rw [digits]
    split <;> simp [digits]
  | succ n ih =>
    rw [digits]
    split
    · simp
    · have := ih ((z - c.digit z) / c.radix)
      simp only [List.length_cons]
      omega

/-- The bytes are the code of a value, and as many as the codec allows. -/
def IsCode (c : Codec) (value : Int) (bytes : List UInt8) : Prop :=
  c.encodeValue value = .ok bytes ∧ 1 ≤ bytes.length ∧ bytes.length ≤ c.maxBytes

theorem isCode_of_encodeValue {value : Int} {bytes : List UInt8} (h : c.encodeValue value = .ok bytes) :
    c.IsCode value bytes := by
  obtain ⟨-, rfl⟩ := encodeValue_ok h
  obtain ⟨n, hn⟩ : ∃ n, c.maxBytes = n + 1 := by cases c <;> exact ⟨_, rfl⟩
  have hlen := c.length_digits n value.toNat
  rw [← hn] at hlen
  exact ⟨h, hlen.2, hlen.1⟩

theorem encodeValue_error {value : Int} {e : BandError} (h : c.encodeValue value = .error e) :
    ¬ c.Encodes value ∧ e = .valueOutOfRange c value := by
  unfold encodeValue at h
  split at h
  · cases h
  · exact ⟨‹_›, (Except.error.inj h).symm⟩

/-- The first value without a code is the error. -/
theorem encodeList_error {values : List Int} {e : BandError} (h : c.encodeList values = .error e) :
    ∃ x, values.find? (fun x => ¬ c.Encodes x) = some x ∧ e = .valueOutOfRange c x := by
  induction values with
  | nil => cases h
  | cons value values ih =>
    rcases encodeList_cons_eq_error h with hvalue | ⟨first, hfirst, hmore⟩
    · obtain ⟨hcode, rfl⟩ := encodeValue_error hvalue
      exact ⟨value, List.find?_cons_of_pos (by simpa using hcode), rfl⟩
    · obtain ⟨x, hx, rfl⟩ := ih hmore
      refine ⟨x, ?_, rfl⟩
      rw [List.find?_cons_of_neg (by simpa using (encodeValue_ok hfirst).1), hx]

theorem encodeList_ok_iff {values : List Int} : (∃ bytes, c.encodeList values = .ok bytes) ↔
    ∀ x ∈ values, c.Encodes x := by
  constructor
  · rintro ⟨bytes, h⟩
    exact encodeList_encodes h
  · intro hcode
    cases h : c.encodeList values with
    | ok bytes => exact ⟨bytes, rfl⟩
    | error e =>
      obtain ⟨x, hx, -⟩ := encodeList_error h
      have hnone : ¬ c.Encodes x := by simpa using List.find?_some hx
      exact absurd (hcode x (List.mem_of_find?_eq_some hx)) hnone

theorem encodeList_codes {values : List Int} {bytes : List UInt8} (h : c.encodeList values = .ok bytes) :
    ∃ codes, bytes = codes.flatten ∧ List.Forall₂ c.IsCode values codes := by
  induction values generalizing bytes with
  | nil =>
    obtain rfl : [] = bytes := Except.ok.inj h
    exact ⟨[], rfl, .nil⟩
  | cons value values ih =>
    obtain ⟨first, more, hfirst, hmore, rfl⟩ := encodeList_cons_eq_ok h
    obtain ⟨codes, rfl, hcodes⟩ := ih hmore
    exact ⟨first :: codes, rfl, .cons (isCode_of_encodeValue hfirst) hcodes⟩

/-- Values are written exactly when each of them is in the codec's range, and
the first one that is not is the error. Each takes at least one byte and at most
as many as the codec allows, and the values are read back from their bytes,
whatever follows. A value that is put into a buffer has its bytes at the end of
it, or leaves it as it was. -/
theorem encodeList_roundTrip (c : Codec) (values : List Int) (rest : List UInt8) :
    ((∃ bytes, c.encodeList values = .ok bytes) ↔ ∀ x ∈ values, 0 ≤ x ∧ x ≤ c.largest) ∧
    (∀ e, c.encodeList values = .error e →
      ∃ x, values.find? (fun x : Int => ¬ (0 ≤ x ∧ x ≤ c.largest)) = some x ∧ e = .valueOutOfRange c x) ∧
    (∀ bytes, c.encodeList values = .ok bytes →
      (∃ codes, bytes = codes.flatten ∧ List.Forall₂ c.IsCode values codes) ∧
        c.decodeList values.length (bytes ++ rest) = .ok values rest) ∧
    ∀ (x : Int) (buffer : List UInt8),
      (∀ bytes, c.encodeValue x = .ok bytes → c.putValue x buffer = .ok () (buffer ++ bytes)) ∧
        ∀ e, c.encodeValue x = .error e → c.putValue x buffer = .error e buffer := by
  refine ⟨encodeList_ok_iff, fun e he => encodeList_error he, fun bytes hbytes => ?_, putValue_eq⟩
  exact ⟨encodeList_codes hbytes, decodeList_encodeList hbytes rest⟩

/-- Values on both sides of the step from one byte to two, the largest value, and
two values that do not fit a byte. -/
theorem encodeList_roundTrip_boundaries :
    let bytes : List UInt8 := [191, 192, 0, 255, 255, 255, 255, 255]
    unsigned5.encodeList [191, 192, 4346097855] = .ok bytes ∧
      unsigned5.decodeList 3 (bytes ++ [7]) = .ok [191, 192, 4346097855] [7] ∧
      byte1.encodeList [1, 300, -1] = .error (.valueOutOfRange .byte1 300) ∧
      byte1.putValue 300 [1] = .error (.valueOutOfRange .byte1 300) [1] := by
  intro bytes
  obtain ⟨-, -, hread, -⟩ := encodeList_roundTrip .unsigned5 [191, 192, 4346097855] [7]
  obtain ⟨hwritten, hfail, -, hput⟩ := encodeList_roundTrip .byte1 [1, 300, -1] []
  have hbytes : unsigned5.encodeList [191, 192, 4346097855] = .ok bytes := by decide
  refine ⟨hbytes, (hread bytes hbytes).2, ?_, (hput 300 [1]).2 _ (by decide)⟩
  cases h : byte1.encodeList [1, 300, -1] with
  | ok found =>
    have hrange := (hwritten.1 ⟨found, h⟩ 300 (by simp)).2
    exact absurd hrange (by decide)
  | error e =>
    obtain ⟨x, hx, rfl⟩ := hfail e h
    have hfirst : [1, 300, -1].find? (fun x : Int => ¬ (0 ≤ x ∧ x ≤ byte1.largest)) = some 300 := by decide
    obtain rfl : 300 = x := Option.some.inj (hfirst.symm.trans hx)
    rfl

/-! ## Decoding -/

/-- A number is missing only when the input ends before an ending byte and
before the last position. -/
theorem absorb_eq_none {n : Nat} {input : List UInt8} :
    c.absorb n input = none ↔ input.length < n ∧ ∀ b ∈ input, c.low ≤ b.toNat := by
  induction n generalizing input with
  | zero => simp [absorb]
  | succ n ih =>
    cases input with
    | nil => simp [absorb]
    | cons b input =>
      rw [absorb]
      by_cases hlow : b.toNat < c.low
      · rw [if_pos hlow]
        simp only [reduceCtorEq, List.forall_mem_cons, false_iff]
        rintro ⟨-, hb, -⟩
        omega
      · rw [if_neg hlow, Option.map_eq_none_iff, ih, List.forall_mem_cons, List.length_cons, Nat.add_lt_add_iff_right]
        simp [Nat.le_of_not_lt hlow]

theorem decodeValue_eq_error {input : List UInt8} :
    c.decodeValue input = .error (.io .endOfInput) [] ↔ input.length < c.maxBytes ∧ ∀ b ∈ input, c.low ≤ b.toNat := by
  rw [← absorb_eq_none]
  unfold decodeValue
  cases c.absorb c.maxBytes input with
  | none => simp
  | some found => simp

/-- Input is refused exactly when it has fewer bytes than a value may have and
none of them ends the value. All other input begins with the code of a value in
the codec's range, and that value is read; taking the bytes one by one does the
same. Whatever is read as a number of values has the bytes that these values are
written in. -/
theorem decodeValue_canonical (c : Codec) (input : List UInt8) :
    (c.decodeValue input = .error (.io .endOfInput) [] ↔
      input.length < c.maxBytes ∧ ∀ b ∈ input, c.low ≤ b.toNat) ∧
    (¬ (input.length < c.maxBytes ∧ ∀ b ∈ input, c.low ≤ b.toNat) →
      ∃ value bytes rest, input = bytes ++ rest ∧ c.decodeValue input = .ok value rest ∧
        0 ≤ value ∧ value ≤ c.largest ∧ c.encodeValue value = .ok bytes) ∧
    c.takeValue input = c.decodeValue input ∧
    ∀ n values rest, c.decodeList n input = .ok values rest →
      ∃ bytes, input = bytes ++ rest ∧ c.encodeList values = .ok bytes := by
  refine ⟨decodeValue_eq_error, fun hinput => ?_, by rw [takeValue_eq], ?_⟩
  · rw [← decodeValue_eq_error] at hinput
    cases h : c.decodeValue input with
    | error e rest =>
      obtain ⟨rfl, rfl⟩ := decodeValue_error h
      exact absurd h hinput
    | ok value rest =>
      obtain ⟨bytes, hbytes, hsplit⟩ := decodeValue_eq_ok h
      obtain ⟨hlow, hhigh⟩ := (encodeValue_ok hbytes).1
      exact ⟨value, bytes, rest, hsplit, rfl, hlow, hhigh, hbytes⟩
  · intro n values rest h
    obtain ⟨bytes, hbytes, hsplit⟩ := decodeList_eq_ok h
    exact ⟨bytes, hsplit, hbytes⟩

/-- Four bytes of which none ends a value are too few, and a fifth ends every
value. -/
theorem decodeValue_canonical_five_bytes :
    unsigned5.decodeValue [192, 255, 200, 255] = .error (.io .endOfInput) [] ∧
      ∃ value bytes rest, [192, 255, 200, 255, 200, 7] = bytes ++ rest ∧
        unsigned5.decodeValue [192, 255, 200, 255, 200, 7] = .ok value rest ∧
        0 ≤ value ∧ value ≤ 4346097855 ∧ unsigned5.encodeValue value = .ok bytes := by
  have hlargest : unsigned5.largest = 4346097855 := by decide
  obtain ⟨hrefused, -⟩ := decodeValue_canonical .unsigned5 [192, 255, 200, 255]
  obtain ⟨-, hread, -⟩ := decodeValue_canonical .unsigned5 [192, 255, 200, 255, 200, 7]
  rw [hlargest] at hread
  have hshort : ∀ b ∈ ([192, 255, 200, 255] : List UInt8), unsigned5.low ≤ b.toNat := by
    simp [low, radix]
  exact ⟨hrefused.2 ⟨by decide, hshort⟩, hread fun h => absurd h.1 (by decide)⟩

end Codec

end AnnotationBands
