import AnnotationBands.Codec.Lemmas
import AnnotationBands.DecodedBands
import AnnotationBands.Group.Pack
import AnnotationBands.Proofs.Steps
/-!
# The bytes of a band

The bytes of a group are those of its bands one behind the other (`Wire`), with
nothing in between. A reader that knows how many values a band has takes
exactly the bytes of that band (`Codec.decodeList_encodeList`), so reading is
described by what it makes of the bands that are left, whatever bytes follow
them (`Remaining`). Whatever is read takes at least one byte for each value
(`DecodedBands.readIfSent_ok`).
-/

namespace AnnotationBands

/-! ## Values and lists of values -/

namespace Codec

theorem encodeValue_ok {c : Codec} {value : Int} {bytes : List UInt8} (h : c.encodeValue value = .ok bytes) :
    c.Encodes value ∧ bytes = c.digits c.maxBytes value.toNat := by
  unfold encodeValue at h
  split at h
  · exact ⟨‹_›, (Except.ok.inj h).symm⟩
  · cases h

theorem decodeValue_encodeValue {c : Codec} {value : Int} {bytes : List UInt8} (h : c.encodeValue value = .ok bytes)
    (rest : List UInt8) : c.decodeValue (bytes ++ rest) = .ok value rest := by
  obtain ⟨⟨hlow, hhigh⟩, rfl⟩ := encodeValue_ok h
  have hreach : value.toNat < c.reach c.maxBytes := by
    have hpos : 0 < c.cardinality := by cases c <;> decide
    simp only [largest, cardinality] at hhigh hpos
    omega
  simp only [decodeValue, c.absorb_digits rest hreach, Int.toNat_of_nonneg hlow]

theorem encodeList_cons_eq_ok {c : Codec} {value : Int} {values : List Int} {bytes : List UInt8}
    (h : c.encodeList (value :: values) = .ok bytes) :
    ∃ first more, c.encodeValue value = .ok first ∧ c.encodeList values = .ok more ∧ bytes = first ++ more := by
  rw [encodeList] at h
  cases hvalue : c.encodeValue value with
  | error e =>
    rw [hvalue] at h
    cases h
  | ok first =>
    cases hvalues : c.encodeList values with
    | error e =>
      rw [hvalue, hvalues] at h
      cases h
    | ok more =>
      rw [hvalue, hvalues] at h
      exact ⟨first, more, rfl, rfl, (Except.ok.inj h).symm⟩

/-- The values of a band are read back from its bytes, and the bytes behind
them are left. -/
theorem decodeList_encodeList {c : Codec} {values : List Int} {bytes : List UInt8}
    (h : c.encodeList values = .ok bytes) (rest : List UInt8) :
    c.decodeList values.length (bytes ++ rest) = .ok values rest := by
  induction values generalizing bytes with
  | nil =>
    obtain rfl : [] = bytes := Except.ok.inj h
    rfl
  | cons value values ih =>
    obtain ⟨first, more, hv, hvs, rfl⟩ := encodeList_cons_eq_ok h
    rw [List.append_assoc]
    exact (bind_of_ok (decodeValue_encodeValue hv _)).trans (bind_of_ok (ih hvs))

theorem absorb_length {c : Codec} {n v : Nat} {input rest : List UInt8} (h : c.absorb n input = some (v, rest)) :
    rest.length + min n 1 ≤ input.length := by
  induction n generalizing input v with
  | zero =>
    obtain ⟨-, rfl⟩ := Prod.mk.inj (Option.some.inj h)
    simp
  | succ n ih =>
    cases input with
    | nil => cases h
    | cons b input =>
      simp only [absorb] at h
      split at h
      · obtain ⟨-, rfl⟩ := Prod.mk.inj (Option.some.inj h)
        simp
      · obtain ⟨⟨w, r⟩, hr, hw⟩ := Option.map_eq_some_iff.1 h
        obtain ⟨-, rfl⟩ := Prod.mk.inj hw
        have hle : r.length + min n 1 ≤ input.length := ih hr
        simp only [List.length_cons]
        omega

theorem decodeValue_ok {c : Codec} {value : Int} {input rest : List UInt8} (h : c.decodeValue input = .ok value rest) :
    rest.length + 1 ≤ input.length := by
  unfold decodeValue at h
  split at h
  · obtain ⟨-, rfl⟩ := EStateM.Result.ok.inj h
    have := absorb_length ‹_›
    cases c <;> simpa [maxBytes] using this
  · cases h

/-- What is read has as many values as were asked for, and each took a byte. -/
theorem decodeList_ok {c : Codec} {n : Nat} {values : List Int} {input rest : List UInt8}
    (h : c.decodeList n input = .ok values rest) : values.length = n ∧ values.length + rest.length ≤ input.length := by
  induction n generalizing values input with
  | zero =>
    obtain ⟨rfl, rfl⟩ := EStateM.Result.ok.inj h
    simp
  | succ n ih =>
    obtain ⟨value, mid, hv, h⟩ := bind_eq_ok.1 h
    obtain ⟨more, last, hvs, h⟩ := bind_eq_ok.1 h
    obtain ⟨rfl, rfl⟩ := EStateM.Result.ok.inj h
    have := decodeValue_ok hv
    have := ih hvs
    simp only [List.length_cons]
    omega

end Codec

theorem Sink.write_ok {bytes : List UInt8} {sink sink' : Sink} {u : Unit} (h : write bytes sink = .ok u sink') :
    sink'.received = sink.received ++ bytes := by
  unfold write at h
  split at h
  · obtain ⟨-, rfl⟩ := EStateM.Result.ok.inj h
    rfl
  · split at h
    · obtain ⟨-, rfl⟩ := EStateM.Result.ok.inj h
      rfl
    · cases h

/-! ## Bands one behind the other -/

/-- The bytes of bands one behind the other, of those that the kind sends. -/
def Wire (kind : Kind) (bands : Bands) : List Band → List UInt8 → Prop
  | [], bytes => bytes = []
  | b :: bs, bytes => ∃ first more, bytes = first ++ more ∧ Wire kind bands bs more ∧
      if b.isTransmitted kind then b.codec.encodeList (bands.get b) = .ok first else first = []

/-- Empty bands take no bytes. -/
theorem wire_nil {kind : Kind} {bands : Bands} (h : ∀ b, bands.get b = []) (bs : List Band) :
    Wire kind bands bs [] := by
  induction bs with
  | nil => rfl
  | cons b bs ih =>
    refine ⟨[], [], rfl, ih, ?_⟩
    rw [h b]
    split <;> rfl

/-- What packing bands one by one adds to a sink. -/
theorem Group.packBands_ok {kind : Kind} {bands : Bands} {bs : List Band} {n : Nat} {sink sink' : Sink}
    (h : packBands .direct bands (bs.filter (·.isTransmitted kind)) sink = .ok n sink') :
    ∃ bytes, sink'.received = sink.received ++ bytes ∧ n = bytes.length ∧ Wire kind bands bs bytes := by
  induction bs generalizing n sink with
  | nil =>
    obtain ⟨rfl, rfl⟩ := EStateM.Result.ok.inj h
    exact ⟨[], by simp, rfl, rfl⟩
  | cons b bs ih =>
    cases hb : b.isTransmitted kind with
    | false =>
      rw [List.filter_cons_of_neg (by simp [hb])] at h
      obtain ⟨bytes, hreceived, hn, hwire⟩ := ih h
      exact ⟨bytes, hreceived, hn, [], bytes, rfl, hwire, by simp [hb]⟩
    | true =>
      rw [List.filter_cons_of_pos (by simp [hb])] at h
      obtain ⟨first, _, hencode, h⟩ := bind_eq_ok.1 h
      obtain ⟨hfirst, rfl⟩ := orThrow_eq_ok.1 hencode
      obtain ⟨_, mid, hwrite, h⟩ := bind_eq_ok.1 h
      obtain ⟨m, last, hmore, h⟩ := bind_eq_ok.1 h
      obtain ⟨rfl, rfl⟩ := EStateM.Result.ok.inj h
      obtain ⟨more, hreceived, rfl, hwire⟩ := ih hmore
      refine ⟨first ++ more, ?_, by simp, first, more, rfl, hwire, ?_⟩
      · rw [hreceived, Sink.write_ok hwrite, List.append_assoc]
      · rw [if_pos hb]
        exact hfirst

/-! ## Reading bands one by one -/

namespace DecodedBands

variable {kind : Kind} {bands : Bands} {b : Band} {bs : List Band} {n : Nat}

theorem readBand_eq_ok {values : List Int} {input rest : List UInt8} :
    readBand .direct b n input = .ok values rest ↔ b.codec.decodeList n input = .ok values rest := by
  unfold readBand
  split
  · rename_i hd
    rw [show b.codec.decodeList n input = _ from hd]
  all_goals
    rename_i hd
    simp [show b.codec.decodeList n input = _ from hd]

theorem readBand_ok {values : List Int} {input rest : List UInt8} (h : readBand .direct b n input = .ok values rest) :
    values.length = n ∧ values.length + rest.length ≤ input.length := Codec.decodeList_ok (readBand_eq_ok.1 h)

theorem readIfSent_ok {values : List Int} {input rest : List UInt8}
    (h : readIfSent .direct kind b n input = .ok values rest) :
    (b.isTransmitted kind = true → values.length = n) ∧ values.length + rest.length ≤ input.length := by
  unfold readIfSent at h
  split at h
  · exact ⟨fun _ => (readBand_ok h).1, (readBand_ok h).2⟩
  · obtain ⟨rfl, rfl⟩ := EStateM.Result.ok.inj h
    exact ⟨fun hb => absurd hb ‹_›, by simp⟩

/-- With the bytes of the given bands ahead, whatever follows them, the input
step takes these bytes and gives its result. -/
def Remaining (kind : Kind) (bands : Bands) (bs : List Band) {α : Type} (x : Input α) (a : α) : Prop :=
  ∀ bytes, Wire kind bands bs bytes → ∀ rest, x (bytes ++ rest) = .ok a rest

variable {α : Type} {a : α}

theorem Remaining.pure (a : α) : Remaining kind bands [] (pure a) a := by
  rintro _ rfl rest
  rfl

/-- A band is read from its own bytes, or is not sent and empty. -/
theorem readIfSent_append {first : List UInt8}
    (hfirst : if b.isTransmitted kind then b.codec.encodeList (bands.get b) = .ok first else first = [])
    (hn : b.isTransmitted kind = true → n = (bands.get b).length)
    (hempty : b.isTransmitted kind = false → bands.get b = []) (rest : List UInt8) :
    readIfSent .direct kind b n (first ++ rest) = .ok (bands.get b) rest := by
  unfold readIfSent
  cases hb : b.isTransmitted kind with
  | true =>
    rw [if_pos hb] at hfirst
    rw [if_pos rfl, hn hb]
    exact readBand_eq_ok.2 (Codec.decodeList_encodeList hfirst _)
  | false =>
    rw [if_neg (by simp [hb])] at hfirst
    rw [if_neg Bool.false_ne_true, hempty hb, hfirst]
    rfl

/-- The next band is read with its own length, or is not sent and empty. -/
theorem Remaining.ifSent {f : List Int → Input α} (hn : b.isTransmitted kind = true → n = (bands.get b).length)
    (hempty : b.isTransmitted kind = false → bands.get b = []) (hf : Remaining kind bands bs (f (bands.get b)) a) :
    Remaining kind bands (b :: bs) (readIfSent .direct kind b n >>= f) a := by
  rintro _ ⟨first, more, rfl, hmore, hfirst⟩ rest
  rw [List.append_assoc]
  exact (bind_of_ok (readIfSent_append hfirst hn hempty _)).trans (hf more hmore rest)

/-! ## Counts -/

theorem total_eq_ok {values : List Int} {m : Nat} : total b values = .ok m ↔ wordSum values = m := by
  unfold total
  split
  · rename_i k hs
    rw [hs, Except.ok.injEq]
    exact ⟨fun h => congrArg _ h, Int.ofNat.inj⟩
  · rename_i k hs
    rw [hs]
    simp

theorem tagsOf_map_code (ts : List Tag) : tagsOf (ts.map Tag.code) = .ok ts := by
  induction ts with
  | nil => rfl
  | cons t ts ih =>
    rw [List.map_cons, tagsOf, Tag.ofCode?_code]
    simp only [ih]
    rfl

theorem caseCount_eq_countP (case : CaseBand) (ts : List Tag) : caseCount case ts = ts.countP (case ∈ ·.cases) := by
  induction ts with
  | nil => rfl
  | cons t ts ih =>
    rw [caseCount, List.flatMap_cons, List.count_append, ← caseCount, ih, List.countP_cons, Nat.add_comm]
    congr 1
    cases t <;> cases case <;> rfl

end DecodedBands

end AnnotationBands
