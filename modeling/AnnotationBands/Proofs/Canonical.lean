import AnnotationBands.Proofs.CountRules
/-!
# One byte form for what is read

The byte code of a number leaves no choice: the bytes that a number is read
from are its digits (`Codec.absorb_eq_some`). So the bytes that a reader takes
are those that its bands are encoded to, one behind the other in wire order
(`Bands.encode`), and reading them again gives the same bands whatever bytes
follow. Main statements: `DecodedBands.read_canonical`, and for input that ends
before these bytes do, `DecodedBands.read_truncated`.

Bands that are read value by value have the lengths that were asked for and
hold no negative number, so they settle all that is due
(`DecodedBands.Reads.settles`) even when no entries can be rebuilt from them.
-/

namespace AnnotationBands

/-! ## Values and lists of values -/

namespace Codec

/-- What is left of a number behind its first digit. -/
theorem digit_of_lt (c : Codec) {b w : Nat} (hlow : c.low ≤ b) (hb : b < 256) : c.digit (b + c.radix * w) = b := by
  have hsum := c.low_add_radix
  have hmod : (b - c.low + c.radix * w) % c.radix = b - c.low := by
    rw [Nat.add_mul_mod_self_left, Nat.mod_eq_of_lt (by omega)]
  have hsub : b + c.radix * w - c.low = b - c.low + c.radix * w := by omega
  rw [digit, hsub, hmod]
  omega

/-- The bytes that a number is read from are its digits. -/
theorem absorb_eq_some {c : Codec} {n v : Nat} {input rest : List UInt8} (h : c.absorb n input = some (v, rest)) :
    v < c.reach n ∧ input = c.digits n v ++ rest := by
  induction n generalizing input v with
  | zero =>
    obtain ⟨rfl, rfl⟩ := Prod.mk.inj (Option.some.inj h)
    exact ⟨Nat.zero_lt_one, rfl⟩
  | succ n ih =>
    cases input with
    | nil => cases h
    | cons b input =>
      have hb : b.toNat < 256 := b.toNat_lt
      have hsum := c.low_add_radix
      simp only [absorb] at h
      split at h
      · rename_i hlow
        obtain ⟨rfl, rfl⟩ := Prod.mk.inj (Option.some.inj h)
        refine ⟨Nat.lt_of_lt_of_le hlow (Nat.le_add_right _ _), ?_⟩
        rw [digits, if_pos hlow, UInt8.ofNat_toNat]
        rfl
      · rename_i hlow
        obtain ⟨⟨w, r⟩, hr, hw⟩ := Option.map_eq_some_iff.1 h
        simp only [Prod.mk.injEq] at hw
        obtain ⟨rfl, rfl⟩ := hw
        obtain ⟨hreach, rfl⟩ := ih hr
        have hdigit := c.digit_of_lt (w := w) (Nat.not_lt.1 hlow) hb
        have hquotient : (b.toNat + c.radix * w - b.toNat) / c.radix = w := by
          rw [Nat.add_sub_cancel_left, Nat.mul_div_cancel_left _ c.radix_pos]
        refine ⟨?_, ?_⟩
        · have hmul : c.radix * (w + 1) ≤ c.radix * c.reach n := Nat.mul_le_mul_left _ hreach
          rw [Nat.mul_succ] at hmul
          rw [reach]
          omega
        · rw [digits, if_neg (by omega), hdigit, hquotient, UInt8.ofNat_toNat]
          rfl

theorem decodeValue_eq_ok {c : Codec} {value : Int} {input rest : List UInt8}
    (h : c.decodeValue input = .ok value rest) :
    ∃ bytes, c.encodeValue value = .ok bytes ∧ input = bytes ++ rest := by
  unfold decodeValue at h
  split at h
  · rename_i v r hv
    obtain ⟨rfl, rfl⟩ := EStateM.Result.ok.inj h
    obtain ⟨hreach, rfl⟩ := absorb_eq_some hv
    have hcode : c.Encodes v := by
      refine ⟨Int.natCast_nonneg v, ?_⟩
      rw [largest, cardinality]
      omega
    exact ⟨_, if_pos hcode, rfl⟩
  · cases h

/-- The bytes that values are read from are those of the values. -/
theorem decodeList_eq_ok {c : Codec} {n : Nat} {values : List Int} {input rest : List UInt8}
    (h : c.decodeList n input = .ok values rest) :
    ∃ bytes, c.encodeList values = .ok bytes ∧ input = bytes ++ rest := by
  induction n generalizing values input with
  | zero =>
    obtain ⟨rfl, rfl⟩ := EStateM.Result.ok.inj h
    exact ⟨[], rfl, rfl⟩
  | succ n ih =>
    obtain ⟨value, mid, hvalue, h⟩ := bind_eq_ok.1 h
    obtain ⟨values, last, hvalues, h⟩ := bind_eq_ok.1 h
    obtain ⟨rfl, rfl⟩ := EStateM.Result.ok.inj h
    obtain ⟨first, hfirst, rfl⟩ := decodeValue_eq_ok hvalue
    obtain ⟨more, hmore, rfl⟩ := ih hvalues
    refine ⟨first ++ more, ?_, (List.append_assoc first more _).symm⟩
    rw [encodeList, hfirst, hmore]
    rfl

theorem encodeList_encodes {c : Codec} {values : List Int} {bytes : List UInt8} (h : c.encodeList values = .ok bytes) :
    ∀ v ∈ values, c.Encodes v := by
  induction values generalizing bytes with
  | nil => simp
  | cons value values ih =>
    obtain ⟨first, more, hvalue, hvalues, -⟩ := encodeList_cons_eq_ok h
    exact List.forall_mem_cons.2 ⟨(encodeValue_ok hvalue).1, ih hvalues⟩

end Codec

/-! ## Bands -/

/-- The bytes of the bands that the kind sends, one behind the other in wire
order, each in its own code. -/
def Bands.encode (codec : BandCodec) (kind : Kind) (bands : Bands) : Except BandError (List UInt8) := do
  let parts ← (Band.transmitted kind).mapM fun b => codec.encode b.codec (bands.get b)
  return parts.flatten

/-- The bytes of bands one behind the other, from the codes of each. -/
theorem Wire.mapM_encode {kind : Kind} {bands : Bands} {bs : List Band} {bytes : List UInt8}
    (h : Wire kind bands bs bytes) : ∃ parts : List (List UInt8),
      (bs.filter (·.isTransmitted kind)).mapM (fun b => b.codec.encodeList (bands.get b)) = .ok parts ∧
        bytes = parts.flatten := by
  induction bs generalizing bytes with
  | nil =>
    obtain rfl : bytes = [] := h
    exact ⟨[], rfl, rfl⟩
  | cons b bs ih =>
    obtain ⟨first, more, rfl, hmore, hfirst⟩ := h
    obtain ⟨parts, hparts, rfl⟩ := ih hmore
    cases hb : b.isTransmitted kind with
    | true =>
      rw [if_pos hb] at hfirst
      refine ⟨first :: parts, ?_, rfl⟩
      rw [List.filter_cons_of_pos hb, List.mapM_cons, hfirst, hparts]
      rfl
    | false =>
      rw [if_neg (by simp [hb])] at hfirst
      refine ⟨parts, ?_, by rw [hfirst, List.nil_append]⟩
      rw [List.filter_cons_of_neg (by simp [hb]), hparts]

theorem Wire.encode {kind : Kind} {bands : Bands} {bytes : List UInt8} (h : Wire kind bands Band.all bytes) :
    bands.encode .direct kind = .ok bytes := by
  obtain ⟨parts, hparts, rfl⟩ := h.mapM_encode
  rw [Bands.encode, Band.transmitted]
  simp only [BandCodec.direct, hparts]
  rfl

theorem Wire.encodes {kind : Kind} {bands : Bands} {bs : List Band} {bytes : List UInt8} (h : Wire kind bands bs bytes)
    {b : Band} (hmem : b ∈ bs) (hb : b.isTransmitted kind = true) : ∀ v ∈ bands.get b, b.codec.Encodes v := by
  induction bs generalizing bytes with
  | nil => cases hmem
  | cons b' bs ih =>
    obtain ⟨first, more, -, hmore, hfirst⟩ := h
    rcases List.mem_cons.1 hmem with rfl | hmem
    · rw [if_pos hb] at hfirst
      exact Codec.encodeList_encodes hfirst
    · exact ih hmore hmem

/-- Where bands that a kind does not send are empty, nothing calls for values in
them. -/
theorem Bands.demand_unsent {addUp : List Int → Int} (hnil : addUp [] = 0) {kind : Kind} {bands : Bands}
    (h : ∀ b : Band, b.isTransmitted kind = false → bands.get b = []) {b : Band}
    (hb : b.isTransmitted kind = false) : bands.demand addUp b = 0 := by
  have hparams (hd : kind.hasDescriptors = false) : kind.isParameter = false := by
    cases kind <;> first | rfl | cases hd
  cases b with
  | paramCounts => exact bands.demand_paramCounts addUp
  | annoCounts => rw [demand_annoCounts, h .paramCounts (hparams hb), hnil]
  | types => rw [demand_types, h .annoCounts hb, hnil]
  | pairCounts => rw [demand_pairCounts, h .annoCounts hb, hnil]
  | names => rw [demand_names, h .pairCounts hb, hnil]
  | _ => cases hb

namespace DecodedBands

variable {kind : Kind} {asked : Band → Int} {bands : Bands} {bs : List Band} {entries calls : Nat}
  {input rest : List UInt8}

/-- The bytes of bands that are read in turn. -/
theorem InTurn.wire (h : InTurn .direct kind asked bands bs input rest) :
    ∃ bytes, Wire kind bands bs bytes ∧ input = bytes ++ rest := by
  induction bs generalizing input with
  | nil =>
    obtain rfl : input = rest := h
    exact ⟨[], rfl, rfl⟩
  | cons b bs ih =>
    obtain ⟨n, mid, -, hread, hmore⟩ := h
    obtain ⟨more, hwire, rfl⟩ := ih hmore
    cases hb : b.isTransmitted kind with
    | true =>
      rw [readIfSent, if_pos hb] at hread
      obtain ⟨first, hfirst, rfl⟩ := Codec.decodeList_eq_ok (readBand_eq_ok.1 hread)
      refine ⟨first ++ more, ⟨first, more, rfl, hwire, ?_⟩, (List.append_assoc first more rest).symm⟩
      rwa [if_pos hb]
    | false =>
      rw [readIfSent, if_neg (by simp [hb])] at hread
      obtain ⟨-, rfl⟩ := EStateM.Result.ok.inj hread
      refine ⟨more, ⟨[], more, rfl, hwire, ?_⟩, rfl⟩
      rw [if_neg (by simp [hb])]

/-- Bands that are read value by value hold as many values as were asked for. -/
theorem Reads.length_get (h : Reads .direct kind entries calls bands input rest) (b : Band) :
    ((bands.get b).length : Int) = (kind.due entries).count b + bands.demand wordSum b := by
  have hunsent (b : Band) : b.isTransmitted kind = false → bands.get b = [] := h.inTurn.get_unsent (Band.mem_all b)
  cases hb : b.isTransmitted kind with
  | true => exact h.inTurn.length_get (Band.mem_all b) hb
  | false =>
    have hne : b ≠ kind.entryBand := by
      rintro rfl
      exact absurd (kind.entryBand_isTransmitted.symm.trans hb) (by decide)
    rw [hunsent b hb, Bands.demand_unsent rfl hunsent hb, Kind.count_due, if_neg hne]
    rfl

/-- So they have the lengths that the reader works out. -/
theorem Reads.sized (h : Reads .direct kind entries calls bands input rest) :
    Sized wordSum kind bands entries calls := by
  refine .of_lengths rfl (fun b => h.inTurn.get_unsent (Band.mem_all b)) h.length_get ?_ h.codes h.calls h.arrays
  have hlimit := h.limit
  rw [asked, ← h.length_get] at hlimit
  exact_mod_cast hlimit

theorem Reads.sound (h : Reads .direct kind entries calls bands input rest) : bands.Sound := by
  intro b v hv
  refine ⟨fun _ => ?_, ?_⟩
  · obtain ⟨bytes, hwire, -⟩ := h.inTurn.wire
    cases hb : b.isTransmitted kind with
    | true => exact (hwire.encodes (Band.mem_all b) hb v hv).1
    | false =>
      rw [h.inTurn.get_unsent (Band.mem_all b) hb] at hv
      cases hv
  · rintro rfl
    rw [h.codes] at hv
    obtain ⟨t, -, rfl⟩ := List.mem_map.1 hv
    exact ⟨t, rfl⟩

/-- Where no sum wraps around, bands that are read value by value settle all that
is due. -/
theorem Reads.settles (h : Reads .direct kind entries calls bands input rest) (hexact : bands.SumsExact) :
    bands.Settles (kind.due entries) 0 := by
  intro b
  rw [Multiset.count_zero, Nat.cast_zero, Int.add_zero, h.length_get, Bands.demand_wordSum hexact]

/-- In bands that are read value by value and settle all that is due, no sum wraps
around: they would hold fewer values than are called for. -/
theorem Reads.sumsExact (h : Reads .direct kind entries calls bands input rest)
    (hsettles : bands.Settles (kind.due entries) 0) : bands.SumsExact := by
  have hdemand (b : Band) : bands.demand wordSum b = bands.demand List.sum b := by
    have hasked := h.length_get b
    have hdue := hsettles.length_get b
    omega
  have hpairs : wordSum (bands.get .pairCounts) = (bands.get .pairCounts).sum := by
    simpa only [Bands.demand_names] using hdemand .names
  have hnested : wordSum (bands.get .nestPairCounts) = (bands.get .nestPairCounts).sum := by
    simpa only [Bands.demand_nestNames] using hdemand .nestNames
  intro b hb
  cases b with
  | paramCounts => simpa only [Bands.demand_annoCounts] using hdemand .annoCounts
  | annoCounts => simpa only [Bands.demand_types] using hdemand .types
  | pairCounts => exact hpairs
  | nestPairCounts => exact hnested
  | arrayCounts =>
    have htags := hdemand .tags
    rw [Bands.demand_tags, Bands.demand_tags] at htags
    omega
  | _ => cases hb

/-- What is read takes the bytes of its bands from the front of the input,
nothing else is in these bytes, and whatever bytes follow them, they give the
same. -/
theorem read_canonical {config : Config} {decoded : DecodedBands}
    (h : read .direct kind config entries calls input = .ok decoded rest) :
    ∃ bytes, input = bytes ++ rest ∧ decoded.bands.encode .direct kind = .ok bytes ∧
      ∀ rest', read .direct kind config entries calls (bytes ++ rest') = .ok decoded rest' := by
  obtain ⟨hdecoded, hreads⟩ := read_eq_ok h
  obtain ⟨bytes, hwire, hinput⟩ := hreads.inTurn.wire
  refine ⟨bytes, hinput, hwire.encode, fun rest' => ?_⟩
  rw [hdecoded]
  exact read_remaining hreads.sized config bytes hwire rest'

/-- The bytes of one member's annotation, with two bytes behind them. -/
theorem read_canonical_member :
    let added := (Group.empty .visible .method .default).step
      (.addMember [⟨"LA;", [("x", .array [.int 7, .int 8])]⟩]) Pool.empty
    let decoded : DecodedBands := ⟨.visible, .default, 1, added.2.1.bands⟩
    read .direct .visible .default 1 2 [1, 0, 1, 0, 91, 73, 73, 0, 1, 2, 255, 7] = .ok decoded [255, 7] ∧
      ∃ bytes, bytes ++ [255, 7] = [1, 0, 1, 0, 91, 73, 73, 0, 1, 2, 255, 7] ∧
        decoded.bands.encode .direct .visible = .ok bytes ∧
        ∀ rest, read .direct .visible .default 1 2 (bytes ++ rest) = .ok decoded rest := by
  intro added decoded
  have hread : read .direct .visible .default 1 2 [1, 0, 1, 0, 91, 73, 73, 0, 1, 2, 255, 7] = .ok decoded [255, 7] := by
    cbv
  obtain ⟨bytes, hinput, hencode, hagain⟩ := read_canonical hread
  exact ⟨hread, bytes, hinput.symm, hencode, hagain⟩

/-- Input that ends before the bytes of the bands do is refused, and the band to
blame is the first one that the kind sends whose run ends behind the input. -/
theorem read_truncated {config : Config} {decoded : DecodedBands} {bytes cut : List UInt8}
    (h : read .direct kind config entries calls (bytes ++ rest) = .ok decoded rest) (hcut : cut <+: bytes)
    (hne : cut ≠ bytes) :
    decoded.bands.encode .direct kind = .ok bytes ∧ ∃ b,
      (Band.transmitted kind).find? (fun b => cut.length < decoded.bands.runEnd (Band.transmitted kind) b) = some b ∧
        read .direct kind config entries calls cut = .error (.unexpectedEnd b) [] := by
  obtain ⟨-, hreads⟩ := read_eq_ok h
  obtain ⟨taken, hwire, hinput⟩ := hreads.inTurn.wire
  obtain rfl := List.append_cancel_right hinput
  obtain ⟨more, rfl⟩ := hcut
  have hmore : more ≠ [] := by
    rintro rfl
    exact hne (List.append_nil cut).symm
  obtain ⟨b, hb, hread⟩ := (read_takes hreads.sized config).short cut more hwire hmore
  refine ⟨hwire.encode, b, ?_, hread⟩
  apply hb.find?
  exact Band.nodup_all.filter _

/-- A member with one string, cut inside the index of its type and behind its
tag, with seven empty bands between the tag and the string. -/
theorem read_truncated_inside_value :
    let bytes : List UInt8 := [1, 236, 1, 1, 0, 115, 9]
    (∃ decoded, read .direct .visible .default 1 0 (bytes ++ [255]) = .ok decoded [255]) ∧
      read .direct .visible .default 1 0 [1, 236] = .error (.unexpectedEnd .types) [] ∧
      read .direct .visible .default 1 0 [1, 236, 1, 1, 0, 115] = .error (.unexpectedEnd .strings) [] := by
  intro bytes
  let bands : Bands :=
    { Bands.empty with
      annoCounts := [1], types := [300], pairCounts := [1], names := [0], tags := [115], strings := [9] }
  have hread : read .direct .visible .default 1 0 (bytes ++ [255]) = .ok ⟨.visible, .default, 1, bands⟩ [255] := by cbv
  refine ⟨⟨_, hread⟩, ?_, ?_⟩
  · have hcut : [1, 236] <+: bytes := ⟨[1, 1, 0, 115, 9], rfl⟩
    obtain ⟨-, b, hb, hshort⟩ := read_truncated hread hcut (by decide)
    have htypes : (Band.transmitted .visible).find?
        (fun b => 2 < bands.runEnd (Band.transmitted .visible) b) = some .types := by decide
    obtain rfl := Option.some.inj (htypes.symm.trans hb)
    exact hshort
  · have hcut : [1, 236, 1, 1, 0, 115] <+: bytes := ⟨[9], rfl⟩
    obtain ⟨-, b, hb, hshort⟩ := read_truncated hread hcut (by decide)
    have hstrings : (Band.transmitted .visible).find?
        (fun b => 6 < bands.runEnd (Band.transmitted .visible) b) = some .strings := by decide
    obtain rfl := Option.some.inj (hstrings.symm.trans hb)
    exact hshort

end DecodedBands

end AnnotationBands
