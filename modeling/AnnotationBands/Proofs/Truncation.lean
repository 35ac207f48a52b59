import AnnotationBands.Proofs.WireFormat
/-!
# Input that ends too early

Bytes that end inside the run of a value are refused, not misread: a value is
found in its bytes only when it is found in them whatever follows
(`Codec.absorb_append`). So a reader that is given less than the bytes of its
bands (`DecodedBands.Takes`) reads the bands whose bytes are complete and then
fails at the first band whose bytes are not, before any check of what it would
have read next. Main statement, from which the one about whole readers follows:
`DecodedBands.Takes.ifSent`.
-/

namespace AnnotationBands

/-! ## Values and lists of values -/

namespace Codec

variable {c : Codec} {input rest more : List UInt8}

/-- A number that is found is found whatever follows the input. -/
theorem absorb_append {n v : Nat} (h : c.absorb n input = some (v, rest)) (more : List UInt8) :
    c.absorb n (input ++ more) = some (v, rest ++ more) := by
  induction n generalizing input v with
  | zero =>
    obtain ⟨rfl, rfl⟩ := Prod.mk.inj (Option.some.inj h)
    rfl
  | succ n ih =>
    cases input with
    | nil => cases h
    | cons b input =>
      simp only [List.cons_append, absorb] at h ⊢
      split at h
      · rename_i hlow
        obtain ⟨rfl, rfl⟩ := Prod.mk.inj (Option.some.inj h)
        rw [if_pos hlow]
      · rename_i hlow
        obtain ⟨⟨w, r⟩, hr, hw⟩ := Option.map_eq_some_iff.1 h
        obtain ⟨rfl, rfl⟩ := Prod.mk.inj hw
        rw [if_neg hlow, ih hr]
        rfl

theorem decodeValue_append {value : Int} (h : c.decodeValue input = .ok value rest) (more : List UInt8) :
    c.decodeValue (input ++ more) = .ok value (rest ++ more) := by
  unfold decodeValue at h ⊢
  split at h
  · rename_i v r hv
    obtain ⟨rfl, rfl⟩ := EStateM.Result.ok.inj h
    rw [absorb_append hv]
  · cases h

theorem decodeList_append {n : Nat} {values : List Int} (h : c.decodeList n input = .ok values rest)
    (more : List UInt8) : c.decodeList n (input ++ more) = .ok values (rest ++ more) := by
  induction n generalizing values input with
  | zero =>
    obtain ⟨rfl, rfl⟩ := EStateM.Result.ok.inj h
    rfl
  | succ n ih =>
    obtain ⟨value, mid, hvalue, h⟩ := bind_eq_ok.1 h
    obtain ⟨values, last, hvalues, h⟩ := bind_eq_ok.1 h
    obtain ⟨rfl, rfl⟩ := EStateM.Result.ok.inj h
    exact (bind_of_ok (decodeValue_append hvalue more)).trans (bind_of_ok (ih hvalues))

theorem decodeValue_error {e : BandError} (h : c.decodeValue input = .error e rest) :
    e = .io .endOfInput ∧ rest = [] := by
  unfold decodeValue at h
  split at h
  · cases h
  · obtain ⟨rfl, rfl⟩ := EStateM.Result.error.inj h
    exact ⟨rfl, rfl⟩

/-- The end of the input is all that values can fail with, and the input is
used up then. -/
theorem decodeList_error {n : Nat} {e : BandError} (h : c.decodeList n input = .error e rest) :
    e = .io .endOfInput ∧ rest = [] := by
  induction n generalizing input with
  | zero => cases h
  | succ n ih =>
    rcases bind_eq_error.1 h with hvalue | ⟨value, mid, -, hmore⟩
    · exact decodeValue_error hvalue
    · rcases bind_eq_error.1 hmore with hvalues | ⟨values, last, -, hlast⟩
      · exact ih hvalues
      · cases hlast

/-- Less than the bytes of some values is refused. -/
theorem decodeList_truncated {values : List Int} (h : c.encodeList values = .ok (input ++ more)) (hmore : more ≠ []) :
    c.decodeList values.length input = .error (.io .endOfInput) [] := by
  cases hd : c.decodeList values.length input with
  | error e rest =>
    obtain ⟨rfl, rfl⟩ := decodeList_error hd
    rfl
  | ok found rest =>
    have hwhole := decodeList_encodeList h []
    rw [List.append_nil, decodeList_append hd more] at hwhole
    obtain ⟨-, hnil⟩ := EStateM.Result.ok.inj hwhole
    exact absurd (List.append_eq_nil_iff.1 hnil).2 hmore

end Codec

/-! ## Runs of bands -/

namespace Bands

/-- The number of bytes that the values of a band are written in. -/
def runLength (bands : Bands) (b : Band) : Nat :=
  match b.codec.encodeList (bands.get b) with
  | .ok bytes => bytes.length
  | .error _ => 0

theorem runLength_of_encodeList {bands : Bands} {b : Band} {bytes : List UInt8}
    (h : b.codec.encodeList (bands.get b) = .ok bytes) : bands.runLength b = bytes.length := by
  rw [runLength, h]

/-- The number of bytes up to the end of a band's run, where the bands of a list
are written one behind the other. -/
def runEnd (bands : Bands) (bs : List Band) (b : Band) : Nat :=
  ((bs.takeWhile (· ≠ b)).map bands.runLength).sum + bands.runLength b

/-- The given number of bytes is as far as into the run of the band, where the
bands of a list are written one behind the other. -/
def CutIn (bands : Bands) (bs : List Band) (n : Nat) (b : Band) : Prop :=
  ∃ before after, bs = before ++ b :: after ∧ (before.map bands.runLength).sum ≤ n ∧
    n < (before.map bands.runLength).sum + bands.runLength b

variable {bands : Bands} {bs : List Band} {n : Nat} {b : Band}

theorem CutIn.head (h : n < bands.runLength b) : bands.CutIn (b :: bs) n b :=
  ⟨[], bs, rfl, Nat.zero_le n, by simpa using h⟩

theorem CutIn.behind {b' : Band} (h : bands.CutIn bs n b) : bands.CutIn (b' :: bs) (bands.runLength b' + n) b := by
  obtain ⟨before, after, rfl, hlow, hhigh⟩ := h
  refine ⟨b' :: before, after, rfl, ?_, ?_⟩ <;> rw [List.map_cons, List.sum_cons] <;> omega

theorem runEnd_append {before after : List Band} (h : b ∉ before) :
    bands.runEnd (before ++ b :: after) b = (before.map bands.runLength).sum + bands.runLength b := by
  have hne : ∀ b' ∈ before, decide (b' ≠ b) = true := fun b' hb' => decide_eq_true (ne_of_mem_of_not_mem hb' h)
  rw [runEnd, List.takeWhile_append_of_pos hne, List.takeWhile_cons_of_neg (by simp), List.append_nil]

/-- The band that bytes end in is the first one whose run ends behind them. -/
theorem CutIn.find? (h : bands.CutIn bs n b) (hbs : bs.Nodup) :
    bs.find? (fun b => n < bands.runEnd bs b) = some b := by
  obtain ⟨before, after, rfl, hlow, hhigh⟩ := h
  have hdisjoint := List.nodup_append.1 hbs
  refine List.find?_eq_some_iff_append.2 ⟨?_, before, after, rfl, fun b' hb' => ?_⟩
  · rw [runEnd_append fun hb => hdisjoint.2.2 b hb b List.mem_cons_self rfl]
    exact decide_eq_true hhigh
  · -- the runs up to the end of an earlier band are some of those before
    obtain ⟨first, last, rfl⟩ := List.append_of_mem hb'
    have hfirst : b' ∉ first := fun hb => (List.nodup_append.1 hdisjoint.1).2.2 b' hb b' List.mem_cons_self rfl
    rw [List.append_assoc, List.cons_append, runEnd_append hfirst]
    rw [List.map_append, List.map_cons, List.sum_append, List.sum_cons] at hlow
    simp only [Bool.not_eq_true', decide_eq_false_iff_not]
    omega

end Bands

/-! ## Readers -/

namespace DecodedBands

/-- With the bytes of the given bands ahead, the input step takes these bytes
and gives its result; and when the input ends before these bytes do, it blames
the band whose bytes are not complete. -/
structure Takes (kind : Kind) (bands : Bands) (bs : List Band) {α : Type} (x : Input α) (a : α) : Prop where
  whole : Remaining kind bands bs x a
  short : ∀ input more, Wire kind bands bs (input ++ more) → more ≠ [] →
    ∃ b, bands.CutIn (bs.filter (·.isTransmitted kind)) input.length b ∧ x input = .error (.unexpectedEnd b) []

variable {kind : Kind} {bands : Bands} {b : Band} {bs : List Band} {n : Nat} {α β : Type} {a : α}

theorem readBand_truncated {input more : List UInt8} (h : b.codec.encodeList (bands.get b) = .ok (input ++ more))
    (hmore : more ≠ []) : readBand .direct b (bands.get b).length input = .error (.unexpectedEnd b) [] := by
  have hd : BandCodec.direct.decode b.codec (bands.get b).length input = .error (.io .endOfInput) [] :=
    Codec.decodeList_truncated h hmore
  rw [readBand, hd]

theorem Takes.pure (a : α) : Takes kind bands [] (pure a) a where
  whole := .pure a
  short _ _ h hmore := absurd (List.append_eq_nil_iff.1 h).2 hmore

theorem Takes.ifSent {f : List Int → Input α} (hn : b.isTransmitted kind = true → n = (bands.get b).length)
    (hempty : b.isTransmitted kind = false → bands.get b = []) (hf : Takes kind bands bs (f (bands.get b)) a) :
    Takes kind bands (b :: bs) (readIfSent .direct kind b n >>= f) a := by
  refine ⟨.ifSent hn hempty hf.whole, ?_⟩
  rintro input more ⟨first, next, hbytes, hnext, hfirst⟩ hmore
  -- the input ends inside the run of this band, or at its end or behind it
  have hcut : (∃ left, left ≠ [] ∧ first = input ++ left) ∨ ∃ tail, input = first ++ tail ∧ next = tail ++ more := by
    rcases List.append_eq_append_iff.1 hbytes with ⟨left, rfl, rfl⟩ | ⟨tail, rfl, rfl⟩
    · by_cases hleft : left = []
      · exact .inr ⟨[], by simp [hleft], by simp [hleft]⟩
      · exact .inl ⟨left, hleft, rfl⟩
    · exact .inr ⟨tail, rfl, rfl⟩
  rcases hcut with ⟨left, hleft, rfl⟩ | ⟨tail, rfl, rfl⟩
  · cases hb : b.isTransmitted kind with
    | true =>
      rw [if_pos hb] at hfirst
      refine ⟨b, ?_, bind_of_error ?_⟩
      · rw [List.filter_cons_of_pos hb]
        apply Bands.CutIn.head
        rw [Bands.runLength_of_encodeList hfirst, List.length_append]
        have := List.length_pos_of_ne_nil hleft
        omega
      · rw [readIfSent, if_pos hb, hn hb]
        exact readBand_truncated hfirst hleft
    | false =>
      rw [if_neg (by simp [hb])] at hfirst
      exact absurd (List.append_eq_nil_iff.1 hfirst).2 hleft
  · obtain ⟨b', hb', hshort⟩ := hf.short tail more hnext hmore
    refine ⟨b', ?_, (bind_of_ok (readIfSent_append hfirst hn hempty tail)).trans hshort⟩
    cases hb : b.isTransmitted kind with
    | true =>
      rw [if_pos hb] at hfirst
      rw [List.filter_cons_of_pos hb, List.length_append, ← Bands.runLength_of_encodeList hfirst]
      exact hb'.behind
    | false =>
      rw [if_neg (by simp [hb])] at hfirst
      rw [List.filter_cons_of_neg (by simp [hb]), hfirst]
      exact hb'

theorem Takes.band {f : List Int → Input α} (hb : b.isTransmitted kind = true) (hn : n = (bands.get b).length)
    (hf : Takes kind bands bs (f (bands.get b)) a) : Takes kind bands (b :: bs) (readBand .direct b n >>= f) a := by
  have := Takes.ifSent (fun _ => hn) (fun h => absurd (hb.symm.trans h) (by decide)) hf
  rwa [readIfSent, if_pos hb] at this

theorem Takes.orThrow {r : Except BandError β} {y : β} {f : β → Input α} (hr : r = .ok y)
    (hf : Takes kind bands bs (f y) a) : Takes kind bands bs (BandError.orThrow r >>= f) a := by
  subst hr
  exact hf

/-- A count that comes from a band or from outside. -/
theorem Takes.either {c : Prop} [Decidable c] {r : Except BandError β} {y m : β} {f : β → Input α} (hr : c → r = .ok m)
    (hy : ¬ c → y = m) (hf : Takes kind bands bs (f m) a) :
    Takes kind bands bs (if c then BandError.orThrow r >>= f else EStateM.pure y >>= f) a := by
  by_cases hc : c
  · rw [if_pos hc]
    exact .orThrow (hr hc) hf
  · rw [if_neg hc, hy hc]
    exact hf

theorem Takes.unless {c : Prop} [Decidable c] {x y : Input α} (hc : ¬ c) (hy : Takes kind bands bs y a) :
    Takes kind bands bs (if c then x else y) a := by
  rwa [if_neg hc]

end DecodedBands

end AnnotationBands
