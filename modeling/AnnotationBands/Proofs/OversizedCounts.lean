import AnnotationBands.Proofs.CrossBand
import AnnotationBands.Proofs.Packing
import AnnotationBands.Proofs.UniqueCodes
/-!
# Only counts can be too large

Whatever pool hands out the indices, what operations put into a band is in the
range of the band's codec: counts of parameters and tags fit one byte, and
references are words of 32 bits. Only the counts of annotations, pairs and
elements have no limit of their own (`Band.unlimited`), and they are never
negative (`Group.Holds.encodes_iff`). So a group that is packed with room for
all its bytes fails at the first such count that is too large
(`Group.firstRefusal_encodings`), or not at all. Main statement:
`Group.Reachable.pack_oversized`.
-/

namespace AnnotationBands

namespace Band

/-- The counts that no operation limits, in wire order. -/
def unlimited : List Band := [annoCounts, pairCounts, arrayCounts, nestPairCounts]

theorem filter_unlimited : all.filter (· ∈ unlimited) = unlimited := by decide

theorem codec_of_mem_unlimited {b : Band} (h : b ∈ unlimited) : b.codec = .unsigned5 := by
  cases b <;> first | rfl | exact absurd h (by decide)

/-- A band that is not in the list holds counts of parameters, tags or
references. -/
theorem kinds_of_notMem_unlimited {b : Band} (h : b ∉ unlimited) :
    b = .paramCounts ∨ b = .tags ∨ ∃ k, b.pool? = some k ∧ b.codec = .unsigned5 := by
  cases b with
  | paramCounts => exact .inl rfl
  | tags => exact .inr (.inl rfl)
  | annoCounts | pairCounts | arrayCounts | nestPairCounts => exact absurd (by decide) h
  | _ => exact .inr (.inr ⟨_, rfl, rfl⟩)

end Band

theorem Codec.largest_unsigned5 : Codec.unsigned5.largest = 4346097855 := by decide

namespace Group

/-! ## What a group holds is in range -/

namespace Holds

variable {g : Group} {l : Ledger}

/-- Every index that a pool hands out is a word of 32 bits. -/
theorem isWord_of_pool? (h : g.Holds Operand.IsWord l) {b : Band} {k : PoolKind} (hb : b.pool? = some k) :
    ∀ i ∈ g.bands.get b, 0 ≤ i ∧ i < 2 ^ 32 := by
  obtain ⟨segs, hl⟩ := h.layout
  have hcontent : b.isEntryCount = false := by cases b <;> first | rfl | cases hb
  intro i hi
  rw [hl.get_content hcontent] at hi
  obtain ⟨x, -, hword⟩ := hl.additive (Flat.additive_refers _) b k hb i hi
  exact hword

/-- A value that operations put into a band has a code, unless it is a count
without a limit and too large. -/
theorem encodes_iff (h : g.Holds Operand.IsWord l) (b : Band) {n : Int} (hn : n ∈ g.bands.get b) :
    b.codec.Encodes n ↔ (b ∈ Band.unlimited → n ≤ 4346097855) := by
  by_cases hb : b ∈ Band.unlimited
  · have hcount : b.isCount = true := by cases b <;> first | rfl | exact absurd hb (by decide)
    have hpos := h.count_nonneg hcount n hn
    rw [Band.codec_of_mem_unlimited hb, Codec.Encodes, Codec.largest_unsigned5]
    simp [hb, hpos]
  · refine iff_of_true ?_ fun hmem => absurd hmem hb
    have hcross := h.crossBand
    rcases Band.kinds_of_notMem_unlimited hb with rfl | rfl | ⟨k, hk, hcodec⟩
    · exact ⟨h.count_nonneg rfl n hn, hcross.paramCounts_le n hn⟩
    · obtain ⟨t, -, rfl⟩ := List.mem_map.1 (hcross.tags n hn)
      cases t <;> decide
    · have hword := h.isWord_of_pool? hk n hn
      rw [hcodec, Codec.Encodes, Codec.largest_unsigned5]
      omega

end Holds

/-! ## The first count that is too large -/

/-- The first count in wire order that is too large for its codec. -/
def oversized? (g : Group) : Option Int :=
  ((Band.all.filter (· ∈ Band.unlimited)).flatMap g.bands.get).find? (4346097855 < ·)

theorem oversized?_eq_some_iff {g : Group} :
    (∃ v, g.oversized? = some v) ↔ ∃ b ∈ Band.unlimited, ∃ n ∈ g.bands.get b, 4346097855 < n := by
  rw [← Option.isSome_iff_exists, oversized?, Band.filter_unlimited, List.find?_isSome]
  simp only [List.mem_flatMap, decide_eq_true_eq]
  constructor
  · rintro ⟨n, ⟨b, hb, hn⟩, hlt⟩
    exact ⟨b, hb, n, hn, hlt⟩
  · rintro ⟨b, hb, n, hn, hlt⟩
    exact ⟨n, ⟨b, hb, hn⟩, hlt⟩

/-- Bands in which only large counts have no code are refused at the first of
these. -/
theorem firstRefusal_encodings {bands : Bands} {bs : List Band}
    (h : ∀ b ∈ bs, ∀ n ∈ bands.get b, b.codec.Encodes n ↔ (b ∈ Band.unlimited → n ≤ 4346097855)) :
    firstRefusal (encodings .direct bands bs) =
      (((bs.filter (· ∈ Band.unlimited)).flatMap bands.get).find? (4346097855 < ·)).map
        (.valueOutOfRange .unsigned5) := by
  induction bs with
  | nil => rfl
  | cons b bs ih =>
    obtain ⟨hb, hbs⟩ := List.forall_mem_cons.1 h
    rw [encodings, List.map_cons]
    cases hencode : BandCodec.direct.encode b.codec (bands.get b) with
    | ok bytes =>
      -- all values of the band have a code, so none of them is found
      have hcodes := Codec.encodeList_ok_iff.1 ⟨bytes, hencode⟩
      rw [firstRefusal, ← encodings, ih hbs]
      by_cases hmem : b ∈ Band.unlimited
      · have hnone : (bands.get b).find? (4346097855 < ·) = none := by
          rw [List.find?_eq_none]
          intro n hn
          have := (hb n hn).1 (hcodes n hn) hmem
          simpa using this
        rw [List.filter_cons_of_pos (by simpa using hmem), List.flatMap_cons, List.find?_append, hnone, Option.none_or]
      · rw [List.filter_cons_of_neg (by simpa using hmem)]
    | error e =>
      obtain ⟨x, hx, rfl⟩ := Codec.encodeList_error hencode
      have hxmem := List.mem_of_find?_eq_some hx
      have hxcode : ¬ b.codec.Encodes x := by simpa using List.find?_some hx
      have hmem : b ∈ Band.unlimited := by
        by_contra hmem
        exact hxcode ((hb x hxmem).2 fun h => absurd h hmem)
      have hsame : (bands.get b).find? (4346097855 < ·) = some x := by
        rw [← hx]
        refine List.find?_congr fun n hn => ?_
        rw [decide_eq_decide, hb n hn]
        simp only [hmem, forall_const, not_le]
      rw [firstRefusal, List.filter_cons_of_pos (by simpa using hmem), List.flatMap_cons, List.find?_append, hsame,
        Band.codec_of_mem_unlimited hmem]
      rfl

/-- The counts that a kind sends are all that its groups have. -/
theorem Holds.flatMap_transmitted {M : Operand → Int → Prop} {g : Group} {l : Ledger} (h : g.Holds M l) :
    ((Band.transmitted g.kind).filter (· ∈ Band.unlimited)).flatMap g.bands.get = Band.unlimited.flatMap g.bands.get := by
  cases hd : g.kind.hasDescriptors with
  | true =>
    have hall : (Band.transmitted g.kind).filter (· ∈ Band.unlimited) = Band.unlimited := by
      cases hk : g.kind <;> rw [hk] at hd <;> first | decide | cases hd
    rw [hall]
  | false =>
    have hsent : (Band.transmitted g.kind).filter (· ∈ Band.unlimited) = [.arrayCounts, .nestPairCounts] := by
      cases hk : g.kind <;> rw [hk] at hd <;> first | decide | cases hd
    have hannos : g.bands.get .annoCounts = [] := h.crossBand.unsent .annoCounts hd
    have hpairs : g.bands.get .pairCounts = [] := h.crossBand.unsent .pairCounts hd
    rw [hsent]
    simp [Band.unlimited, hannos, hpairs]

/-- Packing with a codec that has one code for each value answers with the
number of bytes, or with the first count that is too large. -/
theorem Holds.answer_encodings {g : Group} {l : Ledger} (h : g.Holds Operand.IsWord l) :
    let encoded := encodings .direct g.bands (Band.transmitted g.kind)
    answer encoded = g.oversized?.elim (.ok (bytesAhead encoded).length) fun v =>
      .error (.valueOutOfRange .unsigned5 v) := by
  intro encoded
  have hrefusal : firstRefusal encoded = g.oversized?.map (.valueOutOfRange .unsigned5) := by
    rw [firstRefusal_encodings fun b _ n hn => h.encodes_iff b hn, h.flatMap_transmitted, oversized?,
      Band.filter_unlimited]
  rw [answer, hrefusal]
  cases g.oversized? <;> rfl

/-! ## Packing with room for all bytes -/

/-- Packing has failed exactly when the group has content and a count of
annotations, pairs or elements that is too large, and the first of these is the
error. -/
structure FailsOnOversized {σ : Type} (g : Group) (r : EStateM.Result BandError σ Nat) : Prop where
  failed_iff : (∃ e t, r = .error e t) ↔
    g.hasContent = true ∧ ∃ b ∈ Band.unlimited, ∃ n ∈ g.bands.get b, 4346097855 < n
  error_eq : ∀ e t, r = .error e t → ∃ v, g.oversized? = some v ∧ e = .valueOutOfRange .unsigned5 v

theorem FailsOnOversized.of_empty {σ : Type} {g : Group} (hcontent : g.hasContent = false) (n : Nat) (s : σ) :
    g.FailsOnOversized (.ok n s) where
  failed_iff := by simp [hcontent]
  error_eq e t h := by cases h

/-- When there is content and room, the first count that is too large decides. -/
theorem FailsOnOversized.of_answer {σ : Type} {g : Group} (hcontent : g.hasContent = true)
    {r : EStateM.Result BandError σ Nat} {n : Nat} {s : σ}
    (h : r = BandError.orThrow (g.oversized?.elim (.ok n) fun v => .error (.valueOutOfRange .unsigned5 v)) s) :
    g.FailsOnOversized r := by
  cases hv : g.oversized? with
  | none =>
    rw [hv] at h
    refine ⟨iff_of_false ?_ ?_, ?_⟩
    · rintro ⟨e, t, he⟩
      cases h.symm.trans he
    · rintro ⟨-, hlarge⟩
      obtain ⟨v, hfound⟩ := oversized?_eq_some_iff.2 hlarge
      cases hv.symm.trans hfound
    · intro e t he
      cases h.symm.trans he
  | some v =>
    rw [hv] at h
    refine ⟨iff_of_true ⟨_, _, h⟩ ⟨hcontent, oversized?_eq_some_iff.1 ⟨v, hv⟩⟩, ?_⟩
    intro e t he
    obtain ⟨rfl, -⟩ := EStateM.Result.error.inj (h.symm.trans he)
    exact ⟨v, hv, rfl⟩

theorem Holds.packTo {g : Group} {l : Ledger} (h : g.Holds Operand.IsWord l) {σ : Type} {w : Writer σ}
    {received : σ → List UInt8} {room : σ → Option Nat} (hfills : w.Fills received room) {s : σ} (hroom : room s = none) :
    g.FailsOnOversized (g.packTo w .direct s) := by
  rw [Group.packTo]
  cases hcontent : g.hasContent with
  | false => exact .of_empty hcontent 0 s
  | true =>
    rw [if_pos rfl]
    have hleaves := packBandsTo_leaves hfills .direct g.bands (Band.transmitted g.kind) s
    rw [h.answer_encodings] at hleaves
    obtain ⟨t, hr, -⟩ := hleaves.whole fun most hmost => by cases hroom.symm.trans hmost
    exact .of_answer hcontent hr

/-- Whatever pools a group was built with, its counts of parameters, its tags
and its references have codes in the codecs of their bands. Packing it into
anything that never runs out of room fails exactly when it has content and some
count of annotations, pairs or elements is above the largest value of its codec,
and the error then names the first such count in wire order. A sink without a
limit is one such writer. -/
theorem Reachable.pack_oversized {g : Group} (hg : g.Reachable) :
    (∀ b ∉ Band.unlimited, ∃ bytes, BandCodec.direct.encode b.codec (g.bands.get b) = .ok bytes) ∧
    (∀ {σ : Type} (w : Writer σ) (received : σ → List UInt8) (room : σ → Option Nat), w.Fills received room →
      ∀ s, room s = none → g.FailsOnOversized (g.packTo w .direct s)) ∧
    ∀ sink : Sink, sink.room = none → g.FailsOnOversized (g.pack .direct sink) := by
  obtain ⟨l, hl⟩ := hg.holds
  refine ⟨?encodes, ?writer, ?sink⟩
  case encodes =>
    intro b hb
    exact Codec.encodeList_ok_iff.2 fun n hn => (hl.encodes_iff b hn).2 fun hmem => absurd hmem hb
  case writer =>
    intro σ w received room hfills s hroom
    exact hl.packTo hfills hroom
  case sink =>
    intro sink hroom
    have hfills : (Writer.pieces List.length).Fills (·.received) (·.room) := Writer.fills_pieces
    have h := hl.packTo hfills hroom
    rwa [Group.packTo, packBandsTo_pieces] at h

/-- One annotation and an entry that was opened once and extended any number of
times. -/
theorem reachable_extended (n : Nat) : Reachable { empty .visible .method .default with
    bands := { Bands.empty with annoCounts := [n + 1], types := [0], pairCounts := [0] }
    marks := [(Bands.empty.push .annoCounts 1).mark] } := by
  induction n with
  | zero =>
    have hopened := (Reachable.empty .visible .method .default).step .openEntry Pool.empty
    exact hopened.step (.addOne ⟨"LA;", []⟩) Pool.empty
  | succ n ih => exact ih.step .extendEntry Pool.empty

/-- An entry that was extended until it counts one annotation more than can be
written. -/
theorem Reachable.pack_oversized_extended :
    let g : Group := { Group.empty .visible .method .default with
      bands := { Bands.empty with annoCounts := [4346097856], types := [0], pairCounts := [0] }
      marks := [(Bands.empty.push .annoCounts 1).mark] }
    g.Reachable ∧ ∃ t, g.pack .direct (.fresh none .endOfInput) = .error (.valueOutOfRange .unsigned5 4346097856) t := by
  intro g
  have hg : g.Reachable := reachable_extended 4346097855
  obtain ⟨-, -, hpack⟩ := hg.pack_oversized
  have hfails := hpack (.fresh none .endOfInput) rfl
  have hlarge : ∃ b ∈ Band.unlimited, ∃ n ∈ g.bands.get b, 4346097855 < n :=
    ⟨.annoCounts, by decide, 4346097856, List.mem_singleton_self _, by decide⟩
  obtain ⟨e, t, hr⟩ := hfails.failed_iff.2 ⟨rfl, hlarge⟩
  obtain ⟨v, hv, rfl⟩ := hfails.error_eq e t hr
  obtain rfl : 4346097856 = v := Option.some.inj hv
  exact ⟨hg, t, hr⟩

end Group

end AnnotationBands
