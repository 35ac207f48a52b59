import AnnotationBands.Proofs.Demand
import AnnotationBands.Proofs.WireFormat
/-!
# What a reader asks for

A reader asks the codec for each band in turn, for as many values as are due
in the band by what it has read before (`DecodedBands.InTurn`). Main statement
(`DecodedBands.read_eq_ok`): whatever the codec gives, a reader that succeeds
has read all bands in turn, with the values in the band of tags standing for
tags, and the counts of elements and nested pairs adding up to the number of
calls that it was given.
-/

namespace AnnotationBands.DecodedBands

/-- The number of values that a reader asks for in a band: those that are due for
the entries, and those that the bands call for by the sums that it keeps in
words. -/
def asked (kind : Kind) (entries : Nat) (bands : Bands) (b : Band) : Int :=
  (kind.due entries).count b + bands.demand wordSum b

/-- Bands that are read one behind the other. Of those that the kind sends, the
codec is asked for just the given numbers of values. -/
def InTurn (codec : BandCodec) (kind : Kind) (asked : Band → Int) (bands : Bands) :
    List Band → List UInt8 → List UInt8 → Prop
  | [], input, rest => input = rest
  | b :: bs, input, rest => ∃ (n : Nat) (mid : List UInt8), (b.isTransmitted kind = true → (n : Int) = asked b) ∧
      readIfSent codec kind b n input = .ok (bands.get b) mid ∧ InTurn codec kind asked bands bs mid rest

/-- The bands that a reader gives for a number of entries and a number of
calls. -/
structure Reads (codec : BandCodec) (kind : Kind) (entries calls : Nat) (bands : Bands) (input rest : List UInt8) :
    Prop where
  inTurn : InTurn codec kind (asked kind entries bands) bands Band.all input rest
  codes : bands.get .tags = bands.tagList.map Tag.code
  limit : asked kind entries bands .tags < countLimit
  calls : bands.sum .arrayCounts + bands.sum .nestPairCounts = calls
  arrays : 0 ≤ bands.sum .arrayCounts

variable {codec : BandCodec} {kind : Kind} {b : Band} {entries calls : Nat} {input rest : List UInt8}

theorem readIfSent_unsent {n : Nat} {values : List Int} (hb : b.isTransmitted kind = false)
    (h : readIfSent codec kind b n input = .ok values rest) : values = [] := by
  unfold readIfSent at h
  rw [hb] at h
  exact (EStateM.Result.ok.inj h).1.symm

section InTurn

variable {asked : Band → Int} {bands : Bands} {bs : List Band}

theorem InTurn.get_unsent {codec : BandCodec} (h : InTurn codec kind asked bands bs input rest) {b : Band}
    (hmem : b ∈ bs) (hb : b.isTransmitted kind = false) : bands.get b = [] := by
  induction bs generalizing input with
  | nil => cases hmem
  | cons b' bs ih =>
    obtain ⟨n, mid, -, hread, hmore⟩ := h
    rcases List.mem_cons.1 hmem with rfl | hmem
    · exact readIfSent_unsent hb hread
    · exact ih hmore hmem

theorem InTurn.length_get (h : InTurn .direct kind asked bands bs input rest) {b : Band} (hmem : b ∈ bs)
    (hb : b.isTransmitted kind = true) : ((bands.get b).length : Int) = asked b := by
  induction bs generalizing input with
  | nil => cases hmem
  | cons b' bs ih =>
    obtain ⟨n, mid, hn, hread, hmore⟩ := h
    rcases List.mem_cons.1 hmem with rfl | hmem
    · rw [(readIfSent_ok hread).1 hb, hn hb]
    · exact ih hmore hmem

/-- Each value that is read takes a byte. -/
theorem InTurn.length_le (h : InTurn .direct kind asked bands bs input rest) :
    (bs.map fun b => (bands.get b).length).sum + rest.length ≤ input.length := by
  induction bs generalizing input with
  | nil =>
    obtain rfl : input = rest := h
    simp
  | cons b bs ih =>
    obtain ⟨n, mid, -, hread, hmore⟩ := h
    have hfirst := (readIfSent_ok hread).2
    have hrest := ih hmore
    rw [List.map_cons, List.sum_cons]
    omega

end InTurn

theorem tagsOf_eq_ok {values : List Int} {ts : List Tag} (h : tagsOf values = .ok ts) : values = ts.map Tag.code := by
  induction values generalizing ts with
  | nil =>
    obtain rfl := Except.ok.inj h
    rfl
  | cons v vs ih =>
    unfold tagsOf at h
    split at h
    · rename_i t ht
      cases hvs : tagsOf vs with
      | error e =>
        rw [hvs] at h
        cases h
      | ok more =>
        rw [hvs] at h
        obtain rfl : t :: more = ts := Except.ok.inj h
        rw [List.map_cons, ← Tag.code_of_ofCode? ht, ← ih hvs]
    · cases h

section Due

variable {bands : Bands} {addUp : List Int → Int}

/-- In any band but those of entry counts and of tags, only what the bands call
for is due. -/
theorem due_add_demand {n : Nat} (hb : b ∉ [Band.paramCounts, .annoCounts, .tags]) (hn : bands.demand addUp b = n) :
    (n : Int) = (kind.due entries).count b + bands.demand addUp b := by
  rw [Kind.count_due_of_notMem hb, hn, Nat.cast_zero, Int.zero_add]

/-- Counts of annotations are due for the parameters, or for the entries
themselves. -/
theorem due_add_demand_annoCounts {places : Nat} (hd : kind.hasDescriptors = true)
    (hp : kind.isParameter = true → addUp (bands.get .paramCounts) = places)
    (hm : kind.isParameter = false → places = entries ∧ addUp (bands.get .paramCounts) = 0) :
    (places : Int) = (kind.due entries).count .annoCounts + bands.demand addUp .annoCounts := by
  rw [Bands.demand_annoCounts, Kind.count_due]
  cases hkind : kind.isParameter with
  | true => simp [Kind.entryBand, hkind, hp hkind]
  | false =>
    obtain ⟨rfl, hzero⟩ := hm hkind
    simp [Kind.entryBand, hkind, hd, hzero]

/-- Tags are due for the pairs or the entries, and for the calls. -/
theorem due_add_demand_tags (entries : Nat) {pairs : Nat} (hpairs : addUp (bands.get .pairCounts) = pairs)
    (hunsent : kind.hasDescriptors = false → addUp (bands.get .pairCounts) = 0)
    (hcalls : addUp (bands.get .arrayCounts) + addUp (bands.get .nestPairCounts) = calls) :
    (((if kind.hasDescriptors then pairs else entries) + calls : Nat) : Int) =
      (kind.due entries).count .tags + bands.demand addUp .tags := by
  rw [Bands.demand_tags, Kind.count_due, Nat.cast_add, ← hcalls]
  cases hd : kind.hasDescriptors with
  | true =>
    have hne : Band.tags ≠ kind.entryBand := by cases kind <;> first | decide | cases hd
    rw [if_pos rfl, if_neg hne, hpairs]
    omega
  | false =>
    have heq : Band.tags = kind.entryBand := by cases kind <;> first | rfl | cases hd
    rw [if_neg Bool.false_ne_true, if_pos heq, hunsent hd]
    omega

end Due

theorem read_eq_ok {config : Config} {decoded : DecodedBands}
    (h : read codec kind config entries calls input = .ok decoded rest) :
    decoded = ⟨kind, config, entries, decoded.bands⟩ ∧ Reads codec kind entries calls decoded.bands input rest := by
  unfold read at h
  obtain ⟨paramCounts, i₁, hparamCounts, h⟩ := bind_eq_ok.1 h
  obtain ⟨places, hp, hm, h⟩ : ∃ places : Nat, (kind.isParameter = true → wordSum paramCounts = places) ∧
      (kind.isParameter = false → places = entries ∧ wordSum paramCounts = 0) ∧
        (readIfSent codec kind .annoCounts places >>= _) i₁ = .ok decoded rest := by
    split at h
    · rename_i hp
      obtain ⟨places, _, htotal, h⟩ := bind_eq_ok.1 h
      obtain ⟨hsum, rfl⟩ := orThrow_eq_ok.1 htotal
      exact ⟨places, fun _ => total_eq_ok.1 hsum, fun hp' => absurd (hp.symm.trans hp') (by decide), h⟩
    · rename_i hp
      refine ⟨entries, fun hp' => absurd hp' hp, fun hp' => ⟨rfl, ?_⟩, h⟩
      rw [readIfSent_unsent (b := .paramCounts) hp' hparamCounts]
      rfl
  obtain ⟨annoCounts, i₂, hannoCounts, h⟩ := bind_eq_ok.1 h
  obtain ⟨annotations, _, htotal, h⟩ := bind_eq_ok.1 h
  obtain ⟨hannotations, rfl⟩ := orThrow_eq_ok.1 htotal
  obtain ⟨types, i₃, htypes, h⟩ := bind_eq_ok.1 h
  obtain ⟨pairCounts, i₄, hpairCounts, h⟩ := bind_eq_ok.1 h
  obtain ⟨pairs, _, htotal, h⟩ := bind_eq_ok.1 h
  obtain ⟨hpairs, rfl⟩ := orThrow_eq_ok.1 htotal
  obtain ⟨names, i₅, hnames, h⟩ := bind_eq_ok.1 h
  have hlimit : (if kind.hasDescriptors then pairs else entries) + calls < countLimit := by
    by_contra hge
    rw [if_pos (Nat.not_lt.1 hge)] at h
    cases h
  replace h := unless_eq_ok h
  obtain ⟨tagValues, i₆, htags, h⟩ := bind_eq_ok.1 h
  obtain ⟨tags, _, hthrow, h⟩ := bind_eq_ok.1 h
  obtain ⟨hcodes, rfl⟩ := orThrow_eq_ok.1 hthrow
  obtain ⟨ints, i₇, hints, h⟩ := bind_eq_ok.1 h
  obtain ⟨doubles, i₈, hdoubles, h⟩ := bind_eq_ok.1 h
  obtain ⟨floats, i₉, hfloats, h⟩ := bind_eq_ok.1 h
  obtain ⟨longs, i₁₀, hlongs, h⟩ := bind_eq_ok.1 h
  obtain ⟨classes, i₁₁, hclasses, h⟩ := bind_eq_ok.1 h
  obtain ⟨enumTypes, i₁₂, henumTypes, h⟩ := bind_eq_ok.1 h
  obtain ⟨enumNames, i₁₃, henumNames, h⟩ := bind_eq_ok.1 h
  obtain ⟨strings, i₁₄, hstrings, h⟩ := bind_eq_ok.1 h
  obtain ⟨arrayCounts, i₁₅, harrayCounts, h⟩ := bind_eq_ok.1 h
  obtain ⟨nestTypes, i₁₆, hnestTypes, h⟩ := bind_eq_ok.1 h
  obtain ⟨nestPairCounts, i₁₇, hnestPairCounts, h⟩ := bind_eq_ok.1 h
  obtain ⟨nestPairs, _, htotal, h⟩ := bind_eq_ok.1 h
  obtain ⟨hnestPairs, rfl⟩ := orThrow_eq_ok.1 htotal
  obtain ⟨nestNames, i₁₈, hnestNames, h⟩ := bind_eq_ok.1 h
  obtain ⟨elements, _, htotal, h⟩ := bind_eq_ok.1 h
  obtain ⟨helements, rfl⟩ := orThrow_eq_ok.1 htotal
  have hcalls : elements + nestPairs = calls := by
    by_contra hne
    rw [if_pos hne] at h
    cases h
  replace h := unless_eq_ok h
  obtain ⟨rfl, rfl⟩ := EStateM.Result.ok.inj h
  refine ⟨rfl, ?_⟩
  let bands : Bands :=
    { paramCounts, annoCounts, types, pairCounts, names, tags := tagValues, ints, doubles, floats, longs, classes,
      enumTypes, enumNames, strings, arrayCounts, nestTypes, nestPairCounts, nestNames }
  change Reads codec kind entries calls bands input i₁₈
  have htagValues : bands.get .tags = tags.map Tag.code := tagsOf_eq_ok hcodes
  have htagList : bands.tagList = tags := Bands.tagList_of_codes htagValues
  have hannos : bands.sum .annoCounts = annotations := total_eq_ok.1 hannotations
  have hpairs : bands.sum .pairCounts = pairs := total_eq_ok.1 hpairs
  have hnested : bands.sum .nestPairCounts = nestPairs := total_eq_ok.1 hnestPairs
  have harrays : bands.sum .arrayCounts = elements := total_eq_ok.1 helements
  have hsum : bands.sum .arrayCounts + bands.sum .nestPairCounts = calls := by
    rw [harrays, hnested, ← hcalls]
    rfl
  have hunsent (hd : kind.hasDescriptors = false) : bands.sum .pairCounts = 0 := by
    rw [Bands.sum, show bands.get .pairCounts = [] from readIfSent_unsent (b := .pairCounts) hd hpairCounts]
    rfl
  have htagsDue := due_add_demand_tags entries hpairs hunsent hsum
  have hcase (case : CaseBand) : bands.demand wordSum case.band = caseCount case tags := by
    rw [Bands.demand_case, htagList, caseCount_eq_countP]
  constructor
  case codes => rw [htagList, htagValues]
  case limit =>
    rw [asked, ← htagsDue]
    exact_mod_cast hlimit
  case calls => exact hsum
  case arrays =>
    rw [harrays]
    exact Int.natCast_nonneg elements
  case inTurn =>
    refine ⟨entries, i₁, fun hp => ?_, hparamCounts, ?_⟩
    · have hkind : kind.isParameter = true := hp
      simp [asked, Bands.demand_paramCounts, Kind.count_due, Kind.entryBand, hkind]
    refine ⟨places, i₂, fun hd => due_add_demand_annoCounts hd hp hm, hannoCounts, ?_⟩
    refine ⟨annotations, i₃, fun _ => due_add_demand (by decide) ((bands.demand_types _).trans hannos), htypes, ?_⟩
    refine ⟨annotations, i₄, fun _ => due_add_demand (by decide) ((bands.demand_pairCounts _).trans hannos),
      hpairCounts, ?_⟩
    refine ⟨pairs, i₅, fun _ => due_add_demand (by decide) ((bands.demand_names _).trans hpairs), hnames, ?_⟩
    refine ⟨_, i₆, fun _ => htagsDue, htags, ?_⟩
    refine ⟨_, i₇, fun _ => due_add_demand (by decide) (hcase .int), hints, ?_⟩
    refine ⟨_, i₈, fun _ => due_add_demand (by decide) (hcase .double), hdoubles, ?_⟩
    refine ⟨_, i₉, fun _ => due_add_demand (by decide) (hcase .float), hfloats, ?_⟩
    refine ⟨_, i₁₀, fun _ => due_add_demand (by decide) (hcase .long), hlongs, ?_⟩
    refine ⟨_, i₁₁, fun _ => due_add_demand (by decide) (hcase .classLiteral), hclasses, ?_⟩
    refine ⟨_, i₁₂, fun _ => due_add_demand (by decide) (hcase .enumType), henumTypes, ?_⟩
    refine ⟨_, i₁₃, fun _ => due_add_demand (by decide) (hcase .enumName), henumNames, ?_⟩
    refine ⟨_, i₁₄, fun _ => due_add_demand (by decide) (hcase .string), hstrings, ?_⟩
    refine ⟨_, i₁₅, fun _ => due_add_demand (by decide) (htagList ▸ bands.demand_arrayCounts _), harrayCounts, ?_⟩
    refine ⟨_, i₁₆, fun _ => due_add_demand (by decide) (htagList ▸ bands.demand_nestTypes _), hnestTypes, ?_⟩
    refine ⟨_, i₁₇, fun _ => due_add_demand (by decide) (htagList ▸ bands.demand_nestPairCounts _), hnestPairCounts, ?_⟩
    exact ⟨nestPairs, i₁₈, fun _ => due_add_demand (by decide) ((bands.demand_nestNames _).trans hnested),
      hnestNames, rfl⟩

end AnnotationBands.DecodedBands
