import AnnotationBands.Proofs.ByteRoundTrip
import AnnotationBands.Proofs.Exhausted
/-!
# Bands that keep the count rules

A reader trusts its codec: it checks that sums of counts, which it keeps in
words, are not negative and that tags are tags, but neither the lengths of the
bands nor single counts. Only the walk that rebuilds the entries finds out. Main statement
(`DecodedBands.consistent_of_entries`): whatever lists the codec gives, bands
that are read and then give entries keep all count rules
(`DecodedBands.Consistent`).
-/

namespace AnnotationBands

namespace DecodedBands

/-- Bands that keep all count rules: each has the length that the bands ahead of
it and the numbers of entries and calls tell, and no count is negative. -/
structure Consistent (kind : Kind) (bands : Bands) (entries calls : Nat) : Prop
    extends Sized List.sum kind bands entries calls where
  counts_nonneg : ∀ b : Band, b.isCount = true → ∀ n ∈ bands.get b, 0 ≤ n

/-- Bands have the lengths that follow from the entries and the calls when each
holds as many values as are due in it and as the bands call for. -/
theorem Sized.of_lengths {addUp : List Int → Int} {kind : Kind} {bands : Bands} {entries calls : Nat}
    (hnil : addUp [] = 0) (hunsent : ∀ b : Band, b.isTransmitted kind = false → bands.get b = [])
    (hlengths : ∀ b, ((bands.get b).length : Int) = (kind.due entries).count b + bands.demand addUp b)
    (hlimit : (bands.get .tags).length < countLimit) (hcodes : bands.get .tags = bands.tagList.map Tag.code)
    (hcalls : addUp (bands.get .arrayCounts) + addUp (bands.get .nestPairCounts) = calls)
    (harrays : 0 ≤ addUp (bands.get .arrayCounts)) : Sized addUp kind bands entries calls := by
  have hdemand {b : Band} (hb : b ∉ [Band.paramCounts, .annoCounts, .tags]) :
      ((bands.get b).length : Int) = bands.demand addUp b := by
    rw [hlengths, Kind.count_due_of_notMem hb, Nat.cast_zero, Int.zero_add]
  have hentries := hlengths kind.entryBand
  rw [Kind.count_due, if_pos rfl] at hentries
  constructor
  case unsent => exact hunsent
  case paramCounts =>
    intro hp
    rw [Kind.entryBand_of_isParameter hp, Bands.demand_paramCounts] at hentries
    omega
  case parameters =>
    intro hp
    have hne : Band.annoCounts ≠ kind.entryBand := by
      rw [Kind.entryBand_of_isParameter hp]
      decide
    have hlen := hlengths .annoCounts
    rw [Kind.count_due, if_neg hne, Bands.demand_annoCounts] at hlen
    omega
  case members =>
    intro hm
    have hparams := hunsent .paramCounts (by cases kind <;> first | rfl | cases hm)
    rw [Kind.entryBand_of_isMember hm, Bands.demand_annoCounts, hparams, hnil] at hentries
    omega
  case types => rw [hdemand (by decide), Bands.demand_types]
  case pairCounts =>
    have htypes := hdemand (b := .types) (by decide)
    have hpairs := hdemand (b := .pairCounts) (by decide)
    rw [Bands.demand_types] at htypes
    rw [Bands.demand_pairCounts] at hpairs
    omega
  case names => rw [hdemand (by decide), Bands.demand_names]
  case tags =>
    have hnames := hdemand (b := .names) (by decide)
    have hlen := hlengths .tags
    rw [Bands.demand_names] at hnames
    have hnone (hd : kind.hasDescriptors = false) : addUp (bands.get .pairCounts) = 0 := by
      rw [hunsent .pairCounts hd, hnil]
    have hdue := due_add_demand_tags entries hnames.symm hnone hcalls
    omega
  case limit => exact hlimit
  case codes => exact hcodes
  case cases =>
    intro case
    have hlen := hdemand (b := case.band) (by cases case <;> decide)
    rw [Bands.demand_case] at hlen
    exact_mod_cast hlen
  case arrayCounts =>
    have hlen := hdemand (b := .arrayCounts) (by decide)
    rw [Bands.demand_arrayCounts] at hlen
    exact_mod_cast hlen
  case nestTypes =>
    have hlen := hdemand (b := .nestTypes) (by decide)
    rw [Bands.demand_nestTypes] at hlen
    exact_mod_cast hlen
  case nestPairCounts =>
    have hlen := hdemand (b := .nestPairCounts) (by decide)
    rw [Bands.demand_nestPairCounts] at hlen
    exact_mod_cast hlen
  case nestNames => rw [hdemand (by decide), Bands.demand_nestNames]
  case calls => exact hcalls
  case arrays => exact harrays

end DecodedBands

namespace Bands.Settles

variable {kind : Kind} {bands : Bands} {entries calls : Nat}

/-- Bands that settle what is due for entries of the kind are empty where the
kind sends nothing. -/
theorem get_unsent (h : bands.Settles (kind.due entries) 0) {b : Band} (hb : b.isTransmitted kind = false) :
    bands.get b = [] := by
  have hdue {b : Band} (hne : b ≠ kind.entryBand) : (kind.due entries).count b = 0 := by
    rw [Kind.count_due, if_neg hne]
  have htop (hd : kind.hasDescriptors = false) (hmem : b ∈ Band.top) : bands.get b = [] := by
    refine h.get_top_eq_nil (fun b hb => hdue ?_) hmem
    rw [Kind.entryBand_of_hasDescriptors hd]
    rintro rfl
    exact absurd hb (by decide)
  cases b with
  | paramCounts =>
    refine h.get_eq_nil_of_demand (hdue ?_) (bands.demand_paramCounts _)
    intro hband
    exact absurd (kind.entryBand_isTransmitted.symm.trans (hband ▸ hb)) (by decide)
  | annoCounts | types | pairCounts | names => exact htop hb (by decide)
  | _ => cases hb

theorem consistent (h : bands.Settles (kind.due entries) 0) (hsound : bands.Sound)
    (hlimit : (bands.get .tags).length < DecodedBands.countLimit)
    (hcalls : (bands.get .arrayCounts).sum + (bands.get .nestPairCounts).sum = calls) :
    DecodedBands.Consistent kind bands entries calls where
  toSized := .of_lengths rfl (fun _ => h.get_unsent) h.length_get hlimit hsound.tags_eq hcalls (hsound.sum_nonneg rfl)
  counts_nonneg b hb n hn := (hsound b n hn).1 hb

/-- Each pair and each element is worth a tag, so where there are not too many
tags, counts are added up in words as they are without bounds. -/
theorem wordSum_eq {due : Multiset Band} (h : bands.Settles due 0) (hsound : bands.Sound)
    (hlength : (bands.get .tags).length < 2 ^ 63) {b : Band} (hb : b.isContentCount = true) :
    wordSum (bands.get b) = (bands.get b).sum := by
  have htags := h.length_get .tags
  rw [demand_tags] at htags
  have hpairs : 0 ≤ (bands.get .pairCounts).sum := hsound.sum_nonneg rfl
  have harrays : 0 ≤ (bands.get .arrayCounts).sum := hsound.sum_nonneg rfl
  have hnested : 0 ≤ (bands.get .nestPairCounts).sum := hsound.sum_nonneg rfl
  cases b with
  | pairCounts | arrayCounts | nestPairCounts => apply wordSum_eq_sum <;> omega
  | _ => cases hb

end Bands.Settles

namespace DecodedBands

/-- Whatever the codec gives, and whatever input it leaves to the next band:
bands that are read and then give entries keep every count rule. The reader adds
counts up in words, but the walk that rebuilds the entries takes one tag for each
pair and element, so as long as a word holds the number of tags, no sum has
wrapped around. -/
theorem consistent_of_entries {codec : BandCodec} {kind : Kind} {config : Config} {entries calls : Nat}
    {input rest : List UInt8} {decoded : DecodedBands}
    (hread : read codec kind config entries calls input = .ok decoded rest)
    (hlength : (decoded.bands.get .tags).length < 2 ^ 63) {L : Type} [Resolver L] {pool : L}
    {es : List Entry} (h : decoded.entries pool = .ok es) : Consistent kind decoded.bands entries calls := by
  obtain ⟨hdecoded, hreads⟩ := read_eq_ok hread
  have hentries : decoded.bands.entries kind entries config.maxNestingDepth pool = .ok es := by
    rwa [hdecoded] at h
  obtain ⟨s, hbands, -, hrebuilt⟩ := Bands.entries_passes hentries
  have hsettles : decoded.bands.Settles (kind.due entries) 0 := by
    rw [hbands]
    exact hrebuilt.settles
  have hsound : decoded.bands.Sound := by
    rw [hbands]
    exact hrebuilt.sound
  have hcalls := hreads.calls
  rw [Bands.sum, Bands.sum, hsettles.wordSum_eq hsound hlength rfl, hsettles.wordSum_eq hsound hlength rfl] at hcalls
  exact hsettles.consistent hsound (Nat.lt_trans hlength (by decide)) hcalls

/-- A codec that takes each byte for a value and is content with fewer bytes
than it was asked for. -/
theorem consistent_of_entries_short_lists :
    let codec : BandCodec :=
      ⟨fun _ _ => .ok [], fun _ n input => .ok ((input.take n).map fun b => (b.toNat : Int)) (input.drop n)⟩
    let a : Annotation := ⟨"LA;", [("x", .array [.int 7])]⟩
    let added := (Group.empty .visible .method .default).step (.addMember [a]) Pool.empty
    let decoded : DecodedBands := ⟨.visible, .default, 1, added.2.1.bands⟩
    read codec .visible .default 1 1 [1, 0, 1, 0, 91, 73, 0, 1] = .ok decoded [] ∧
      (decoded.bands.get .tags).length < 2 ^ 63 ∧ decoded.entries added.2.2 = .ok [.member [a]] ∧
      Consistent .visible decoded.bands 1 1 := by
  intro codec a added decoded
  have hread : read codec .visible .default 1 1 [1, 0, 1, 0, 91, 73, 0, 1] = .ok decoded [] := by cbv
  have hlength : (decoded.bands.get .tags).length < 2 ^ 63 := by decide +kernel
  have hentries : decoded.entries added.2.2 = .ok [.member [a]] := by cbv
  exact ⟨hread, hlength, hentries, consistent_of_entries hread hlength hentries⟩

end DecodedBands

end AnnotationBands
