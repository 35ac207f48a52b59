import AnnotationBands.Proofs.CrossBand
import AnnotationBands.Proofs.Reading
import AnnotationBands.Proofs.Truncation
/-!
# Packed groups are read back

The bytes of a group say nothing of where a band ends: the reader works out the
length of each band from the bands ahead of it, the number of entries and the
number of calls. When all lengths are what it works out
(`DecodedBands.Sized`), it reads the bands back and leaves the bytes behind them,
and it is content with no fewer bytes (`DecodedBands.read_takes`).

In a group that operations lead to, the lengths can differ in two ways only: the
counts of a member's annotations need not add up, and counts may stand without
content, of which nothing is written. In all other groups (`Group.Framed`) the
bytes give back the bands and the entries, and in these two cases they do not
(`Group.RoundTrip`). Main statement, for any number of groups in one sink:
`Group.packed_read_back`.
-/

namespace AnnotationBands

namespace DecodedBands

/-- The bands have the lengths that follow from the number of entries, the number
of calls and the bands that come before, where counts are added up in the given
way. A reader works the lengths out by sums in words (`wordSum`). -/
structure Sized (addUp : List Int → Int) (kind : Kind) (bands : Bands) (entries calls : Nat) : Prop where
  unsent : ∀ b : Band, b.isTransmitted kind = false → bands.get b = []
  paramCounts : kind.isParameter = true → entries = (bands.get .paramCounts).length
  parameters : kind.isParameter = true → addUp (bands.get .paramCounts) = (bands.get .annoCounts).length
  members : kind.isMember = true → entries = (bands.get .annoCounts).length
  types : addUp (bands.get .annoCounts) = (bands.get .types).length
  pairCounts : (bands.get .pairCounts).length = (bands.get .types).length
  names : addUp (bands.get .pairCounts) = (bands.get .names).length
  tags : (if kind.hasDescriptors then (bands.get .names).length else entries) + calls = (bands.get .tags).length
  limit : (bands.get .tags).length < countLimit
  codes : bands.get .tags = bands.tagList.map Tag.code
  cases : ∀ case : CaseBand, (bands.get case.band).length = bands.tagList.countP (case ∈ ·.cases)
  arrayCounts : (bands.get .arrayCounts).length = bands.tagList.count .array
  nestTypes : (bands.get .nestTypes).length = bands.tagList.count .nested
  nestPairCounts : (bands.get .nestPairCounts).length = bands.tagList.count .nested
  nestNames : addUp (bands.get .nestPairCounts) = (bands.get .nestNames).length
  calls : addUp (bands.get .arrayCounts) + addUp (bands.get .nestPairCounts) = calls
  arrays : 0 ≤ addUp (bands.get .arrayCounts)

variable {kind : Kind} {bands : Bands} {entries calls : Nat}

/-- Where no sum wraps around, these are the lengths that a reader works out. -/
theorem Sized.of_exact (h : Sized List.sum kind bands entries calls) (hexact : bands.SumsExact) :
    Sized wordSum kind bands entries calls :=
  { h with
    parameters := fun hp => by rw [hexact .paramCounts rfl, h.parameters hp]
    types := by rw [hexact .annoCounts rfl, h.types]
    names := by rw [hexact .pairCounts rfl, h.names]
    nestNames := by rw [hexact .nestPairCounts rfl, h.nestNames]
    calls := by rw [hexact .arrayCounts rfl, hexact .nestPairCounts rfl, h.calls]
    arrays := by rw [hexact .arrayCounts rfl]; exact h.arrays }

/-- Bands that have these lengths are read back from their bytes, and from no
fewer bytes. -/
theorem read_takes (h : Sized wordSum kind bands entries calls) (config : Config) :
    Takes kind bands Band.all (read .direct kind config entries calls) ⟨kind, config, entries, bands⟩ := by
  obtain ⟨elements, helements⟩ := Int.eq_ofNat_of_zero_le h.arrays
  unfold read
  refine .ifSent h.paramCounts (h.unsent _) ?_
  refine .either (m := if kind.isParameter then (bands.get .annoCounts).length else entries) ?_ ?_ ?_
  · intro hk
    rw [if_pos hk]
    exact total_eq_ok.2 (h.parameters hk)
  · intro hk
    rw [if_neg hk]
  refine .ifSent ?_ (h.unsent _) ?_
  · intro hk
    by_cases hp : kind.isParameter = true
    · rw [if_pos hp]
    · rw [if_neg hp]
      have hd : kind.hasDescriptors = true := hk
      exact h.members (by simp [Kind.isMember, hd, hp])
  refine .orThrow (total_eq_ok.2 h.types) ?_
  refine .ifSent (fun _ => rfl) (h.unsent _) ?_
  refine .ifSent (fun _ => h.pairCounts.symm) (h.unsent _) ?_
  refine .orThrow (total_eq_ok.2 h.names) ?_
  refine .ifSent (fun _ => rfl) (h.unsent _) ?_
  refine .unless (by rw [h.tags]; exact Nat.not_le.2 h.limit) ?_
  refine .band rfl h.tags ?_
  refine .orThrow (h.codes ▸ tagsOf_map_code bands.tagList) ?_
  have hcase (case : CaseBand) : caseCount case bands.tagList = (bands.get case.band).length := by
    rw [caseCount_eq_countP, h.cases]
  refine .band rfl (hcase .int) (.band rfl (hcase .double) (.band rfl (hcase .float) (.band rfl (hcase .long) ?_)))
  refine .band rfl (hcase .classLiteral) (.band rfl (hcase .enumType) (.band rfl (hcase .enumName) ?_))
  refine .band rfl (hcase .string) (.band rfl h.arrayCounts.symm (.band rfl h.nestTypes.symm ?_))
  refine .band rfl h.nestPairCounts.symm (.orThrow (total_eq_ok.2 h.nestNames) (.band rfl rfl ?_))
  refine .orThrow (total_eq_ok.2 helements) (.unless ?_ (.pure _))
  have := h.calls
  have := h.nestNames
  omega

theorem read_remaining (h : Sized wordSum kind bands entries calls) (config : Config) :
    Remaining kind bands Band.all (read .direct kind config entries calls) ⟨kind, config, entries, bands⟩ :=
  (read_takes h config).whole

/-- Whatever is read, the counts of annotations add up to the number of types, as
words do, and each count of an entry took a byte. -/
theorem read_ok {config : Config} {decoded : DecodedBands} {input rest : List UInt8}
    (h : read .direct kind config entries calls input = .ok decoded rest) :
    decoded = ⟨kind, config, entries, decoded.bands⟩ ∧
      (kind.hasDescriptors = true → decoded.bands.sum .annoCounts = (decoded.bands.get .types).length) ∧
      (decoded.bands.get .paramCounts).length + (decoded.bands.get .annoCounts).length + rest.length ≤
        input.length := by
  obtain ⟨hdecoded, hreads⟩ := read_eq_ok h
  refine ⟨hdecoded, fun hd => ?_, ?_⟩
  · have hlen := hreads.inTurn.length_get (Band.mem_all .types) hd
    rw [asked, Kind.count_due_of_notMem (by decide), Bands.demand_types] at hlen
    rw [Bands.sum]
    omega
  · have hlen := hreads.inTurn.length_le
    rw [show Band.all = .paramCounts :: .annoCounts :: Band.all.drop 2 from rfl, List.map_cons, List.sum_cons,
      List.map_cons, List.sum_cons] at hlen
    omega

end DecodedBands

/-! ## Groups -/

namespace Group

/-- The number of annotations that are not nested in another. -/
def annotationCount (g : Group) : Nat := if g.kind.hasDescriptors then g.marks.length else 0

/-- The counts of annotations add up to the number of annotations, and a group
without content has no entries. -/
def Framed (g : Group) : Prop :=
  (g.annotationCount : Int) = (g.bands.get .annoCounts).sum ∧ (g.hasContent = true ∨ g.entryCount = 0)

/-- Reads the bands of the group, which says how many entries and calls to
expect. -/
def readBack (g : Group) : Input DecodedBands :=
  DecodedBands.read .direct g.kind g.config g.entryCount g.calls

/-- The bands of the group as they are read. -/
def decoded (g : Group) : DecodedBands := ⟨g.kind, g.config, g.entryCount, g.bands⟩

namespace Holds

variable {M : Operand → Int → Prop} {g : Group} {l : Ledger}

theorem annotationCount_eq (h : g.Holds M l) : g.annotationCount = (g.bands.get .types).length := by
  have hmarks := h.length_marks
  rw [annotationCount, h.suits.hasDescriptors, h.crossBand.length_types, hmarks]
  cases l with
  | defaults vs => rfl
  | parameters es => exact List.length_map _
  | members as ns => exact List.length_map _

/-- For parameters and default values, the counts always add up. -/
theorem sum_annoCounts (h : g.Holds M l) (hkind : g.kind.isMember = false) :
    (g.annotationCount : Int) = (g.bands.get .annoCounts).sum := by
  rw [h.annotationCount_eq]
  cases hp : g.kind.isParameter with
  | true => exact (h.crossBand.parameter_annoCounts hp).symm
  | false =>
    have hd : g.kind.hasDescriptors = false := by simpa [Kind.isMember, hp] using hkind
    have hempty {b : Band} (hb : b.isTransmitted g.kind = false) : g.bands.get b = [] := h.crossBand.unsent b hb
    rw [hempty (b := .annoCounts) hd, hempty (b := .types) hd]
    rfl

theorem entryCount_parameter (hkind : g.kind.isParameter = true) :
    g.entryCount = (g.bands.get .paramCounts).length := by
  rw [Group.entryCount, if_pos hkind]
  rfl

theorem entryCount_member (hkind : g.kind.isMember = true) : g.entryCount = (g.bands.get .annoCounts).length := by
  obtain ⟨hd, hp⟩ := Bool.and_eq_true_iff.1 hkind
  rw [Group.entryCount, if_neg (by simpa using hp), if_pos hd]
  rfl

/-- A group whose counts add up has the lengths that follow from them. -/
theorem sized (h : g.Holds M l) (hsum : (g.annotationCount : Int) = (g.bands.get .annoCounts).sum)
    (hlimit : (g.bands.get .tags).length < DecodedBands.countLimit) :
    DecodedBands.Sized List.sum g.kind g.bands g.entryCount g.calls := by
  have hcross := h.crossBand
  obtain ⟨s, hget, hcalls, hcounted, -, -, -, -⟩ := h.content
  have htags : g.bands.tagList = s.bands.tagList := by rw [Bands.tagList, hget _ rfl, Bands.tagList]
  have hcase (case : CaseBand) : case.band.isEntryCount = false := by cases case <;> rfl
  have hsums := hcounted.calls
  constructor
  case unsent => exact hcross.unsent
  case paramCounts => exact entryCount_parameter
  case parameters => exact hcross.parameter_paramCounts
  case members => exact entryCount_member
  case types => rw [← hsum, h.annotationCount_eq]
  case pairCounts => rw [hcross.length_pairCounts, hcross.length_types]
  case names => exact hcross.length_names.symm
  case tags =>
    have hvalues : g.kind.hasDescriptors = false → g.entryCount = l.values.length := by
      intro hd
      rw [h.suits.hasDescriptors] at hd
      rw [h.entryCount]
      cases l <;> first | rfl | cases hd
    have hlen := hcross.length_tags
    have hnames := hcross.length_names
    rw [hget .arrayCounts rfl, hget .nestPairCounts rfl] at hlen
    rw [hcalls]
    cases hd : g.kind.hasDescriptors with
    | true =>
      rw [if_pos rfl]
      rw [if_pos hd] at hlen
      omega
    | false =>
      rw [if_neg Bool.false_ne_true, hvalues hd]
      rw [if_neg (by simp [hd])] at hlen
      omega
  case limit => exact hlimit
  case codes => rw [htags, hget _ rfl, hcounted.tags]
  case cases =>
    intro case
    rw [htags, hget _ (hcase case), hcounted.length_case]
  case arrayCounts => rw [htags, hget _ rfl, hcounted.length_arrayCounts]
  case nestTypes => rw [htags, hget _ rfl, hcounted.length_nestTypes]
  case nestPairCounts => rw [htags, hget _ rfl, hcounted.length_nestPairCounts]
  case nestNames => exact hcross.length_nestNames.symm
  case calls => rw [hget .arrayCounts rfl, hget .nestPairCounts rfl, hcalls, hsums]
  case arrays => exact List.sum_nonneg (h.count_nonneg rfl)

/-- Where there are not too many tags, and the counts of entries add up to a
number that a word holds, so do all counts. -/
theorem sumsExact (h : g.Holds M l) (hlength : (g.bands.get .tags).length < 2 ^ 63)
    (hsums : ∀ b : Band, b.isEntryCount = true → (g.bands.get b).sum < 2 ^ 63) : g.bands.SumsExact := by
  intro b hb
  rcases Bool.or_eq_true_iff.1 hb with hentry | hcontent
  · exact wordSum_eq_sum (List.sum_nonneg (h.count_nonneg hb)) (hsums b hentry)
  · exact h.wordSum_drop hlength hcontent 0

/-- A group without content and entries has empty bands. -/
theorem get_eq_nil (h : g.Holds M l) (hcontent : g.hasContent = false) (hentries : g.entryCount = 0) (b : Band) :
    g.bands.get b = [] := by
  have hmarks : g.marks = [] := by simpa [Group.hasContent] using hcontent
  have hunsent := h.crossBand.unsent
  have hparams : g.bands.get .paramCounts = [] := by
    cases hp : g.kind.isParameter with
    | true => exact List.eq_nil_of_length_eq_zero ((entryCount_parameter hp).symm.trans hentries)
    | false => exact hunsent _ hp
  have hannos : g.bands.get .annoCounts = [] := by
    cases hd : g.kind.hasDescriptors with
    | false => exact hunsent _ hd
    | true =>
      cases hp : g.kind.isParameter with
      | true =>
        have hsum := h.crossBand.parameter_paramCounts hp
        rw [hparams] at hsum
        exact List.eq_nil_of_length_eq_zero (by simpa using hsum.symm)
      | false =>
        have hm : g.kind.isMember = true := by simp [Kind.isMember, hd, hp]
        exact List.eq_nil_of_length_eq_zero ((entryCount_member hm).symm.trans hentries)
  obtain ⟨segs, hl⟩ := h.layout
  have hsegs : segs = [] := List.eq_nil_of_length_eq_zero (by rw [← hl.length_marks, hmarks, List.length_nil])
  cases b with
  | paramCounts => exact hparams
  | annoCounts => exact hannos
  | _ => rw [hl.get_content rfl, hsegs]; rfl

end Holds

/-! ## Packing -/

theorem pack_ok {g : Group} {n : Nat} {sink sink' : Sink} (h : g.pack .direct sink = .ok n sink') :
    ∃ bytes, sink'.received = sink.received ++ bytes ∧ n = bytes.length ∧
      if g.hasContent then Wire g.kind g.bands Band.all bytes else bytes = [] := by
  unfold pack at h
  split at h
  · obtain ⟨bytes, hreceived, hn, hwire⟩ := packBands_ok h
    exact ⟨bytes, hreceived, hn, by rwa [if_pos ‹_›]⟩
  · obtain ⟨rfl, rfl⟩ := EStateM.Result.ok.inj h
    exact ⟨[], (List.append_nil _).symm, rfl, by rw [if_neg ‹_›]⟩

theorem bytes_of_pack {g : Group} {n : Nat} {sink sink' : Sink} {bytes : List UInt8}
    (h : g.pack .direct sink = .ok n sink') (hbytes : sink'.received = sink.received ++ bytes) :
    if g.hasContent then Wire g.kind g.bands Band.all bytes else bytes = [] := by
  obtain ⟨bytes', hreceived, -, hwire⟩ := pack_ok h
  rwa [List.append_cancel_left (hbytes.symm.trans hreceived)]

/-- What packed bytes of a group are good for. -/
structure RoundTrip (g : Group) (bytes : List UInt8) : Prop where
  /-- Whatever bytes follow, the reader gets the bands of the group and leaves
  these bytes if and only if the group's counts of annotations add up and it
  has content or no entries. -/
  read_iff : ∀ rest, (∃ d, g.readBack (bytes ++ rest) = .ok d rest ∧ d.bands = g.bands) ↔ g.Framed
  /-- Only the counts of members can fail to add up. -/
  adds_up : g.kind.isMember = false → (g.annotationCount : Int) = (g.bands.get .annoCounts).sum
  /-- The bands that are read give the entries of the group, errors included. -/
  entries : ∀ rest d, g.readBack (bytes ++ rest) = .ok d rest → d.bands = g.bands →
    ∀ {L : Type} [Resolver L] (pool : L), d.entries pool = g.decode pool

variable {M : Operand → Int → Prop} {g : Group} {l : Ledger} {bytes : List UInt8}

theorem Holds.readBack_of_framed (h : g.Holds M l) (hlimit : (g.bands.get .tags).length < DecodedBands.countLimit)
    (hexact : g.bands.SumsExact)
    (hbytes : if g.hasContent then Wire g.kind g.bands Band.all bytes else bytes = []) (hframed : g.Framed)
    (rest : List UInt8) : g.readBack (bytes ++ rest) = .ok g.decoded rest := by
  have hwire : Wire g.kind g.bands Band.all bytes := by
    cases hc : g.hasContent with
    | true => rwa [if_pos hc] at hbytes
    | false =>
      rw [if_neg (by simp [hc])] at hbytes
      have hentries := hframed.2.resolve_left (by simp [hc])
      rw [hbytes]
      exact wire_nil (h.get_eq_nil hc hentries) _
  exact DecodedBands.read_remaining ((h.sized hframed.1 hlimit).of_exact hexact) g.config bytes hwire rest

theorem Holds.framed_of_readBack (h : g.Holds M l) (hexact : g.bands.SumsExact)
    (hbytes : if g.hasContent then Wire g.kind g.bands Band.all bytes else bytes = []) {rest : List UInt8}
    {d : DecodedBands} (hread : g.readBack (bytes ++ rest) = .ok d rest) (hbands : d.bands = g.bands) : g.Framed := by
  obtain ⟨-, hsum, hlength⟩ := DecodedBands.read_ok hread
  rw [hbands] at hsum hlength
  rw [Bands.sum, hexact .annoCounts rfl] at hsum
  refine ⟨?_, ?_⟩
  · cases hm : g.kind.isMember with
    | false => exact h.sum_annoCounts hm
    | true => rw [h.annotationCount_eq, hsum (Kind.hasDescriptors_of_isMember hm)]
  · cases hc : g.hasContent with
    | true => exact .inl rfl
    | false =>
      right
      -- nothing was written, so nothing of what follows may be read
      rw [if_neg (by simp [hc])] at hbytes
      rw [hbytes, List.nil_append] at hlength
      cases hp : g.kind.isParameter with
      | true => rw [entryCount_parameter hp]; omega
      | false =>
        cases hd : g.kind.hasDescriptors with
        | true => rw [entryCount_member (by simp [Kind.isMember, hd, hp])]; omega
        | false =>
          rw [Group.entryCount, if_neg (by simp [hp]), if_neg (by simp [hd])]
          simpa [Group.hasContent] using hc

theorem Holds.roundTrip (h : g.Holds M l) (hlimit : (g.bands.get .tags).length < DecodedBands.countLimit)
    (hexact : g.bands.SumsExact)
    (hbytes : if g.hasContent then Wire g.kind g.bands Band.all bytes else bytes = []) : g.RoundTrip bytes where
  read_iff rest := by
    constructor
    · rintro ⟨d, hread, hbands⟩
      exact h.framed_of_readBack hexact hbytes hread hbands
    · intro hframed
      exact ⟨g.decoded, h.readBack_of_framed hlimit hexact hbytes hframed rest, rfl⟩
  adds_up := h.sum_annoCounts
  entries rest d hread hbands L _ pool := by
    obtain ⟨hd, -, -⟩ := DecodedBands.read_ok hread
    rw [hd, DecodedBands.entries, hbands]
    rfl

/-! ## Groups one behind the other -/

/-- Writes groups into one sink; the number of bytes of each. -/
def packAll (codec : BandCodec) : List Group → EStateM BandError Sink (List Nat)
  | [] => return []
  | g :: gs => do
    let n ← g.pack codec
    let ns ← packAll codec gs
    return n :: ns

/-- Reads the bands of groups in turn. -/
def readAll : List Group → Input (List DecodedBands)
  | [] => return []
  | g :: gs => do
    let d ← g.readBack
    let ds ← readAll gs
    return d :: ds

theorem packAll_ok {gs : List Group} {ns : List Nat} {sink sink' : Sink} (h : packAll .direct gs sink = .ok ns sink') :
    ∃ parts : List (List UInt8), sink'.received = sink.received ++ parts.flatten ∧ ns = parts.map List.length ∧
      List.Forall₂ (fun g bytes => ∃ s s', g.pack .direct s = .ok bytes.length s' ∧
        s'.received = s.received ++ bytes) gs parts := by
  induction gs generalizing ns sink with
  | nil =>
    obtain ⟨rfl, rfl⟩ := EStateM.Result.ok.inj h
    exact ⟨[], by simp, rfl, .nil⟩
  | cons g gs ih =>
    obtain ⟨n, mid, hg, h⟩ := bind_eq_ok.1 h
    obtain ⟨more, last, hgs, h⟩ := bind_eq_ok.1 h
    obtain ⟨rfl, rfl⟩ := EStateM.Result.ok.inj h
    obtain ⟨bytes, hreceived, rfl, -⟩ := pack_ok hg
    obtain ⟨parts, hparts, rfl, hall⟩ := ih hgs
    refine ⟨bytes :: parts, ?_, rfl, .cons ⟨sink, mid, hg, hreceived⟩ hall⟩
    rw [hparts, hreceived, List.flatten_cons, List.append_assoc]

theorem readAll_ok {gs : List Group} {parts : List (List UInt8)}
    (h : List.Forall₂ (fun g bytes => ∀ rest, g.readBack (bytes ++ rest) = .ok g.decoded rest) gs parts)
    (rest : List UInt8) : readAll gs (parts.flatten ++ rest) = .ok (gs.map decoded) rest := by
  induction h with
  | nil => rfl
  | cons hg _ ih =>
    rw [List.flatten_cons, List.append_assoc]
    exact (bind_of_ok (hg _)).trans (bind_of_ok ih)

/-- Groups that are packed one behind the other into one sink are read back one
by one, as long as words hold their lengths and sums. Each part of the bytes is
what its group packs; it gives back the bands of the group, whatever follows, if
and only if the group is framed; and when all groups are, reading them in turn
gives all their bands and entries. -/
theorem packed_read_back {gs : List Group} (hgs : ∀ g ∈ gs, g.Reachable)
    (hlimit : ∀ g ∈ gs, (g.bands.get .tags).length < 2 ^ 63)
    (hsums : ∀ g ∈ gs, ∀ b : Band, b.isEntryCount = true → (g.bands.get b).sum < 2 ^ 63)
    {ns : List Nat} {sink sink' : Sink} (h : packAll .direct gs sink = .ok ns sink') :
    ∃ parts : List (List UInt8), sink'.received = sink.received ++ parts.flatten ∧ ns = parts.map List.length ∧
      List.Forall₂ (fun g bytes => (∃ s s', g.pack .direct s = .ok bytes.length s' ∧
        s'.received = s.received ++ bytes) ∧ g.RoundTrip bytes) gs parts ∧
      ((∀ g ∈ gs, g.Framed) → ∀ rest, ∃ ds, readAll gs (parts.flatten ++ rest) = .ok ds rest ∧
        ds.map DecodedBands.bands = gs.map Group.bands ∧
        ∀ {L : Type} [Resolver L] (pool : L), ds.map (·.entries pool) = gs.map (·.decode pool)) := by
  obtain ⟨parts, hreceived, hns, hpacked⟩ := packAll_ok h
  have hbelow : ∀ g ∈ gs, (g.bands.get .tags).length < DecodedBands.countLimit :=
    fun g hg => Nat.lt_trans (hlimit g hg) (by decide)
  have hexact : ∀ g ∈ gs, g.bands.SumsExact := by
    intro g hg
    obtain ⟨l, hl⟩ := (hgs g hg).holds
    exact hl.sumsExact (hlimit g hg) (hsums g hg)
  refine ⟨parts, hreceived, hns, forall₂_imp_mem hpacked ?_, fun hframed rest => ⟨gs.map decoded, ?_, ?_, ?_⟩⟩
  · rintro g hg bytes - ⟨s, s', hpack, hbytes⟩
    obtain ⟨l, hl⟩ := (hgs g hg).holds
    exact ⟨⟨s, s', hpack, hbytes⟩, hl.roundTrip (hbelow g hg) (hexact g hg) (bytes_of_pack hpack hbytes)⟩
  · refine readAll_ok (forall₂_imp_mem hpacked ?_) rest
    rintro g hg bytes - ⟨s, s', hpack, hbytes⟩ rest
    obtain ⟨l, hl⟩ := (hgs g hg).holds
    exact hl.readBack_of_framed (hbelow g hg) (hexact g hg) (bytes_of_pack hpack hbytes) (hframed g hg) rest
  · rw [List.map_map]
    rfl
  · intro L _ pool
    rw [List.map_map]
    rfl

/-- A member's group and a group of default values, built with one pool and packed
into one sink. -/
theorem packed_read_back_two_groups :
    let a : Annotation := ⟨"LA;", [("x", .int 1)]⟩
    let v : ElementValue := .array [.int 1, .int 2]
    let member := (empty .visible .method .default).step (.addMember [a]) Pool.empty
    let default := (empty .annotationDefault .method .default).step (.addDefault v) member.2.2
    let groups := [member.2.1, default.2.1]
    let pool := default.2.2
    let bytes : List UInt8 := [1, 0, 1, 0, 73, 0, 91, 73, 73, 0, 1, 2]
    packAll .direct groups (.fresh none .endOfInput) = .ok [6, 6] ⟨none, .endOfInput, bytes⟩ ∧
      ∀ rest, ∃ ds, readAll groups (bytes ++ rest) = .ok ds rest ∧
        ds.map DecodedBands.bands = groups.map Group.bands ∧
        ds.map (·.entries pool) = [.ok [.member [a]], .ok [.defaultValue v]] := by
  intro a v member default groups pool bytes
  have hreach : ∀ g ∈ groups, g.Reachable := by
    have h₁ : member.2.1.Reachable := (Reachable.empty .visible .method .default).step _ Pool.empty
    have h₂ : default.2.1.Reachable := (Reachable.empty .annotationDefault .method .default).step _ member.2.2
    exact List.forall_mem_cons.2 ⟨h₁, List.forall_mem_singleton.2 h₂⟩
  have hlimit : ∀ g ∈ groups, (g.bands.get .tags).length < 2 ^ 63 :=
    List.forall_mem_cons.2 ⟨by decide +kernel, List.forall_mem_singleton.2 (by decide +kernel)⟩
  have hsums : ∀ g ∈ groups, ∀ b : Band, b.isEntryCount = true → (g.bands.get b).sum < 2 ^ 63 := by
    have hall : ∀ g ∈ groups, ∀ b ∈ Band.all, b.isEntryCount = true → (g.bands.get b).sum < 2 ^ 63 :=
      List.forall_mem_cons.2 ⟨by decide +kernel, List.forall_mem_singleton.2 (by decide +kernel)⟩
    exact fun g hg b => hall g hg b (Band.mem_all b)
  have hframed : ∀ g ∈ groups, g.Framed :=
    List.forall_mem_cons.2 ⟨⟨rfl, .inl rfl⟩, List.forall_mem_singleton.2 ⟨rfl, .inl rfl⟩⟩
  have hfirst : member.2.1.pack .direct (.fresh none .endOfInput) = .ok 6 ⟨none, .endOfInput, bytes.take 6⟩ := by cbv
  have hsecond : default.2.1.pack .direct ⟨none, .endOfInput, bytes.take 6⟩ = .ok 6 ⟨none, .endOfInput, bytes⟩ := by cbv
  have hpacked : packAll .direct groups (.fresh none .endOfInput) = .ok [6, 6] ⟨none, .endOfInput, bytes⟩ :=
    (bind_of_ok hfirst).trans (bind_of_ok (bind_of_ok hsecond))
  have hdecoded : groups.map (·.decode pool) = [.ok [.member [a]], .ok [.defaultValue v]] := by cbv
  refine ⟨hpacked, fun rest => ?_⟩
  obtain ⟨parts, hreceived, -, -, hread⟩ := packed_read_back hreach hlimit hsums hpacked
  obtain ⟨ds, hds, hbands, hentries⟩ := hread hframed rest
  have hflat : bytes = parts.flatten := hreceived
  exact ⟨ds, hflat ▸ hds, hbands, (hentries pool).trans hdecoded⟩

end Group

end AnnotationBands
