import AnnotationBands.Proofs.Canonical
import AnnotationBands.Proofs.SafeWalk
/-!
# Tags that are left over

Bands that are read value by value need not give entries: only totals were
checked, so the counts in them may be spread over the tags in a way that uses up
the entries before the tags. But no band is ever read past its end, because the
values of each band are those that the others call for. Main statement
(`DecodedBands.entries_of_read`): as long as words hold the sums of the counts,
and but for what the pool lacks and for the depth limit, tags that are left over
are all that can go wrong, and they are reported as such exactly when a walk over
the entries ends ahead of the last tag.
-/

namespace AnnotationBands

namespace Bands.Settles

variable {bands : Bands}

/-- Where nothing is due and the tags are used up, so are all bands. -/
theorem get_eq_nil (h : bands.Settles 0 0) (htags : bands.get .tags = []) (b : Band) : bands.get b = [] := by
  have htagList : bands.tagList = [] := by rw [tagList, htags, List.filterMap_nil]
  have nil_of_demand {b : Band} : bands.demand List.sum b = 0 → bands.get b = [] :=
    h.get_eq_nil_of_demand (Multiset.count_zero b)
  have hcase (case : CaseBand) : bands.get case.band = [] :=
    nil_of_demand (by rw [demand_case, htagList, List.countP_nil, Nat.cast_zero])
  have hnested : bands.get .nestPairCounts = [] :=
    nil_of_demand (by rw [demand_nestPairCounts, htagList, List.count_nil, Nat.cast_zero])
  cases b with
  | paramCounts | annoCounts | types | pairCounts | names =>
    exact h.get_top_eq_nil (fun b _ => Multiset.count_zero b) (by decide)
  | tags => exact htags
  | ints => exact hcase .int
  | doubles => exact hcase .double
  | floats => exact hcase .float
  | longs => exact hcase .long
  | classes => exact hcase .classLiteral
  | enumTypes => exact hcase .enumType
  | enumNames => exact hcase .enumName
  | strings => exact hcase .string
  | arrayCounts =>
    exact nil_of_demand (by rw [demand_arrayCounts, htagList, List.count_nil, Nat.cast_zero])
  | nestTypes => exact nil_of_demand (by rw [demand_nestTypes, htagList, List.count_nil, Nat.cast_zero])
  | nestPairCounts => exact hnested
  | nestNames => exact nil_of_demand (by rw [demand_nestNames, hnested, List.sum_nil])

end Bands.Settles

namespace DecodedBands

open Walk

variable {pool : Pool} {kind : Kind} {bands : Bands} {entries calls limit : Nat} {input rest : List UInt8}

/-- Where a walk ends that has nothing due, only tags can be left over. -/
theorem ensureExhausted_of_settles {c : Cursor} (hsettles : c.ahead.Settles 0 0)
    (hlen : ∀ b, (c.bands.get b).length = c.position.get b + (c.ahead.get b).length) :
    ensureExhausted Band.all c = if c.position.get .tags = (c.bands.get .tags).length then .ok () c
      else .error (.desync .tags (c.position.get .tags) (c.bands.get .tags).length) c := by
  have hend {b : Band} (hb : c.ahead.get b = []) : c.position.get b = (c.bands.get b).length := by
    rw [hlen b, hb]
    rfl
  split
  · rename_i htags
    have hnil : c.ahead.get .tags = [] := by
      have := hlen .tags
      exact List.eq_nil_of_length_eq_zero (by omega)
    exact ensureExhausted_ok fun b _ => hend (hsettles.get_eq_nil hnil b)
  · rename_i htags
    have htop : ∀ b ∈ Band.top, c.position.get b = (c.bands.get b).length :=
      fun b hb => hend (hsettles.get_top_eq_nil (fun b _ => Multiset.count_zero b) hb)
    exact ensureExhausted_error (Band.all.drop 6) htop htags

theorem ahead_start (bands : Bands) (maxDepth : Option Nat) : (Cursor.start bands maxDepth).ahead = bands := by
  refine PerBand.ext_get fun b => ?_
  simp [Cursor.get_ahead, Cursor.start]

/-- At the start of bands that were read, what is due for the entries is all
that is due. -/
theorem Reads.owes (h : Reads .direct kind entries calls bands input rest) (hexact : bands.SumsExact) :
    (Cursor.start bands (some limit)).Owes limit (bands.get .tags).length (kind.due entries + 0) := by
  have hahead := ahead_start bands (some limit)
  refine ⟨rfl, ?_, ?_, ?_⟩
  · rw [hahead]
    exact h.sound
  · rw [hahead, Multiset.add_zero]
    exact h.settles hexact
  · rw [hahead]

/-- A walk over the entries of bands that were read stops for a reason outside
the bands. -/
theorem Reads.error_of_collect (h : Reads .direct kind entries calls bands input rest) (hexact : bands.SumsExact)
    {e : BandError} {c : Cursor}
    (hx : collect entries (readEntry pool kind) (Cursor.start bands (some limit)) = .error e c) : e.External limit :=
  (collect_safe (readEntry_safe kind) entries).error (h.owes hexact) hx

/-- Behind the entries of bands that were read, nothing is due. -/
theorem Reads.ok_of_collect (h : Reads .direct kind entries calls bands input rest) (hexact : bands.SumsExact)
    {es : List Entry} {c : Cursor}
    (hx : collect entries (readEntry pool kind) (Cursor.start bands (some limit)) = .ok es c) :
    c.bands = bands ∧ c.ahead.Settles 0 0 ∧
      ∀ b, (bands.get b).length = c.position.get b + (c.ahead.get b).length := by
  have hsafe : Safe limit (bands.get .tags).length _ (collect entries (readEntry pool kind)) _ :=
    collect_safe (readEntry_safe kind) entries
  have hsettles : c.ahead.Settles 0 0 := by simpa using (hsafe.ok (h.owes hexact) hx).settles
  obtain ⟨s, hbefore, rfl, -⟩ := collectEntries_passes entries rfl hx
  refine ⟨rfl, hsettles, fun b => ?_⟩
  have hahead := (ahead_start bands (some limit)).symm.trans hbefore.ahead_eq
  have hlen := congrArg (fun bands => (bands.get b).length) hahead
  simpa [Bands.get_append, Cursor.start] using hlen

/-- When a walk over the entries completes, they are rebuilt, or tags are left
over. -/
theorem Reads.entries_of_collect (h : Reads .direct kind entries calls bands input rest) (hexact : bands.SumsExact)
    {es : List Entry} {c : Cursor}
    (hx : collect entries (readEntry pool kind) (Cursor.start bands (some limit)) = .ok es c) :
    c.position.get .tags ≤ (bands.get .tags).length ∧
      bands.entries kind entries limit pool = if c.position.get .tags = (bands.get .tags).length then .ok es
        else .error (.desync .tags (c.position.get .tags) (bands.get .tags).length) := by
  obtain ⟨hbands, hsettles, hlen⟩ := h.ok_of_collect hexact hx
  have hend := ensureExhausted_of_settles hsettles (by rwa [hbands])
  have hread : readEntries pool kind entries (Cursor.start bands (some limit)) = _ := bind_of_ok hx
  rw [hbands] at hend
  refine ⟨?_, ?_⟩
  · have htags := hlen .tags
    omega
  rw [Bands.entries, result, hread]
  split at hend
  · rename_i hreached
    rw [bind_of_ok hend, if_pos hreached]
    rfl
  · rename_i hreached
    rw [bind_of_error hend, if_neg hreached]

/-- Whatever the bands that were read, as long as words hold the sums of their
counts, their entries are rebuilt, or the pool lacks something, or a value is
nested too deep, or tags are left over. Tags are left over exactly when a walk
over the entries ends ahead of the last tag. -/
theorem entries_of_read {config : Config} {decoded : DecodedBands}
    (h : read .direct kind config entries calls input = .ok decoded rest)
    (hsums : ∀ b : Band, b.isCount = true → (decoded.bands.get b).sum < 2 ^ 63) (pool : Pool) :
    let tags := (decoded.bands.get .tags).length
    let start := Cursor.start decoded.bands (some config.maxNestingDepth)
    ((∃ es, decoded.entries pool = .ok es) ∨
      (∃ k i, decoded.entries pool = .error (.unresolvedReference k i)) ∨
      decoded.entries pool = .error (.nestingTooDeep config.maxNestingDepth) ∨
      ∃ reached, reached < tags ∧ decoded.entries pool = .error (.desync .tags reached tags)) ∧
    ∀ reached, decoded.entries pool = .error (.desync .tags reached tags) ↔
      reached < tags ∧ ∃ es c, collect entries (readEntry pool kind) start = .ok es c ∧
        c.position.get .tags = reached := by
  intro tags start
  obtain ⟨hdecoded, hreads⟩ := read_eq_ok h
  have hexact : decoded.bands.SumsExact := fun b hb => wordSum_eq_sum (hreads.sound.sum_nonneg hb) (hsums b hb)
  have hentries : decoded.entries pool = decoded.bands.entries kind entries config.maxNestingDepth pool := by
    rw [hdecoded]
    rfl
  rw [hentries]
  cases hx : collect entries (readEntry pool kind) start with
  | error e c =>
    rw [readEntries_error hx]
    rcases (hreads.error_of_collect hexact hx).eq_or with rfl | ⟨k, i, rfl⟩
    · exact ⟨.inr (.inr (.inl rfl)), fun reached => by simp⟩
    · exact ⟨.inr (.inl ⟨k, i, rfl⟩), fun reached => by simp⟩
  | ok es c =>
    obtain ⟨hle, hall⟩ := hreads.entries_of_collect hexact hx
    rw [hall]
    by_cases hreached : c.position.get .tags = tags
    · rw [if_pos hreached]
      refine ⟨.inl ⟨es, rfl⟩, fun reached => ⟨fun he => ?_, ?_⟩⟩
      · cases he
      · rintro ⟨hlt, es', c', hok, rfl⟩
        obtain ⟨-, rfl⟩ := EStateM.Result.ok.inj hok
        omega
    · rw [if_neg hreached]
      have hlt : c.position.get .tags < tags := Nat.lt_of_le_of_ne hle hreached
      refine ⟨.inr (.inr (.inr ⟨_, hlt, rfl⟩)), fun reached => ⟨fun he => ?_, ?_⟩⟩
      · injection he with he
        injection he with _ he _
        subst he
        exact ⟨hlt, es, c, rfl, rfl⟩
      · rintro ⟨-, es', c', hok, rfl⟩
        obtain ⟨-, rfl⟩ := EStateM.Result.ok.inj hok
        rfl

/-- Two default values, an array with one element behind them: the counts add
up, but the array belongs to no entry. -/
theorem entries_of_read_left_over :
    let decoded : DecodedBands := ⟨.annotationDefault, .default, 2,
      { Bands.empty with tags := [73, 73, 91], ints := [0, 0], arrayCounts := [1] }⟩
    let pool := (Pool.internConstant (.int 7) Pool.empty).2
    read .direct .annotationDefault .default 2 1 [73, 73, 91, 0, 0, 1] = .ok decoded [] ∧
      (∀ b : Band, b.isCount = true → (decoded.bands.get b).sum < 2 ^ 63) ∧
      decoded.entries pool = .error (.desync .tags 2 3) := by
  intro decoded pool
  have hread : read .direct .annotationDefault .default 2 1 [73, 73, 91, 0, 0, 1] = .ok decoded [] := by cbv
  have hsums : ∀ b : Band, b.isCount = true → (decoded.bands.get b).sum < 2 ^ 63 := by
    intro b
    cases b <;> decide
  refine ⟨hread, hsums, ?_⟩
  exact ((entries_of_read hread hsums pool).2 2).2
    ⟨by decide, [.defaultValue (.int 7), .defaultValue (.int 7)], _, rfl, rfl⟩

end DecodedBands

end AnnotationBands
