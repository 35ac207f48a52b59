import AnnotationBands.Proofs.Session
/-!
# How the bands of a group fit each other

The eighteen bands of a group are written without framing, so their lengths and
sums have to fit each other in every state (`Group.CrossBand`): each tag feeds
its case bands, each count is a count of what stands in another band, and the
bands that the kind does not send are empty. Every group that holds a ledger is
like this (`Group.Holds.crossBand`), and with a pool that has an index for
every literal, each of its references resolves (`Group.Holds.resolves`). What a
group adds up about its trees is at most the number of its tags, so it never
wraps around in a word (`Group.Reachable.fits_words`). Main statement:
`Session.run_crossBand`.
-/

namespace AnnotationBands

/-- Whether a number in the band of tags stands for a tag that feeds the case
band. -/
def CaseBand.isFedBy (case : CaseBand) (value : Int) : Bool := (Tag.ofCode? value).any (case ∈ ·.cases)

namespace Group

/-- How the lengths, sums and values of the bands fit each other for given
numbers of annotations and default values that are not nested in another. -/
structure CrossBand (g : Group) (annotations values : Nat) : Prop where
  length_types : (g.bands.get .types).length = annotations
  length_pairCounts : (g.bands.get .pairCounts).length = annotations
  length_names : ((g.bands.get .names).length : Int) = (g.bands.get .pairCounts).sum
  length_tags : ((g.bands.get .tags).length : Int) =
    (if g.kind.hasDescriptors then (g.bands.get .pairCounts).sum else values) + (g.bands.get .arrayCounts).sum +
      (g.bands.get .nestPairCounts).sum
  tags : ∀ v ∈ g.bands.get .tags, v ∈ Tag.all.map Tag.code
  length_case : ∀ case : CaseBand, (g.bands.get case.band).length = (g.bands.get .tags).countP case.isFedBy
  length_arrayCounts : (g.bands.get .arrayCounts).length = (g.bands.get .tags).count Tag.array.code
  length_nestTypes : (g.bands.get .nestTypes).length = (g.bands.get .tags).count Tag.nested.code
  length_nestPairCounts : (g.bands.get .nestPairCounts).length = (g.bands.get .tags).count Tag.nested.code
  length_nestNames : ((g.bands.get .nestNames).length : Int) = (g.bands.get .nestPairCounts).sum
  member_annoCounts : g.kind.isMember = true → ∀ n ∈ g.bands.get .annoCounts, 1 ≤ n
  parameter_paramCounts : g.kind.isParameter = true → (g.bands.get .paramCounts).sum = (g.bands.get .annoCounts).length
  parameter_annoCounts : g.kind.isParameter = true → (g.bands.get .annoCounts).sum = (g.bands.get .types).length
  paramCounts_le : ∀ n ∈ g.bands.get .paramCounts, n ≤ 255
  unsent : ∀ b : Band, b.isTransmitted g.kind = false → g.bands.get b = []

/-- Each reference resolves in the index space that its band points into. -/
def Resolves (g : Group) (pool : Pool) : Prop :=
  ∀ b k, b.pool? = some k → ∀ i ∈ g.bands.get b, ∃ x : Operand, x.pool = k ∧ x.IsAt pool i

end Group

/-! ## Trees that are not nested in another -/

namespace Flat

variable {M : Operand → Int → Prop}

/-- Default values leave as many values open as there are. -/
theorem Value.counted_join {vs : List ElementValue} {ss : List Segment} (h : List.Forall₂ (Value M) vs ss) :
    (Segment.join ss).Counted vs.length 0 := by
  have := Segment.Counted.join (h.imp fun _ _ hs => hs.counted)
  simpa using this

theorem Value.get_join_top {vs : List ElementValue} {ss : List Segment} (h : List.Forall₂ (Value M) vs ss) {b : Band}
    (hb : b ∈ Band.top) : (Segment.join ss).bands.get b = [] := by
  induction h with
  | nil => simp
  | cons hs _ ih => simp [hs.get_top hb, ih]

/-- Annotations leave as many values open as they have pairs. -/
theorem Root.counted_join {as : List Annotation} {ss : List Segment} (h : List.Forall₂ (Root M) as ss) :
    (Segment.join ss).Counted ((Segment.join ss).bands.get .pairCounts).sum 0 := by
  induction h with
  | nil => simpa using Segment.Counted.empty
  | cons hs _ ih =>
    have := hs.counted.1.append ih
    simpa [hs.counted.2.2.1] using this

theorem Root.length_join_pairCounts {as : List Annotation} {ss : List Segment} (h : List.Forall₂ (Root M) as ss) :
    ((Segment.join ss).bands.get .pairCounts).length = as.length := by
  induction h with
  | nil => simp
  | cons hs _ ih => simp [hs.counted.2.2.1, ih]

theorem Root.length_join_names {as : List Annotation} {ss : List Segment} (h : List.Forall₂ (Root M) as ss) :
    (((Segment.join ss).bands.get .names).length : Int) = ((Segment.join ss).bands.get .pairCounts).sum := by
  induction h with
  | nil => simp
  | cons hs _ ih => simp [hs.counted.2.2.1, hs.counted.2.2.2, ih]

end Flat

namespace Segment

theorem Counted.mem_tags {s : Segment} {m n : Int} (h : s.Counted m n) :
    ∀ v ∈ s.bands.get .tags, v ∈ Tag.all.map Tag.code := by
  rw [h.tags]
  intro v hv
  obtain ⟨t, -, rfl⟩ := List.mem_map.1 hv
  exact List.mem_map_of_mem (Tag.mem_all t)

theorem Counted.countP_isFedBy {s : Segment} {m n : Int} (h : s.Counted m n) (case : CaseBand) :
    (s.bands.get .tags).countP case.isFedBy = s.bands.tagList.countP (case ∈ ·.cases) := by
  rw [h.tags, List.countP_map]
  refine List.countP_congr fun t _ => ?_
  simp [CaseBand.isFedBy, Tag.ofCode?_code]

theorem Counted.count_code {s : Segment} {m n : Int} (h : s.Counted m n) (t : Tag) :
    (s.bands.get .tags).count t.code = s.bands.tagList.count t := by
  have hinj : Function.Injective Tag.code := fun a b hab => by
    simpa [Tag.ofCode?_code] using congrArg Tag.ofCode? hab
  rw [h.tags]
  exact List.count_map_of_injective _ _ hinj t

end Segment

theorem sum_map_length {α : Type} (xss : List (List α)) :
    (xss.map fun xs => (xs.length : Int)).sum = xss.flatten.length := by
  induction xss with
  | nil => rfl
  | cons xs xss ih => simp [ih]

theorem forall_mem_map_natCast {α : Type} (f : α → Nat) (xs : List α) : ∀ n ∈ xs.map fun x => (f x : Int), 0 ≤ n := by
  intro n hn
  obtain ⟨x, -, rfl⟩ := List.mem_map.1 hn
  exact Int.natCast_nonneg _

namespace Ledger

theorem paramCounts_nonneg (l : Ledger) : ∀ n ∈ l.paramCounts, 0 ≤ n := by
  cases l with
  | parameters es => exact forall_mem_map_natCast List.length es
  | _ => simp [paramCounts]

theorem annoCounts_nonneg (l : Ledger) : ∀ n ∈ l.annoCounts, 0 ≤ n := by
  cases l with
  | members as ns => exact forall_mem_map_natCast id ns
  | parameters es => exact forall_mem_map_natCast List.length es.flatten
  | _ => simp [annoCounts]

end Ledger

namespace Group.Holds

variable {M : Operand → Int → Prop} {g : Group} {l : Ledger}

/-- The content bands are those of one segment, in which only the values that
are not nested in another are left open. -/
theorem content (h : g.Holds M l) : ∃ s : Segment,
    (∀ b : Band, b.isEntryCount = false → g.bands.get b = s.bands.get b) ∧ g.calls = s.calls ∧
      s.Counted (if g.kind.hasDescriptors then (s.bands.get .pairCounts).sum else l.values.length) 0 ∧
      (s.bands.get .types).length = l.annotations.length ∧ (s.bands.get .pairCounts).length = l.annotations.length ∧
      ((s.bands.get .names).length : Int) = (s.bands.get .pairCounts).sum ∧
      (g.kind.hasDescriptors = false → ∀ b ∈ Band.top, s.bands.get b = []) := by
  obtain ⟨segs, hl⟩ := h.layout
  have hdesc := h.suits.hasDescriptors
  refine ⟨Segment.join segs, fun b hb => hl.get_content hb, hl.calls, ?_⟩
  have hflat := hl.flat
  cases hd : l.isDefaults with
  | true =>
    obtain ⟨vs, rfl⟩ : ∃ vs, l = .defaults vs := by cases l <;> first | exact ⟨_, rfl⟩ | cases hd
    rw [Ledger.trees, List.forall₂_map_left_iff] at hflat
    have htop {b : Band} (hb : b ∈ Band.top) : (Segment.join segs).bands.get b = [] := Flat.Value.get_join_top hflat hb
    rw [hdesc, hd, htop (b := .types) (by decide), htop (b := .pairCounts) (by decide), htop (b := .names) (by decide)]
    exact ⟨Flat.Value.counted_join hflat, rfl, rfl, rfl, fun _ b hb => htop hb⟩
  | false =>
    have htrees : l.trees = l.annotations.map .root := by cases l <;> first | rfl | cases hd
    rw [htrees, List.forall₂_map_left_iff] at hflat
    rw [hdesc, hd]
    exact ⟨Flat.Root.counted_join hflat, Flat.Root.length_join_types hflat, Flat.Root.length_join_pairCounts hflat,
      Flat.Root.length_join_names hflat, fun h => by cases h⟩

/-- In a group that holds a ledger, the bands fit each other. -/
theorem crossBand (h : g.Holds M l) : g.CrossBand l.annotations.length l.values.length := by
  obtain ⟨s, hget, hcalls, hcounted, htypes, hpairs, hnames, htop⟩ := h.content
  have hcase (case : CaseBand) : case.band.isEntryCount = false := by cases case <;> rfl
  have hparams : g.bands.get .paramCounts = l.paramCounts := h.bands_paramCounts
  have hannos : g.bands.get .annoCounts = l.annoCounts := h.bands_annoCounts
  constructor
  case length_types => rw [hget _ rfl, htypes]
  case length_pairCounts => rw [hget _ rfl, hpairs]
  case length_names => rw [hget .names rfl, hget .pairCounts rfl, hnames]
  case length_tags =>
    -- a tag stands for a value at the top or for one call
    have := hcounted.calls
    rw [hget .tags rfl, hcounted.length_tags, hget .pairCounts rfl, hget .arrayCounts rfl, hget .nestPairCounts rfl]
    omega
  case tags => rw [hget _ rfl]; exact hcounted.mem_tags
  case length_case =>
    intro case
    rw [hget _ (hcase case), hget _ rfl, hcounted.length_case, hcounted.countP_isFedBy]
  case length_arrayCounts => rw [hget _ rfl, hget _ rfl, hcounted.length_arrayCounts, hcounted.count_code]
  case length_nestTypes => rw [hget _ rfl, hget _ rfl, hcounted.length_nestTypes, hcounted.count_code]
  case length_nestPairCounts => rw [hget _ rfl, hget _ rfl, hcounted.length_nestPairCounts, hcounted.count_code]
  case length_nestNames => rw [hget .nestNames rfl, hget .nestPairCounts rfl, hcounted.length_nestNames, Int.zero_add]
  case member_annoCounts =>
    intro hkind n hn
    rw [h.suits.isMember] at hkind
    rw [hannos] at hn
    cases l with
    | members as ns =>
      obtain ⟨m, hm, rfl⟩ := List.mem_map.1 hn
      have := h.suits.2 m hm
      omega
    | _ => cases hkind
  case parameter_paramCounts =>
    intro hkind
    rw [h.suits.isParameter] at hkind
    rw [hparams, hannos]
    cases l with
    | parameters es => rw [Ledger.paramCounts, sum_map_length, Ledger.annoCounts, List.length_map]
    | _ => cases hkind
  case parameter_annoCounts =>
    intro hkind
    rw [h.suits.isParameter] at hkind
    rw [hannos, hget _ rfl, htypes]
    cases l with
    | parameters es => rw [Ledger.annoCounts, sum_map_length, Ledger.annotations]
    | _ => cases hkind
  case paramCounts_le =>
    intro n hn
    rw [hparams] at hn
    cases l with
    | parameters es =>
      obtain ⟨ps, hps, rfl⟩ := List.mem_map.1 hn
      have := h.suits.2 ps hps
      simp only [maxParameters] at this
      omega
    | _ => cases hn
  case unsent =>
    intro b hb
    have hdesc := h.suits.hasDescriptors
    have hparam := h.suits.isParameter
    cases b with
    | paramCounts =>
      rw [hparams]
      cases l with
      | parameters es => exact Bool.noConfusion (hparam.symm.trans hb)
      | _ => rfl
    | annoCounts =>
      rw [hannos]
      cases l with
      | defaults vs => rfl
      | _ => exact Bool.noConfusion (hdesc.symm.trans hb)
    | types | pairCounts | names => rw [hget _ rfl, htop hb _ (by decide)]
    | _ => cases hb

/-- With a pool that has an index for every literal, each reference of the
group resolves. -/
theorem resolves {pool : Pool} (h : g.Holds (References.pool.Means pool) l) (hfits : pool.Fits) : g.Resolves pool := by
  obtain ⟨segs, hl⟩ := h.layout
  have hall := hl.additive (Flat.additive_refers _)
  intro b k hk i hi
  have hb : b.isEntryCount = false := by cases b <;> first | rfl | cases hk
  rw [hl.get_content hb] at hi
  obtain ⟨x, hx, hmeans⟩ := hall b k hk i hi
  exact ⟨x, hx, hmeans.2 hfits⟩

/-! ## Sums that fit a word -/

theorem count_nonneg (h : g.Holds M l) {b : Band} (hb : b.isCount = true) : ∀ n ∈ g.bands.get b, 0 ≤ n := by
  obtain ⟨segs, hl⟩ := h.layout
  have hcontent := hl.additive (Flat.additive_count_nonneg M)
  cases b with
  | paramCounts => exact (show g.bands.get .paramCounts = l.paramCounts from h.bands_paramCounts) ▸ l.paramCounts_nonneg
  | annoCounts => exact (show g.bands.get .annoCounts = l.annoCounts from h.bands_annoCounts) ▸ l.annoCounts_nonneg
  | pairCounts | arrayCounts | nestPairCounts =>
    rw [hl.get_content rfl]
    exact hcontent _ rfl
  | _ => cases hb

/-- From whatever point on, counts of pairs and elements add up to no more than
the number of tags. -/
theorem sum_drop_le (h : g.Holds M l) {b : Band} (hb : b.isContentCount = true) (n : Nat) :
    ((g.bands.get b).drop n).sum ≤ (g.bands.get .tags).length := by
  have hsum {b : Band} (hb : b.isCount = true) : 0 ≤ (g.bands.get b).sum := List.sum_nonneg (h.count_nonneg hb)
  have hcount : b.isCount = true := by simp [Band.isCount, hb]
  have hparts : (g.bands.get b).sum = ((g.bands.get b).take n).sum + ((g.bands.get b).drop n).sum := by
    rw [← List.sum_append, List.take_append_drop]
  have htake : 0 ≤ ((g.bands.get b).take n).sum :=
    List.sum_nonneg fun v hv => h.count_nonneg hcount v (List.mem_of_mem_take hv)
  have hpairs : (g.bands.get .pairCounts).sum ≤
      if g.kind.hasDescriptors then (g.bands.get .pairCounts).sum else l.values.length := by
    by_cases hd : g.kind.hasDescriptors = true
    · rw [if_pos hd]
    · have hunsent : g.bands.get .pairCounts = [] := h.crossBand.unsent .pairCounts (Bool.eq_false_iff.2 hd)
      rw [if_neg hd, hunsent, List.sum_nil]
      exact Int.natCast_nonneg _
  have htags := h.crossBand.length_tags
  have := hsum (b := .pairCounts) rfl
  have := hsum (b := .arrayCounts) rfl
  have := hsum (b := .nestPairCounts) rfl
  cases b with
  | pairCounts | arrayCounts | nestPairCounts => omega
  | _ => cases hb

/-- So they are added up in words as they are without bounds. -/
theorem wordSum_drop (h : g.Holds M l) (hlength : (g.bands.get .tags).length < 2 ^ 63) {b : Band}
    (hb : b.isContentCount = true) (n : Nat) : wordSum ((g.bands.get b).drop n) = ((g.bands.get b).drop n).sum := by
  have hcount : b.isCount = true := by simp [Band.isCount, hb]
  have hle := h.sum_drop_le hb n
  refine wordSum_eq_sum (List.sum_nonneg fun v hv => h.count_nonneg hcount v (List.mem_of_mem_drop hv)) ?_
  omega

theorem calls_le (h : g.Holds M l) : g.calls ≤ (g.bands.get .tags).length := by
  obtain ⟨s, hget, hcalls, hcounted, -⟩ := h.content
  have htags := hcounted.length_tags
  have hpairs : 0 ≤ (s.bands.get .pairCounts).sum := by
    rw [← hget .pairCounts rfl]
    exact List.sum_nonneg (h.count_nonneg rfl)
  rw [hget .tags rfl, hcalls]
  split at htags <;> omega

end Group.Holds

/-- As long as a word holds the number of tags, it holds all that a group adds up
about its trees: the number of calls, and the counts of pairs and elements from
whatever point on. None of these wraps around. -/
theorem Group.Reachable.fits_words {g : Group} (hg : g.Reachable) (hlength : (g.bands.get .tags).length < 2 ^ 63) :
    g.calls < 2 ^ 63 ∧ ∀ b : Band, b.isContentCount = true → g.bands.sum b = (g.bands.get b).sum ∧
      ∀ mark : Mark, wordSum ((g.bands.get b).drop (mark.get b)) = g.bands.sumSince b mark := by
  obtain ⟨l, hl⟩ := hg.holds
  refine ⟨Nat.lt_of_le_of_lt hl.calls_le hlength, fun b hb => ⟨?_, fun mark => ?_⟩⟩
  · exact hl.wordSum_drop hlength hb 0
  · rw [Bands.sumSince_eq]
    exact hl.wordSum_drop hlength hb (mark.get b)

namespace Session

variable {ι : Type} [DecidableEq ι]

/-- Whatever calls are made on groups that share a pool, the bands of each
group fit each other, and as long as the pool has an index for every literal,
each reference resolves in it. -/
theorem run_crossBand (kind : ι → Kind) (context : ι → Context) (config : ι → Config) (pool : Pool)
    (calls : List (ι × Group.Change)) (i : ι) :
    let run := (start kind context config pool).run calls
    let own := ((Ledger.empty (kind i)).run (kind i) (config i).maxNestingDepth (only i calls)).2
    (run.2.groups i).CrossBand own.annotations.length own.values.length ∧
      (run.2.pool.Fits → (run.2.groups i).Resolves run.2.pool) := by
  intro run own
  have hstart : (start kind context config pool).Holds References.pool fun i => .empty (kind i) :=
    start_holds kind context config pool
  obtain ⟨-, -, hholds⟩ := run_holds hstart calls i
  exact ⟨hholds.crossBand, hholds.resolves⟩

/-- A group of parameters that keeps an entry, refuses one that is nested too
deep, and removes one. -/
theorem run_crossBand_parameters :
    let run := (start (fun _ : Unit => .visibleParameter) (fun _ => .method) (fun _ => { maxNestingDepth := 1 })
      Pool.empty).run [((), .addParameters [[⟨"LA;", [("x", .int 1)]⟩], []]),
        ((), .addParameters [[⟨"LB;", [("y", .array [.int 2])]⟩]]), ((), .addParameters [[⟨"LC;", []⟩]]),
        ((), .removeLatest)]
    (run.2.groups ()).CrossBand 1 0 ∧ run.2.pool.Fits ∧ (run.2.groups ()).Resolves run.2.pool := by
  intro run
  have hfits : run.2.pool.Fits := fun k => by cases k <;> decide
  have h := run_crossBand (fun _ : Unit => .visibleParameter) (fun _ => .method) (fun _ => { maxNestingDepth := 1 })
    Pool.empty [((), .addParameters [[⟨"LA;", [("x", .int 1)]⟩], []]), ((), .addParameters [[⟨"LB;", [("y", .array [.int 2])]⟩]]),
      ((), .addParameters [[⟨"LC;", []⟩]]), ((), .removeLatest)] ()
  exact ⟨h.1, hfits, h.2 hfits⟩

end Session

end AnnotationBands
