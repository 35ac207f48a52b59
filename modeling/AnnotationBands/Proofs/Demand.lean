import AnnotationBands.Proofs.Counting
/-!
# What bands call for

The bands of a group carry no lengths, because each value says what has to
stand elsewhere: a count calls for as many values in the bands that it counts,
and a tag for its operands or its own counts. `Bands.demand` is the number of
values that are called for in a band. Some values are due that no value calls
for, such as those of the entries a group starts with; a piece of the bands
settles what is due ahead of it and leaves other values due (`Bands.Settles`).
Pieces one behind the other settle what the first is given and leave what the
last leaves (`Settles.append`), whatever else is due (`Settles.frame`).
-/

namespace AnnotationBands

theorem Tag.code_of_ofCode? {v : Int} {t : Tag} (h : Tag.ofCode? v = some t) : v = t.code := by
  have hcode := List.find?_some h
  exact (eq_of_beq hcode).symm

/-- The bands in which the tag calls for one value. -/
def Tag.targets (t : Tag) : List Band :=
  match t.dispatch with
  | .literal cases => cases.map CaseBand.band
  | .array => [.arrayCounts]
  | .nested => [.nestTypes, .nestPairCounts]

namespace Band

/-- The bands in which a value of the band calls for as many values. -/
def targets : Band → List Band
  | paramCounts => [annoCounts]
  | annoCounts => [types, pairCounts]
  | pairCounts => [names, tags]
  | arrayCounts => [tags]
  | nestPairCounts => [nestNames, tags]
  | _ => []

/-- A count is not negative, and a value in the band of tags stands for a tag. -/
def Allows (b : Band) (v : Int) : Prop := (b.isCount = true → 0 ≤ v) ∧ (b = .tags → ∃ t : Tag, v = t.code)

theorem allows_tag (t : Tag) : tags.Allows t.code := by
  refine ⟨fun h => ?_, fun _ => ⟨t, rfl⟩⟩
  cases h

theorem allows_count {k : Band} (hk : k ≠ .tags) (n : Nat) : k.Allows n :=
  ⟨fun _ => Int.natCast_nonneg n, fun h => absurd h hk⟩

/-- A band of references allows any value. -/
theorem allows_value {k : Band} (hk : k ≠ .tags) (hcount : k.isCount = false) (v : Int) : k.Allows v := by
  refine ⟨fun h => ?_, fun h => absurd h hk⟩
  rw [hcount] at h
  cases h

theorem targets_eq_nil {b : Band} (h : b.isCount = false) : b.targets = [] := by
  cases b <;> first | rfl | cases h

end Band

namespace Kind

/-- The band that each entry of a group of the kind starts in. -/
def entryBand (kind : Kind) : Band :=
  if kind.isParameter then .paramCounts else if kind.hasDescriptors then .annoCounts else .tags

/-- The values that are due for a number of entries. -/
def due (kind : Kind) (entries : Nat) : Multiset Band := entries • {kind.entryBand}

variable {kind : Kind}

theorem count_due (kind : Kind) (entries : Nat) (b : Band) :
    (kind.due entries).count b = if b = kind.entryBand then entries else 0 := by
  rw [due, Multiset.count_nsmul, Multiset.count_singleton]
  split <;> simp

theorem entryBand_of_isParameter (h : kind.isParameter = true) : kind.entryBand = .paramCounts := if_pos h

theorem entryBand_of_isMember (h : kind.isMember = true) : kind.entryBand = .annoCounts := by
  cases kind <;> first | rfl | cases h

theorem entryBand_of_hasDescriptors (h : kind.hasDescriptors = false) : kind.entryBand = .tags := by
  cases kind <;> first | rfl | cases h

theorem entryBand_isTransmitted (kind : Kind) : kind.entryBand.isTransmitted kind = true := by cases kind <;> rfl

theorem entryBand_mem (kind : Kind) : kind.entryBand ∈ [Band.paramCounts, .annoCounts, .tags] := by
  cases kind <;> decide

theorem count_ints_entryBand (kind : Kind) : ({kind.entryBand} : Multiset Band).count .ints = 0 := by
  cases kind <;> rfl

theorem count_due_of_notMem {b : Band} (hb : b ∉ [Band.paramCounts, .annoCounts, .tags]) (kind : Kind)
    (entries : Nat) : (kind.due entries).count b = 0 := by
  rw [count_due, if_neg]
  rintro rfl
  exact hb kind.entryBand_mem

end Kind

theorem Tag.targets_literal {t : Tag} (h : t.dispatch = .literal t.cases) :
    t.targets = t.cases.map CaseBand.band := by
  rw [targets, h]

/-- A tag calls for at most one value in each band. -/
theorem Tag.count_targets (t : Tag) (b : Band) : t.targets.count b = if b ∈ t.targets then 1 else 0 := by
  have hnodup : t.targets.Nodup := by cases t <;> decide
  by_cases hb : b ∈ t.targets
  · rw [if_pos hb, List.count_eq_one_of_mem hnodup hb]
  · rw [if_neg hb, List.count_eq_zero_of_not_mem hb]

theorem Tag.band_mem_targets (t : Tag) (case : CaseBand) : case.band ∈ t.targets ↔ case ∈ t.cases := by
  cases t <;> cases case <;> decide

namespace Bands

variable {s t : Bands}

theorem sum_get_append (b : Band) : ((s ++ t).get b).sum = (s.get b).sum + (t.get b).sum := by
  rw [get_append, List.sum_append]

theorem sum_get_single (b b' : Band) (v : Int) : ((single b v).get b').sum = if b' = b then v else 0 := by
  rw [get_single]
  split <;> simp

@[simp] theorem tagList_append : (s ++ t).tagList = s.tagList ++ t.tagList := by
  rw [tagList, tagList, tagList, get_append, List.filterMap_append]

@[simp] theorem tagList_empty : empty.tagList = [] := by rw [tagList, get_empty, List.filterMap_nil]

theorem tagList_single {b : Band} (hb : b ≠ .tags) (v : Int) : (single b v).tagList = [] := by
  rw [tagList, get_single, if_neg hb.symm, List.filterMap_nil]

theorem tagList_of_codes {ts : List Tag} (h : s.get .tags = ts.map Tag.code) : s.tagList = ts := by
  rw [tagList, h, List.filterMap_map]
  simp [Tag.ofCode?_code]

/-- The number of values that the values of all bands call for in a band, where
the counts of each band are added up in the given way: without bounds
(`List.sum`), or as a reader does it (`wordSum`). -/
def demand (bands : Bands) (addUp : List Int → Int) (b : Band) : Int :=
  (Band.all.map fun k => addUp (bands.get k) * (k.targets.count b : Int)).sum +
    (bands.tagList.flatMap Tag.targets).count b

@[simp] theorem demand_append (b : Band) :
    (s ++ t).demand List.sum b = s.demand List.sum b + t.demand List.sum b := by
  unfold demand
  simp only [sum_get_append, tagList_append, List.flatMap_append, List.count_append, add_mul, List.sum_map_add]
  push_cast
  ring

@[simp] theorem demand_empty (b : Band) : empty.demand List.sum b = 0 := by
  simp [demand, get_empty]

theorem demand_tag (t : Tag) (b : Band) : (single .tags t.code).demand List.sum b = t.targets.count b := by
  have htags : (single .tags t.code).tagList = [t] := by simp [tagList, get_single, Tag.ofCode?_code]
  -- the band of tags holds no counts
  have hsum : ∀ k ∈ Band.all, ((single .tags t.code).get k).sum * (k.targets.count b : Int) = 0 := by
    intro k _
    rw [sum_get_single]
    split
    · subst k
      simp [Band.targets]
    · rw [Int.zero_mul]
  rw [demand, htags, List.map_congr_left hsum]
  simp

theorem demand_single {k : Band} (hk : k ≠ .tags) (n : Int) (b : Band) :
    (single k n).demand List.sum b = n * (k.targets.count b : Int) := by
  have hsum : ∀ k' ∈ Band.all, ((single k n).get k').sum * (k'.targets.count b : Int) =
      if k' = k then n * (k.targets.count b : Int) else 0 := by
    intro k' _
    rw [sum_get_single]
    split
    · subst k'
      rfl
    · rw [Int.zero_mul]
  rw [demand, tagList_single hk, List.map_congr_left hsum, List.sum_map_ite_eq,
    List.count_eq_one_of_mem Band.nodup_all (Band.mem_all k)]
  simp

/-! ### The demand for each band -/

theorem count_flatMap_targets (ts : List Tag) (b : Band) :
    (ts.flatMap Tag.targets).count b = ts.countP (b ∈ ·.targets) := by
  induction ts with
  | nil => rfl
  | cons t ts ih =>
    rw [List.flatMap_cons, List.count_append, ih, t.count_targets, List.countP_cons, Nat.add_comm]
    simp

/-- Only tags call for values in the bands that no count counts. -/
theorem demand_of_tags {b : Band} (hb : ∀ k : Band, b ∉ k.targets) (bands : Bands) (addUp : List Int → Int) :
    bands.demand addUp b = bands.tagList.countP (b ∈ ·.targets) := by
  have hsum : ∀ k ∈ Band.all, addUp (bands.get k) * (k.targets.count b : Int) = 0 := by
    intro k _
    rw [List.count_eq_zero_of_not_mem (hb k)]
    exact Int.mul_zero _
  rw [demand, List.map_congr_left hsum, count_flatMap_targets]
  simp

/-- Only counts call for values in the bands that no tag feeds. -/
theorem demand_of_counts {b : Band} (hb : ∀ t : Tag, b ∉ t.targets) (bands : Bands) (addUp : List Int → Int) :
    bands.demand addUp b = (Band.all.map fun k => addUp (bands.get k) * (k.targets.count b : Int)).sum := by
  rw [demand, count_flatMap_targets, List.countP_eq_zero.2 fun t _ => by simp [hb t]]
  exact Int.add_zero _

section Values

variable (bands : Bands) (addUp : List Int → Int)

theorem demand_paramCounts : bands.demand addUp .paramCounts = 0 := by
  rw [demand_of_counts fun t => by cases t <;> decide]
  simp [Band.all, Band.targets]

theorem demand_annoCounts : bands.demand addUp .annoCounts = addUp (bands.get .paramCounts) := by
  rw [demand_of_counts fun t => by cases t <;> decide]
  simp [Band.all, Band.targets]

theorem demand_types : bands.demand addUp .types = addUp (bands.get .annoCounts) := by
  rw [demand_of_counts fun t => by cases t <;> decide]
  simp [Band.all, Band.targets]

theorem demand_pairCounts : bands.demand addUp .pairCounts = addUp (bands.get .annoCounts) := by
  rw [demand_of_counts fun t => by cases t <;> decide]
  simp [Band.all, Band.targets]

theorem demand_names : bands.demand addUp .names = addUp (bands.get .pairCounts) := by
  rw [demand_of_counts fun t => by cases t <;> decide]
  simp [Band.all, Band.targets]

theorem demand_tags : bands.demand addUp .tags =
    addUp (bands.get .pairCounts) + addUp (bands.get .arrayCounts) + addUp (bands.get .nestPairCounts) := by
  rw [demand_of_counts fun t => by cases t <;> decide]
  simp [Band.all, Band.targets, add_assoc]

theorem demand_nestNames : bands.demand addUp .nestNames = addUp (bands.get .nestPairCounts) := by
  rw [demand_of_counts fun t => by cases t <;> decide]
  simp [Band.all, Band.targets]

theorem demand_case (case : CaseBand) : bands.demand addUp case.band = bands.tagList.countP (case ∈ ·.cases) := by
  rw [demand_of_tags fun k => by cases case <;> cases k <;> decide]
  simp only [Tag.band_mem_targets]

theorem demand_arrayCounts : bands.demand addUp .arrayCounts = bands.tagList.count .array := by
  rw [demand_of_tags fun k => by cases k <;> decide]
  exact congrArg Nat.cast (List.countP_congr fun t _ => by cases t <;> decide)

theorem demand_nestTypes : bands.demand addUp .nestTypes = bands.tagList.count .nested := by
  rw [demand_of_tags fun k => by cases k <;> decide]
  exact congrArg Nat.cast (List.countP_congr fun t _ => by cases t <;> decide)

theorem demand_nestPairCounts : bands.demand addUp .nestPairCounts = bands.tagList.count .nested := by
  rw [demand_of_tags fun k => by cases k <;> decide]
  exact congrArg Nat.cast (List.countP_congr fun t _ => by cases t <;> decide)

/-- Where no sum wraps around, a reader asks for what is called for. -/
theorem demand_wordSum {bands : Bands} (h : bands.SumsExact) (b : Band) :
    bands.demand wordSum b = bands.demand List.sum b := by
  have hterm : ∀ k ∈ Band.all, wordSum (bands.get k) * (k.targets.count b : Int) =
      (bands.get k).sum * (k.targets.count b : Int) := by
    intro k _
    cases hk : k.isCount with
    | true => rw [h k hk]
    | false => simp [Band.targets_eq_nil hk]
  rw [demand, demand, List.map_congr_left hterm]

end Values

/-! ## Settling what is due -/

/-- The bands hold the values that are due ahead of them and those that they
call for themselves, but for the values that they leave due. -/
def Settles (bands : Bands) (due left : Multiset Band) : Prop :=
  ∀ b, ((bands.get b).length : Int) + left.count b = due.count b + bands.demand List.sum b

namespace Settles

variable {due mid left more : Multiset Band}

theorem append (h : s.Settles due mid) (h' : t.Settles mid left) : (s ++ t).Settles due left := by
  intro b
  have hs := h b
  have ht := h' b
  rw [get_append, List.length_append, demand_append]
  push_cast
  omega

theorem frame (h : s.Settles due left) (more : Multiset Band) : s.Settles (due + more) (left + more) := by
  intro b
  have hs := h b
  rw [Multiset.count_add, Multiset.count_add]
  push_cast
  omega

/-- What stands behind a piece settles what the piece leaves due. -/
theorem behind (h : s.Settles due left) (h' : (s ++ t).Settles (due + more) 0) : t.Settles (left + more) 0 := by
  intro b
  have hs := h b
  have hst := h' b
  rw [get_append, List.length_append, demand_append, Multiset.count_add] at hst
  rw [Multiset.count_add]
  push_cast at hst ⊢
  omega

theorem empty (due : Multiset Band) : Bands.empty.Settles due due := by
  intro b
  simp [get_empty]

theorem tag (t : Tag) (more : Multiset Band) :
    (single .tags t.code).Settles (.tags ::ₘ more) ((t.targets : Multiset Band) + more) := by
  intro b
  rw [demand_tag, get_single, Multiset.count_cons, Multiset.count_add, Multiset.coe_count]
  by_cases hb : b = .tags
  · simp [hb]
    omega
  · simp [hb]
    omega

/-- A count settles itself and leaves due what it counts. -/
theorem count {k : Band} (hk : k ≠ .tags) (n : Nat) (more : Multiset Band) :
    (single k n).Settles (k ::ₘ more) (n • (k.targets : Multiset Band) + more) := by
  intro b
  rw [demand_single hk, get_single, Multiset.count_cons, Multiset.count_add, Multiset.count_nsmul, Multiset.coe_count]
  by_cases hb : b = k
  · simp [hb]
    omega
  · simp [hb]
    omega

/-- A value that is no count settles itself. -/
theorem value {k : Band} (hk : k ≠ .tags) (hcount : k.isCount = false) (v : Int) (more : Multiset Band) :
    (single k v).Settles (k ::ₘ more) more := by
  intro b
  rw [demand_single hk, Band.targets_eq_nil hcount, get_single, Multiset.count_cons]
  by_cases hb : b = k
  · simp [hb]
    omega
  · simp [hb]

/-- Bands that leave nothing due hold just the values that are due and those
that they call for. -/
theorem length_get (h : s.Settles due 0) (b : Band) : ((s.get b).length : Int) = due.count b + s.demand List.sum b := by
  have hb := h b
  rwa [Multiset.count_zero, Nat.cast_zero, Int.add_zero] at hb

theorem get_eq_nil_of_demand (h : s.Settles due 0) {b : Band} (hdue : due.count b = 0)
    (hdemand : s.demand List.sum b = 0) : s.get b = [] := by
  have hlen := h.length_get b
  rw [hdue, hdemand] at hlen
  exact List.eq_nil_of_length_eq_zero (by omega)

/-- Where nothing is due in the bands ahead of the tags, these are empty. -/
theorem get_top_eq_nil (h : s.Settles due 0) (hdue : ∀ b ∈ Band.top, due.count b = 0) {b : Band} (hb : b ∈ Band.top) :
    s.get b = [] := by
  have nil_of_demand {b : Band} (hb : b ∈ Band.top) : s.demand List.sum b = 0 → s.get b = [] :=
    h.get_eq_nil_of_demand (hdue b hb)
  have hparams : s.get .paramCounts = [] := nil_of_demand (by decide) (s.demand_paramCounts _)
  have hannos : s.get .annoCounts = [] :=
    nil_of_demand (by decide) (by rw [demand_annoCounts, hparams, List.sum_nil])
  have hpairs : s.get .pairCounts = [] :=
    nil_of_demand (by decide) (by rw [demand_pairCounts, hannos, List.sum_nil])
  cases b with
  | paramCounts => exact hparams
  | annoCounts => exact hannos
  | types => exact nil_of_demand hb (by rw [demand_types, hannos, List.sum_nil])
  | pairCounts => exact hpairs
  | names => exact nil_of_demand hb (by rw [demand_names, hpairs, List.sum_nil])
  | _ => exact absurd hb (by decide)

end Settles

/-! ## Sound values -/

/-- Each band holds values that it allows. -/
def Sound (bands : Bands) : Prop := ∀ b, ∀ v ∈ bands.get b, b.Allows v

namespace Sound

theorem append_iff : (s ++ t).Sound ↔ s.Sound ∧ t.Sound := by
  unfold Sound
  simp only [get_append, List.forall_mem_append, forall_and]

theorem empty : Bands.empty.Sound := by
  intro b v hv
  rw [get_empty] at hv
  cases hv

theorem single_iff {b : Band} {v : Int} : (single b v).Sound ↔ b.Allows v := by
  constructor
  · intro h
    exact h b v (by simp [get_single])
  · intro h b' w hw
    rw [get_single] at hw
    split at hw
    · subst b'
      rwa [List.mem_singleton.1 hw]
    · cases hw

theorem sum_nonneg (h : s.Sound) {b : Band} (hb : b.isCount = true) : 0 ≤ (s.get b).sum :=
  List.sum_nonneg fun v hv => (h b v hv).1 hb

/-- Sound bands call for no negative number of values. -/
theorem demand_nonneg (h : s.Sound) (b : Band) : 0 ≤ s.demand List.sum b := by
  refine Int.add_nonneg (List.sum_nonneg fun x hx => ?_) (Int.natCast_nonneg _)
  obtain ⟨k, -, rfl⟩ := List.mem_map.1 hx
  cases hk : k.isCount with
  | true => exact Int.mul_nonneg (h.sum_nonneg hk) (Int.natCast_nonneg _)
  | false => simp [Band.targets_eq_nil hk]

theorem tags_eq (h : s.Sound) : s.get .tags = s.tagList.map Tag.code := by
  have hcodes := h .tags
  rw [tagList]
  generalize s.get .tags = vs at hcodes
  induction vs with
  | nil => rfl
  | cons v vs ih =>
    obtain ⟨hv, hvs⟩ := List.forall_mem_cons.1 hcodes
    obtain ⟨t, rfl⟩ := hv.2 rfl
    rw [List.filterMap_cons, Tag.ofCode?_code, List.map_cons, ← ih hvs]

end Sound

end Bands

end AnnotationBands
