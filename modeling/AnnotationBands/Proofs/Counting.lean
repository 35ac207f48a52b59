import AnnotationBands.Proofs.Flat
/-!
# Counting rules of flattened trees

How many values a tree adds to each band is determined by its tags and counts.
The rules (`Segment.Counted`) add up when segments are put one behind the
other, with two numbers that a piece of a tree may leave open: how many values
it holds that are not nested in another of its values, and how many nested
names whose count stands elsewhere. A value leaves one value and no name open
(`Flat.Value.counted`), and an annotation as many values as it has pairs
(`Flat.Root.counted`). Whatever holds of the pieces of a tree and adds up holds
of the tree (`Flat.Value.additive`, `Flat.Root.additive`).
-/

namespace AnnotationBands

namespace Band

/-- The bands of entries and of annotations that are not nested in another. -/
def top : List Band := [paramCounts, annoCounts, types, pairCounts, names]

/-- The index space that a band of references points into. -/
def pool? : Band → Option PoolKind
  | types | classes | enumTypes | nestTypes => some .signature
  | names | enumNames | strings | nestNames => some .utf8
  | ints => some .int
  | doubles => some .double
  | floats => some .float
  | longs => some .long
  | _ => none

/-- The bands of counts within annotations. -/
def isContentCount : Band → Bool
  | pairCounts | arrayCounts | nestPairCounts => true
  | _ => false

/-- Bands of counts. -/
def isCount (b : Band) : Bool := b.isEntryCount || b.isContentCount

theorem pool?_eq_none {b : Band} (h : b.isContentCount = true) : b.pool? = none := by
  cases b <;> first | rfl | cases h

theorem pool?_band (case : CaseBand) : case.band.pool? = some case.pool := by cases case <;> rfl

theorem band_notMem_top (case : CaseBand) : case.band ∉ top := by cases case <;> decide

end Band

/-! ## Sums -/

/-- What wraps around is the sum in integers of any size. -/
theorem wordSum_eq_bmod (values : List Int) : wordSum values = values.sum.bmod (2 ^ 64) := by
  unfold wordSum
  induction values with
  | nil => rfl
  | cons v vs ih =>
    rw [List.foldr_cons, Int64.toInt_add, ih, Int64.toInt_ofInt, List.sum_cons]
    simp

/-- A sum that a word holds is the sum in integers of any size. -/
theorem wordSum_eq_sum {values : List Int} (hlow : 0 ≤ values.sum) (hhigh : values.sum < 2 ^ 63) :
    wordSum values = values.sum := by
  rw [wordSum_eq_bmod]
  apply Int.bmod_eq_of_le <;> omega

/-- Three counts that add up to one. -/
example : wordSum [2 ^ 63 - 1, 2 ^ 63 - 1, 3] = 1 := by decide

/-- No sum of counts wraps around. -/
def Bands.SumsExact (bands : Bands) : Prop :=
  ∀ b : Band, b.isCount = true → wordSum (bands.get b) = (bands.get b).sum

theorem Bands.sumSince_eq (bands : Bands) (b : Band) (mark : Mark) :
    bands.sumSince b mark = ((bands.get b).drop (mark.get b)).sum := rfl

/-! ## Properties that add up -/

namespace Flat

/-- A property that holds of the pieces of trees which lie in certain bands,
and of segments one behind the other. -/
structure Additive (M : Operand → Int → Prop) (bands : Band → Prop) (Q : Segment → Prop) : Prop where
  empty : Q .empty
  append : ∀ s t, Q s → Q t → Q (s ++ t)
  calls : ∀ n, Q (.ofCalls n)
  tag : ∀ t : Tag, Q (.single .tags t.code)
  count : ∀ (b : Band) (n : Nat), bands b → b.isContentCount → Q (.single b n)
  ref : ∀ (b : Band) (x : Operand) (i : Int), bands b → b.pool? = some x.pool → M x i → Q (.single b i)

variable {M : Operand → Int → Prop} {bands : Band → Prop} {Q : Segment → Prop}

theorem Additive.join (h : Additive M bands Q) {α : Type} {xs : List α} {ss : List Segment}
    (hs : List.Forall₂ (fun _ s => Q s) xs ss) : Q (.join ss) := by
  induction hs with
  | nil => exact h.empty
  | cons hs _ ih => exact h.append _ _ hs ih

theorem Operands.additive (h : Additive M bands Q) (hb : ∀ b ∉ Band.top, bands b) {xs : List (CaseBand × Operand)}
    (hp : ∀ x ∈ xs, x.2.pool = x.1.pool) {s : Segment} (hs : Operands M xs s) : Q s := by
  induction xs generalizing s with
  | nil => exact hs ▸ h.empty
  | cons x xs ih =>
    obtain ⟨i, t, hi, ht, rfl⟩ := hs
    obtain ⟨hx, hxs⟩ := List.forall_mem_cons.1 hp
    refine h.append _ _ (h.ref _ x.2 i (hb _ (Band.band_notMem_top _)) ?_ hi) (ih hxs ht)
    rw [Band.pool?_band, hx]

/-- What adds up over the bands from the tags on holds of the segments of a
value. -/
theorem Value.additive (h : Additive M bands Q) (hb : ∀ b ∉ Band.top, bands b) {v : ElementValue} {s : Segment}
    (hs : Value M v s) : Q s := by
  induction v using ElementValue.induct generalizing s with
  | literal v hv =>
    obtain ⟨t, ht, rfl⟩ := (value_literal hv s).1 hs
    exact h.append _ _ (h.tag _) (ht.additive h hb v.pool_of_mem_zip)
  | array items ih =>
    obtain ⟨ss, hss, rfl⟩ := value_array.1 hs
    exact h.append _ _ (h.tag _) (h.append _ _ (h.count _ _ (hb _ (by decide)) rfl) (h.append _ _ (h.calls _)
      (h.join (forall₂_imp_mem hss fun v hv _ _ => ih v hv))))
  | nested descriptor pairs ih =>
    obtain ⟨i, ss, hi, hss, rfl⟩ := value_nested.1 hs
    refine h.append _ _ (h.tag _) (h.append _ _ (h.ref _ _ i (hb _ (by decide)) rfl hi) (h.append _ _
      (h.count _ _ (hb _ (by decide)) rfl) (h.append _ _ (h.calls _) (h.join (forall₂_imp_mem hss ?_)))))
    rintro p hp _ - ⟨j, t, hj, ht, rfl⟩
    exact h.append _ _ (h.ref _ (.utf8 p.1) j (hb _ (by decide)) rfl hj) (ih p hp ht)

/-- What adds up over all bands of content holds of the segments of an
annotation. -/
theorem Root.additive (h : Additive M bands Q) (hb : ∀ b : Band, b.isEntryCount = false → bands b) {a : Annotation}
    {s : Segment} (hs : Root M a s) : Q s := by
  have htop : ∀ b ∉ Band.top, bands b := fun b h => hb b (by cases b <;> first | rfl | exact absurd (by decide) h)
  obtain ⟨i, ss, hi, hss, rfl⟩ := root_iff.1 hs
  refine h.append _ _ (h.ref _ _ i (hb _ rfl) rfl hi) (h.append _ _ (h.count _ _ (hb _ rfl) rfl)
    (h.join (hss.imp ?_)))
  rintro p _ ⟨j, t, hj, ht, rfl⟩
  exact h.append _ _ (h.ref _ (.utf8 p.1) j (hb _ rfl) rfl hj) (ht.additive h htop)

/-- A tree adds to no band but those of its pieces. -/
theorem additive_get_eq_nil (M : Operand → Int → Prop) {b : Band} (hb : b ≠ .tags) :
    Additive M (· ≠ b) fun s => s.bands.get b = [] where
  empty := by simp
  append s t hs ht := by simp [hs, ht]
  calls n := by simp
  tag t := by simp [hb]
  count b' n hb' _ := by simp [hb'.symm]
  ref b' x i hb' _ _ := by simp [hb'.symm]

theorem Value.get_top {v : ElementValue} {s : Segment} (h : Value M v s) {b : Band} (hb : b ∈ Band.top) :
    s.bands.get b = [] :=
  h.additive (additive_get_eq_nil M (by rintro rfl; exact absurd hb (by decide))) fun b' h' e => h' (e ▸ hb)

theorem Root.get_entryCount {a : Annotation} {s : Segment} (h : Root M a s) {b : Band} (hb : b.isEntryCount = true) :
    s.bands.get b = [] :=
  h.additive (additive_get_eq_nil M (by rintro rfl; cases hb)) fun b' h' e => by simp [e, hb] at h'

/-- Each reference stands for a literal of the index space that its band points
into. -/
theorem additive_refers (M : Operand → Int → Prop) : Additive M (fun _ => True) fun s =>
    ∀ b k, b.pool? = some k → ∀ i ∈ s.bands.get b, ∃ x : Operand, x.pool = k ∧ M x i where
  empty := by simp
  append s t hs ht b k hk i hi := by
    rw [Segment.get_append, List.mem_append] at hi
    exact hi.elim (hs b k hk i) (ht b k hk i)
  calls n := by simp
  tag t b k hk i hi := by
    rw [Segment.get_single] at hi
    split at hi
    · subst b; cases hk
    · cases hi
  count b' n _ hb b k hk i hi := by
    rw [Segment.get_single] at hi
    split at hi
    · subst b
      rw [Band.pool?_eq_none hb] at hk
      cases hk
    · cases hi
  ref b' x j _ hx hj b k hk i hi := by
    rw [Segment.get_single] at hi
    split at hi
    · subst b
      obtain rfl := List.mem_singleton.1 hi
      exact ⟨x, Option.some.inj (hx.symm.trans hk), hj⟩
    · cases hi

/-- The counts within trees are natural numbers. -/
theorem additive_count_nonneg (M : Operand → Int → Prop) : Additive M (fun _ => True) fun s =>
    ∀ b : Band, b.isContentCount → ∀ n ∈ s.bands.get b, 0 ≤ n where
  empty := by simp
  append s t hs ht b hb n hn := by
    rw [Segment.get_append, List.mem_append] at hn
    exact hn.elim (hs b hb n) (ht b hb n)
  calls n := by simp
  tag t b hb n hn := by
    rw [Segment.get_single] at hn
    split at hn
    · subst b; cases hb
    · cases hn
  count b' m _ _ b _ n hn := by
    rw [Segment.get_single] at hn
    split at hn
    · obtain rfl := List.mem_singleton.1 hn
      exact Int.natCast_nonneg m
    · cases hn
  ref b' x i _ hx _ b hb n hn := by
    rw [Segment.get_single] at hn
    split at hn
    · subst b
      rw [Band.pool?_eq_none hb] at hx
      cases hx
    · cases hn

end Flat

/-! ## Counting rules -/

/-- The tags that the values in the band of tags stand for. -/
def Bands.tagList (bands : Bands) : List Tag := (bands.get .tags).filterMap Tag.ofCode?

namespace Segment

/-- The counting rules between the bands from the tags on. Left open are the
number of values whose count stands elsewhere, and the number of nested names. -/
structure Counted (s : Segment) (roots names : Int) : Prop where
  tags : s.bands.get .tags = s.bands.tagList.map Tag.code
  length_tags : ((s.bands.get .tags).length : Int) = roots + s.calls
  length_case : ∀ case : CaseBand, (s.bands.get case.band).length = s.bands.tagList.countP (case ∈ ·.cases)
  length_arrayCounts : (s.bands.get .arrayCounts).length = s.bands.tagList.count .array
  length_nestTypes : (s.bands.get .nestTypes).length = s.bands.tagList.count .nested
  length_nestPairCounts : (s.bands.get .nestPairCounts).length = s.bands.tagList.count .nested
  length_nestNames : ((s.bands.get .nestNames).length : Int) = names + (s.bands.get .nestPairCounts).sum
  calls : (s.calls : Int) = (s.bands.get .arrayCounts).sum + (s.bands.get .nestPairCounts).sum

@[simp] theorem tagList_append (s t : Segment) : (s ++ t).bands.tagList = s.bands.tagList ++ t.bands.tagList := by
  simp [Bands.tagList]

theorem tagList_single_tag (t : Tag) : (single .tags t.code).bands.tagList = [t] := by
  simp [Bands.tagList, Tag.ofCode?_code]

theorem tagList_eq_nil {s : Segment} (h : s.bands.get .tags = []) : s.bands.tagList = [] := by
  simp [Bands.tagList, h]

theorem Counted.empty : Counted .empty 0 0 := by
  have := tagList_eq_nil (get_empty .tags)
  constructor <;> simp [this]

theorem Counted.append {s t : Segment} {m n k l : Int} (hs : s.Counted m n) (ht : t.Counted k l) :
    (s ++ t).Counted (m + k) (n + l) where
  tags := by simp [← hs.tags, ← ht.tags]
  length_tags := by
    have := hs.length_tags; have := ht.length_tags
    simp; omega
  length_case case := by simp [hs.length_case, ht.length_case]
  length_arrayCounts := by simp [hs.length_arrayCounts, ht.length_arrayCounts]
  length_nestTypes := by simp [hs.length_nestTypes, ht.length_nestTypes]
  length_nestPairCounts := by simp [hs.length_nestPairCounts, ht.length_nestPairCounts]
  length_nestNames := by
    have := hs.length_nestNames; have := ht.length_nestNames
    simp; omega
  calls := by
    have := hs.calls; have := ht.calls
    simp; omega

/-- Pieces that each leave the same numbers open. -/
theorem Counted.join {α : Type} {xs : List α} {ss : List Segment} {m n : Int}
    (h : List.Forall₂ (fun _ s => s.Counted m n) xs ss) : (join ss).Counted (xs.length * m) (xs.length * n) := by
  induction h with
  | nil => simpa using Counted.empty
  | @cons x s xs ss hs _ ih =>
    have := hs.append ih
    have hlen (k : Int) : k + xs.length * k = (x :: xs).length * k := by simp [Int.add_mul, Int.add_comm]
    rwa [hlen, hlen] at this

/-- A value in a band ahead of the tags leaves nothing open. -/
theorem Counted.single_top {b : Band} (hb : b ∈ Band.top) (v : Int) : (single b v).Counted 0 0 := by
  have hne {b' : Band} (hb' : b' ∉ Band.top) : b' ≠ b := by rintro rfl; exact hb' hb
  have := tagList_eq_nil (s := single b v) (by simp [@hne .tags (by decide)])
  constructor <;> simp [this, hne, Band.band_notMem_top, show Band.tags ∉ Band.top by decide,
    show Band.arrayCounts ∉ Band.top by decide, show Band.nestTypes ∉ Band.top by decide,
    show Band.nestPairCounts ∉ Band.top by decide, show Band.nestNames ∉ Band.top by decide]

theorem Counted.single_nestName (v : Int) : (single .nestNames v).Counted 0 1 := by
  have := tagList_eq_nil (s := single .nestNames v) (by simp)
  constructor <;> simp [this]
  intro case; cases case <;> decide

/-- The tag and the count of an array leave the number of its elements open. -/
theorem Counted.array_head (n : Nat) :
    (single .tags Tag.array.code ++ (single .arrayCounts n ++ ofCalls n)).Counted (1 - n) 0 := by
  constructor <;> simp [tagList_single_tag, tagList_eq_nil]
  intro case; cases case <;> rfl

/-- The tag, the type and the count of a nested annotation leave the number of
its pairs open. -/
theorem Counted.nested_head (i : Int) (n : Nat) :
    (single .tags Tag.nested.code ++ (single .nestTypes i ++ (single .nestPairCounts n ++ ofCalls n))).Counted
      (1 - n) (-n) := by
  constructor <;> simp [tagList_single_tag, tagList_eq_nil]
  intro case; cases case <;> rfl

/-- The tag of a literal and its operands, which the tag sends to its case
bands. -/
theorem Counted.literal {tag : Tag} (h : tag.dispatch = .literal tag.cases) {s : Segment}
    (hs : ∀ b, (s.bands.get b).length = (tag.cases.map CaseBand.band).count b) (hc : s.calls = 0) :
    (single .tags tag.code ++ s).Counted 1 0 := by
  -- operands go to case bands only
  have hnil {b : Band} (hb : ∀ case : CaseBand, case.band ≠ b) : s.bands.get b = [] := by
    rw [List.eq_nil_iff_length_eq_zero, hs, List.count_eq_zero, List.mem_map]
    exact fun ⟨case, _, hcase⟩ => hb case hcase
  have htags : s.bands.get .tags = [] := hnil fun case => by cases case <;> decide
  have hlist : (single .tags tag.code ++ s).bands.tagList = [tag] := by
    rw [tagList_append, tagList_single_tag, tagList_eq_nil htags, List.append_nil]
  constructor
  case tags => simp [hlist, htags]
  case length_tags => simp [htags, hc]
  case length_case =>
    intro case
    rw [hlist, get_append, List.length_append, hs]
    cases tag <;> cases case <;> rfl
  case length_nestNames =>
    simp [hnil (b := .nestNames) fun case => by cases case <;> decide,
      hnil (b := .nestPairCounts) fun case => by cases case <;> decide]
  case calls =>
    simp [hc, hnil (b := .arrayCounts) fun case => by cases case <;> decide,
      hnil (b := .nestPairCounts) fun case => by cases case <;> decide]
  all_goals
    rw [hlist, get_append, hnil fun case => by cases case <;> decide]
    cases tag <;> first | rfl | cases h

end Segment

namespace Flat

variable {M : Operand → Int → Prop}

theorem Operands.length_get {xs : List (CaseBand × Operand)} {s : Segment} (h : Operands M xs s) (b : Band) :
    (s.bands.get b).length = ((xs.map Prod.fst).map CaseBand.band).count b := by
  induction xs generalizing s with
  | nil => simp [show s = .empty from h]
  | cons x xs ih =>
    obtain ⟨i, t, -, ht, rfl⟩ := h
    rw [List.map_cons, List.map_cons, List.count_cons, ← ih ht]
    by_cases hb : b = x.1.band
    · simp [hb]
    · simp [hb, Ne.symm hb]

theorem Operands.calls_eq {xs : List (CaseBand × Operand)} {s : Segment} (h : Operands M xs s) : s.calls = 0 := by
  induction xs generalizing s with
  | nil => simp [show s = .empty from h]
  | cons x xs ih =>
    obtain ⟨i, t, -, ht, rfl⟩ := h
    simp [ih ht]

theorem Value.counted {v : ElementValue} {s : Segment} (h : Value M v s) : s.Counted 1 0 := by
  induction v using ElementValue.induct generalizing s with
  | literal v hv =>
    obtain ⟨t, ht, rfl⟩ := (value_literal hv s).1 h
    refine .literal hv (fun b => ?_) ht.calls_eq
    rw [ht.length_get, v.cases_zip_operands]
  | array items ih =>
    obtain ⟨ss, hs, rfl⟩ := value_array.1 h
    have hjoin := Segment.Counted.join (forall₂_imp_mem hs fun v hv _ _ => ih v hv)
    have := (Segment.Counted.array_head items.length).append hjoin
    simpa [Segment.append_assoc] using this
  | nested descriptor pairs ih =>
    obtain ⟨i, ss, -, hs, rfl⟩ := value_nested.1 h
    have hjoin : (Segment.join ss).Counted (pairs.length * 1) (pairs.length * 1) := by
      refine .join (forall₂_imp_mem hs ?_)
      rintro p hp _ - ⟨j, t, -, ht, rfl⟩
      exact (Segment.Counted.single_nestName j).append (ih p hp ht)
    have := (Segment.Counted.nested_head i pairs.length).append hjoin
    simpa [Segment.append_assoc] using this

/-- An annotation has one type and one count, and as many names and values as
pairs. -/
theorem Root.counted {a : Annotation} {s : Segment} (h : Root M a s) :
    s.Counted a.pairs.length 0 ∧ (s.bands.get .types).length = 1 ∧
      s.bands.get .pairCounts = [(a.pairs.length : Int)] ∧ (s.bands.get .names).length = a.pairs.length := by
  obtain ⟨i, ss, -, hs, rfl⟩ := root_iff.1 h
  have hcounted : (Segment.join ss).Counted (a.pairs.length * 1) (a.pairs.length * 0) := by
    refine .join (hs.imp ?_)
    rintro p _ ⟨j, t, -, ht, rfl⟩
    exact (Segment.Counted.single_top (by decide) j).append ht.counted
  have htop : ((Segment.join ss).bands.get .types = [] ∧ (Segment.join ss).bands.get .pairCounts = []) ∧
      ((Segment.join ss).bands.get .names).length = a.pairs.length := by
    clear hcounted h
    generalize a.pairs = ps at hs
    induction hs with
    | nil => simp
    | cons hp _ ih =>
      obtain ⟨j, t, -, ht, rfl⟩ := hp
      simp [ih, ht.get_top (b := .types) (by decide), ht.get_top (b := .pairCounts) (by decide),
        ht.get_top (b := .names) (by decide)]
  refine ⟨?_, by simp [htop], by simp [htop], by simp [htop]⟩
  have := (Segment.Counted.single_top (b := .types) (by decide) i).append
    ((Segment.Counted.single_top (b := .pairCounts) (by decide) a.pairs.length).append hcounted)
  simpa using this

/-! ## Calls -/

theorem Value.calls_eq {v : ElementValue} {s : Segment} (h : Value M v s) : s.calls = v.backwardCalls := by
  induction v using ElementValue.induct generalizing s with
  | literal v hv =>
    obtain ⟨t, ht, rfl⟩ := (value_literal hv s).1 h
    simp [ht.calls_eq, ElementValue.backwardCalls_literal hv]
  | array items ih =>
    obtain ⟨ss, hs, rfl⟩ := value_array.1 h
    have hjoin : (Segment.join ss).calls = ElementValue.callsOfItems items := by
      clear h
      induction hs with
      | nil => rfl
      | cons hv _ ih' =>
        obtain ⟨hfirst, hrest⟩ := List.forall_mem_cons.1 ih
        simp [ElementValue.callsOfItems, hfirst hv, ih' hrest]
    simp [ElementValue.backwardCalls, hjoin]
  | nested descriptor pairs ih =>
    obtain ⟨i, ss, -, hs, rfl⟩ := value_nested.1 h
    have hjoin : (Segment.join ss).calls = ElementValue.callsOfPairs pairs := by
      clear h
      induction hs with
      | nil => rfl
      | cons hp _ ih' =>
        obtain ⟨hfirst, hrest⟩ := List.forall_mem_cons.1 ih
        obtain ⟨j, t, -, ht, rfl⟩ := hp
        simp [ElementValue.callsOfPairs, hfirst ht, ih' hrest]
    simp [ElementValue.backwardCalls, hjoin]

theorem Root.calls_eq {a : Annotation} {s : Segment} (h : Root M a s) : s.calls = a.backwardCalls := by
  obtain ⟨i, ss, -, hs, rfl⟩ := root_iff.1 h
  have hjoin : (Segment.join ss).calls = ElementValue.callsOfPairs a.pairs := by
    clear h
    generalize a.pairs = ps at hs
    induction hs with
    | nil => rfl
    | cons hp _ ih =>
      obtain ⟨j, t, -, ht, rfl⟩ := hp
      simp [ElementValue.callsOfPairs, ht.calls_eq, ih]
  simp [ Annotation.backwardCalls, hjoin]

end Flat

end AnnotationBands
