import AnnotationBands.Entry
import AnnotationBands.Proofs.Counting
import AnnotationBands.Proofs.Traversal
/-!
# Reading entries back

The counts of entries and the trees lie in different bands, so a walk that
reads entries consumes them in step. When the counts add up to the number of
trees, reading gives back the trees by entry (`readDefaults_consumes`,
`readParameterEntries_consumes`, `readMembers_consumes`). When there are more
trees than are counted, the walk ends ahead of the first tree that is not
(`entries_short`); when there are fewer, it runs past the end of the types
(`readMembers_error`).
-/

namespace AnnotationBands

theorem forall₂_append_left {α β : Type} {R : α → β → Prop} {xs ys : List α} {zs : List β}
    (h : List.Forall₂ R (xs ++ ys) zs) :
    ∃ us vs, zs = us ++ vs ∧ List.Forall₂ R xs us ∧ List.Forall₂ R ys vs := by
  refine ⟨zs.take xs.length, zs.drop xs.length, (List.take_append_drop _ _).symm, ?_, ?_⟩
  · simpa using List.forall₂_take xs.length h
  · simpa using List.forall₂_drop xs.length h

namespace Flat

variable {M : Operand → Int → Prop}

theorem Root.get_join_entryCount {as : List Annotation} {ss : List Segment} (h : List.Forall₂ (Root M) as ss) {b : Band}
    (hb : b.isEntryCount = true) : (Segment.join ss).bands.get b = [] := by
  induction h with
  | nil => simp
  | cons hs _ ih => simp [hs.get_entryCount hb, ih]

theorem Root.length_join_types {as : List Annotation} {ss : List Segment} (h : List.Forall₂ (Root M) as ss) :
    ((Segment.join ss).bands.get .types).length = as.length := by
  induction h with
  | nil => simp
  | cons hs _ ih => simp [hs.counted.2.1, ih, Nat.add_comm]

end Flat

namespace Walk

variable {L : Type} [Resolver L] {pool : L} {limit : Option Nat} {kind : Kind} {segs : List Segment}

theorem Consumes.cast {α : Type} {walk : Walk α} {s t : Segment} {x : α} (h : Consumes limit walk s x) (hst : s = t) :
    Consumes limit walk t x := hst ▸ h

/-! ## Entries that are counted in full -/

theorem nextCounts_consumes (b : Band) (ns : List Nat) :
    Consumes limit (collect ns.length (nextCount b)) (.values b (ns.map Nat.cast)) ns := by
  induction ns with
  | nil =>
    rw [List.map_nil, Segment.values_nil]
    exact .pure []
  | cons n ns ih =>
    rw [List.map_cons, Segment.values_cons]
    exact (nextCount_consumes b n).bind (ih.map _)

theorem readRoots_consumes {as : List Annotation} (h : List.Forall₂ (Flat.Root (Operand.IsAt pool)) as segs)
    (hd : ∀ a ∈ as, Within limit a.depth) : Consumes limit (collect as.length (readRoot pool)) (.join segs) as :=
  collect_consumes (forall₂_imp_mem h fun a ha _ _ hs => readRoot_consumes hs (hd a ha))

theorem readDefaults_consumes (hkind : kind.hasDescriptors = false) {vs : List ElementValue}
    (h : List.Forall₂ (Flat.Value (Operand.IsAt pool)) vs segs) (hd : ∀ v ∈ vs, Within limit v.depth) :
    Consumes limit (collect vs.length (readEntry pool kind)) (.join segs) (vs.map .defaultValue) := by
  have hread : readEntry pool kind = do
      let value ← readValue pool
      return .defaultValue value := by
    cases kind <;> first | rfl | cases hkind
  have hall : List.Forall₂ (fun e s => Consumes limit (readEntry pool kind) s e) (vs.map .defaultValue) segs :=
    List.forall₂_map_left_iff.2 (forall₂_imp_mem h fun v hv _ _ hs =>
      hread ▸ (readValue_consumes hs (hd v hv)).map Entry.defaultValue)
  simpa using collect_consumes hall

/-- Reading the annotations of each parameter. -/
theorem readParameters_consumes {ps : List (List Annotation)}
    (h : List.Forall₂ (Flat.Root (Operand.IsAt pool)) ps.flatten segs)
    (hd : ∀ as ∈ ps, ∀ a ∈ as, Within limit a.depth) :
    Consumes limit (forEach (fun n => collect n (readRoot pool)) (ps.map List.length)) (.join segs) ps := by
  induction ps generalizing segs with
  | nil =>
    obtain rfl := List.forall₂_nil_left_iff.1 h
    exact .pure []
  | cons as ps ih =>
    obtain ⟨ss, ts, rfl, hss, hts⟩ := forall₂_append_left h
    obtain ⟨has, hps⟩ := List.forall_mem_cons.1 hd
    rw [Segment.join_append]
    exact (readRoots_consumes hss has).bind ((ih hts hps).map _)

/-- Reading entries of parameters, each with a count of parameters, the counts
of their annotations and the annotations. -/
theorem readParameterEntries_consumes (hkind : kind.isParameter = true) {es : List (List (List Annotation))}
    (h : List.Forall₂ (Flat.Root (Operand.IsAt pool)) es.flatten.flatten segs)
    (hd : ∀ a ∈ es.flatten.flatten, Within limit a.depth) :
    Consumes limit (collect es.length (readEntry pool kind))
      (.values .paramCounts (es.map fun ps => (ps.length : Int)) ++
        (.values .annoCounts (es.flatten.map fun as => (as.length : Int)) ++ .join segs))
      (es.map .parameters) := by
  have hread : readEntry pool kind = do
      let parameters ← nextCount .paramCounts
      let counts ← collect parameters (nextCount .annoCounts)
      let annotations ← forEach (fun n => collect n (readRoot pool)) counts
      return .parameters annotations := by
    simp only [readEntry, hkind, if_true]
  induction es generalizing segs with
  | nil =>
    obtain rfl := List.forall₂_nil_left_iff.1 h
    simp only [List.map_nil, List.flatten_nil, Segment.values_nil, Segment.join_nil, Segment.empty_append]
    exact .pure []
  | cons ps es ih =>
    rw [List.flatten_cons, List.flatten_append] at h hd
    obtain ⟨ss, ts, rfl, hss, hts⟩ := forall₂_append_left h
    obtain ⟨hps, hes⟩ := List.forall_mem_append.1 hd
    have hcounts : Consumes limit _ _ _ := nextCounts_consumes .annoCounts (ps.map List.length)
    rw [List.length_map, List.map_map] at hcounts
    have hroots := readParameters_consumes hss fun as has a ha => hps a (List.mem_flatten_of_mem has ha)
    have hfirst : Consumes limit (readEntry pool kind) (.single .paramCounts ps.length ++
        (.values .annoCounts (ps.map fun as => (as.length : Int)) ++ .join ss)) (.parameters ps) := by
      rw [hread]
      exact (nextCount_consumes .paramCounts ps.length).bind (hcounts.bind (hroots.map Entry.parameters))
    refine Consumes.cast (hfirst.bind ((ih hts hes).map _)) (Segment.ext_get (fun b => ?_) (by simp))
    -- the counts of later entries stand ahead of the annotations of this one, in other bands
    have hparams := Flat.Root.get_join_entryCount hss (b := .paramCounts) rfl
    have hannos := Flat.Root.get_join_entryCount hss (b := .annoCounts) rfl
    cases b <;> simp [hparams, hannos]

theorem readEntry_member (hkind : kind.isMember = true) : readEntry pool kind = do
    let n ← nextCount .annoCounts
    let annotations ← collect n (readRoot pool)
    return .member annotations := by
  cases kind <;> first | rfl | cases hkind

theorem readMember_consumes (hkind : kind.isMember = true) {as : List Annotation}
    (h : List.Forall₂ (Flat.Root (Operand.IsAt pool)) as segs) (hd : ∀ a ∈ as, Within limit a.depth) :
    Consumes limit (readEntry pool kind) (.single .annoCounts as.length ++ .join segs) (.member as) := by
  rw [readEntry_member hkind]
  exact (nextCount_consumes .annoCounts as.length).bind ((readRoots_consumes h hd).map Entry.member)

/-- The counts of later entries stand ahead of the annotations of the first, in
another band. -/
theorem member_counts_comm {as : List Annotation} (h : List.Forall₂ (Flat.Root (Operand.IsAt pool)) as segs) (n : Nat)
    (ns : List Nat) (t : Segment) :
    .values .annoCounts ((n :: ns).map Nat.cast) ++ (.join segs ++ t) =
      (.single .annoCounts n ++ .join segs) ++ (.values .annoCounts (ns.map Nat.cast) ++ t) := by
  refine Segment.ext_get (fun b => ?_) (by simp)
  have hannos := Flat.Root.get_join_entryCount h (b := .annoCounts) rfl
  cases b <;> simp [hannos]

/-- Reading the entries of members, each with a count of annotations and the
annotations. -/
theorem readMembers_consumes (hkind : kind.isMember = true) {ns : List Nat} {as : List Annotation}
    (h : List.Forall₂ (Flat.Root (Operand.IsAt pool)) as segs) (hsum : ns.sum = as.length)
    (hd : ∀ a ∈ as, Within limit a.depth) :
    Consumes limit (collect ns.length (readEntry pool kind)) (.values .annoCounts (ns.map Nat.cast) ++ .join segs)
      ((ns.splitLengths as).map .member) := by
  induction ns generalizing as segs with
  | nil =>
    obtain rfl := List.length_eq_zero_iff.1 hsum.symm
    obtain rfl := List.forall₂_nil_left_iff.1 h
    simp only [List.map_nil, Segment.values_nil, Segment.join_nil, Segment.empty_append]
    exact .pure []
  | cons n ns ih =>
    rw [List.sum_cons] at hsum
    obtain ⟨as, bs, rfl, rfl⟩ : ∃ as' bs, as = as' ++ bs ∧ as'.length = n :=
      ⟨as.take n, as.drop n, (List.take_append_drop n as).symm, by simp; omega⟩
    obtain ⟨ss, ts, rfl, hss, hts⟩ := forall₂_append_left h
    obtain ⟨has, hbs⟩ := List.forall_mem_append.1 hd
    rw [Segment.join_append, member_counts_comm hss, List.splitLengths_cons, List.take_left, List.drop_left]
    refine (readMember_consumes hkind hss has).bind ((ih hts ?_ hbs).map _)
    simpa using hsum

/-! ## Fewer annotations than are counted -/

theorem collect_error_of_ok {α : Type} {walk : Walk α} {x : α} {n : Nat} {e : BandError} {c c' c'' : Cursor}
    (hx : walk c = .ok x c') (he : collect n walk c' = .error e c'') : collect (n + 1) walk c = .error e c'' :=
  (bind_of_ok hx).trans (bind_of_error he)

/-- A walk that fails behind the last of the segments fails when it is to be
taken more often than there are segments. -/
theorem collect_error {α : Type} {walk : Walk α} {xs : List α} {e : BandError}
    (h : List.Forall₂ (fun x s => Consumes limit walk s x) xs segs) {n : Nat} (hn : xs.length < n) {c c' : Cursor}
    (hc : c.maxDepth = limit) (hbefore : c.Before (.join segs)) (he : walk (c.past (.join segs)) = .error e c') :
    collect n walk c = .error e c' := by
  obtain ⟨n, rfl⟩ : ∃ m, n = m + 1 := ⟨n - 1, by omega⟩
  induction h generalizing n c with
  | nil =>
    rw [Segment.join_nil, Cursor.past_empty] at he
    exact bind_of_error he
  | @cons x s xs ss hs _ ih =>
    obtain ⟨n, rfl⟩ : ∃ m, n = m + 1 := ⟨n - 1, by simp at hn; omega⟩
    rw [Segment.join_cons, Cursor.past_append] at he
    have hrest := ih (c := c.past s) hc hbefore.right he n (by simpa using hn)
    exact collect_error_of_ok (hs c hc hbefore.left) hrest

theorem readRoot_error {c : Cursor} (h : (c.bands.get .types).length ≤ c.position.get .types) :
    readRoot pool c = .error (c.pastEnd .types) c := by
  have hnext : next .types c = .error (c.pastEnd .types) c := by
    rw [next, List.getElem?_eq_none h]
  exact bind_of_error (bind_of_error hnext)

/-- Reading the entries of members runs past the end of the types when there
are fewer annotations than are counted. -/
theorem readMembers_error (hkind : kind.isMember = true) {ns : List Nat} {as : List Annotation}
    (h : List.Forall₂ (Flat.Root (Operand.IsAt pool)) as segs) (hsum : as.length < ns.sum)
    (hd : ∀ a ∈ as, Within limit a.depth) {c : Cursor} (hc : c.maxDepth = limit)
    (hbefore : c.Before (.values .annoCounts (ns.map Nat.cast) ++ .join segs))
    (hend : (c.bands.get .types).length = c.position.get .types + as.length) :
    ∃ c', collect ns.length (readEntry pool kind) c =
      .error (.desync .types ((c.bands.get .types).length + 1) (c.bands.get .types).length) c' := by
  induction ns generalizing as segs c with
  | nil => exact absurd hsum (Nat.not_lt_zero _)
  | cons n ns ih =>
    rw [List.sum_cons] at hsum
    by_cases hn : n ≤ as.length
    -- the first entry is complete, so a later one is not
    · obtain ⟨as, bs, rfl, rfl⟩ : ∃ as' bs, as = as' ++ bs ∧ as'.length = n :=
        ⟨as.take n, as.drop n, (List.take_append_drop n as).symm, by simp; omega⟩
      obtain ⟨ss, ts, rfl, hss, hts⟩ := forall₂_append_left h
      obtain ⟨has, hbs⟩ := List.forall_mem_append.1 hd
      rw [Segment.join_append, member_counts_comm hss] at hbefore
      have hentry := readMember_consumes hkind hss has c hc hbefore.left
      have hpast := hbefore.right
      generalize hd : c.past (.single .annoCounts as.length ++ .join ss) = d at hentry hpast
      obtain ⟨c', hc'⟩ := ih hts (by simpa using hsum) hbs (c := d) (by rw [← hd]; exact hc) hpast
        (by simp [← hd, hend, Flat.Root.length_join_types hss, Nat.add_assoc])
      rw [← hd] at hc'
      exact ⟨c', collect_error_of_ok hentry (hd ▸ hc')⟩
    -- the first entry counts more annotations than there are
    · rw [List.map_cons, Segment.values_cons, Segment.append_assoc] at hbefore
      have hcount := nextCount_consumes .annoCounts n c hc hbefore.left
      have hcomm : Segment.values .annoCounts (ns.map Nat.cast) ++ Segment.join segs =
          Segment.join segs ++ Segment.values .annoCounts (ns.map Nat.cast) := by
        refine Segment.append_comm_of_disjoint fun b => ?_
        by_cases hb : b = .annoCounts
        · exact .inr (hb ▸ Flat.Root.get_join_entryCount h rfl)
        · exact .inl (by simp [hb])
      rw [hcomm] at hbefore
      have htrees := collect_error (forall₂_imp_mem h fun a ha _ _ hs => readRoot_consumes hs (hd a ha))
        (Nat.lt_of_not_le hn) (c := c.past (.single .annoCounts n)) hc hbefore.right.left (readRoot_error ?_)
      · have hentry := (bind_of_ok (f := fun n => do
          let annotations ← collect n (readRoot pool)
          return Entry.member annotations) hcount).trans (bind_of_error htrees)
        rw [← readEntry_member hkind] at hentry
        refine ⟨_, (bind_of_error hentry).trans (congrArg (EStateM.Result.error · _) ?_)⟩
        simp [Cursor.pastEnd, hend, Flat.Root.length_join_types h]
      · simp [hend, Flat.Root.length_join_types h]

/-! ## All entries of a group -/

/-- When the entries take up all bands, reading gives them. -/
theorem readEntries_ok {bands : Bands} {count maxDepth : Nat} {s : Segment} {entries : List Entry}
    (h : Consumes (some maxDepth) (collect count (readEntry pool kind)) s entries) (hb : bands = s.bands) :
    bands.entries kind count maxDepth pool = .ok entries := by
  have hread := h (Cursor.start bands (some maxDepth)) rfl fun b => by simp [Cursor.start, hb]
  have hend : ensureExhausted Band.all ((Cursor.start bands (some maxDepth)).past s) = .ok () _ :=
    ensureExhausted_ok fun b _ => by simp [Cursor.start, hb]
  have hall : readEntries pool kind count (Cursor.start bands (some maxDepth)) = .ok entries _ :=
    (bind_of_ok hread).trans (bind_of_ok hend)
  rw [Bands.entries, result, hall]

/-- When the entries leave a type, reading blames the types. -/
theorem readEntries_short {bands : Bands} {count maxDepth : Nat} {s t : Segment} {entries : List Entry}
    (h : Consumes (some maxDepth) (collect count (readEntry pool kind)) s entries) (hb : bands = (s ++ t).bands)
    (ht : ∀ b : Band, b.isEntryCount = true → t.bands.get b = []) (htypes : t.bands.get .types ≠ []) :
    bands.entries kind count maxDepth pool =
      .error (.desync .types (s.bands.get .types).length (bands.get .types).length) := by
  have hread := h (Cursor.start bands (some maxDepth)) rfl fun b => by simp [Cursor.start, hb]
  have hcounts : ∀ b ∈ [Band.paramCounts, Band.annoCounts],
      ((Cursor.start bands (some maxDepth)).past s).position.get b = (bands.get b).length := by
    simp [Cursor.start, hb, ht .paramCounts rfl, ht .annoCounts rfl]
  have hend := ensureExhausted_error (b := .types) (Band.all.drop 3) hcounts (by simp [Cursor.start, hb, htypes])
  have hall : readEntries pool kind count (Cursor.start bands (some maxDepth)) = .error _ _ :=
    (bind_of_ok hread).trans (bind_of_error hend)
  rw [Bands.entries, result, hall]
  simp [Cursor.start]

/-- When reading the entries fails, so does reading the group. -/
theorem readEntries_error {bands : Bands} {count maxDepth : Nat} {e : BandError} {c : Cursor}
    (h : collect count (readEntry pool kind) (Cursor.start bands (some maxDepth)) = .error e c) :
    bands.entries kind count maxDepth pool = .error e := by
  have hall : readEntries pool kind count (Cursor.start bands (some maxDepth)) = .error e c := bind_of_error h
  rw [Bands.entries, result, hall]

end Walk

end AnnotationBands
