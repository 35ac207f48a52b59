import AnnotationBands.Proofs.Passage
/-!
# Entries that use up the bands

Entries are read by a walk from the start of all bands, and the result counts
only when the walk ends at the end of each. So bands that entries are read from
are one segment, which the walk has passed. Main statement
(`entries_passes`): whatever the bands hold, when entries are read from them,
the bands settle just what is due for that many entries of the kind, and when
the constants are in range, they are the bands of the entries one behind the
other.
-/

namespace AnnotationBands

/-- Counts one behind the other settle themselves and leave due what they
count. -/
theorem Bands.Settles.counts {k : Band} (hk : k ≠ .tags) (ns : List Nat) :
    (Segment.values k (ns.map Nat.cast)).bands.Settles (ns.length • {k}) (ns.sum • (k.targets : Multiset Band)) := by
  induction ns with
  | nil =>
    rw [List.map_nil, Segment.values_nil, List.length_nil, List.sum_nil, zero_nsmul, zero_nsmul]
    exact .empty 0
  | cons n ns ih =>
    have hfirst := Bands.Settles.count hk n (ns.length • {k})
    have hrest := ih.frame (n • (k.targets : Multiset Band))
    rw [List.map_cons, Segment.values_cons, List.length_cons, List.sum_cons, succ_nsmul', Multiset.singleton_add,
      add_comm n, add_nsmul]
    rw [add_comm] at hfirst
    exact hfirst.append hrest

theorem Bands.Sound.counts {k : Band} (hk : k ≠ .tags) (ns : List Nat) :
    (Segment.values k (ns.map Nat.cast)).bands.Sound := by
  induction ns with
  | nil =>
    rw [List.map_nil, Segment.values_nil]
    exact .empty
  | cons n ns ih =>
    rw [List.map_cons, Segment.values_cons]
    exact append_iff.2 ⟨single_iff.2 (Band.allows_count hk n), ih⟩

namespace Walk

variable {L : Type} [Resolver L]

/-- Annotations that are read one behind the other. -/
def RootsAt (pool : L) (limit : Option Nat) (as : List Annotation) (s : Segment) : Prop :=
  ∃ ss, List.Forall₂ (RootAt pool limit) as ss ∧ s = .join ss

/-- An entry of a group of the kind that is read within the depth limit. -/
def EntryAt (pool : L) (kind : Kind) (limit : Option Nat) : Entry → Segment → Prop
  | .member as, s => kind.isMember = true ∧ ∃ t, RootsAt pool limit as t ∧ s = .single .annoCounts as.length ++ t
  | .parameters ps, s => kind.isParameter = true ∧ ∃ t, RootsAt pool limit ps.flatten t ∧
      s = .single .paramCounts ps.length ++ (.values .annoCounts (ps.map List.length |>.map Nat.cast) ++ t)
  | .defaultValue v, s => kind.hasDescriptors = false ∧ ValueAt pool limit 1 v s

variable {pool : L} {limit : Option Nat} {kind : Kind}

theorem nextCounts_passes (b : Band) (n : Nat) :
    Passes limit (collect n (nextCount b)) fun ns s => ns.length = n ∧ s = .values b (ns.map Nat.cast) := by
  refine (collect_passes (nextCount_passes b) n).imp ?_
  rintro ns _ ⟨hlen, ss, hss, rfl⟩
  refine ⟨hlen, ?_⟩
  clear hlen
  induction hss with
  | nil => exact (Segment.values_nil b).symm
  | cons hs _ ih => rw [List.map_cons, Segment.values_cons, Segment.join_cons, hs, ih]

theorem readRoots_passes (n : Nat) :
    Passes limit (collect n (readRoot pool)) fun as s => as.length = n ∧
      Rebuilt pool (n • {.types, .pairCounts}) (RootsAt pool limit) as s := by
  refine (collect_passes readRoot_passes n).imp ?_
  rintro as _ ⟨rfl, ss, hss, rfl⟩
  have hroots := Rebuilt.join hss rfl
  exact ⟨rfl, hroots.settles, hroots.sound, fun hrange => ⟨ss, hroots.tree hrange, rfl⟩⟩

/-- The annotations of parameters, as many as the counts say. -/
theorem readParameters_passes (ns : List Nat) :
    Passes limit (forEach (fun n => collect n (readRoot pool)) ns) fun ps s => ps.map List.length = ns ∧
      Rebuilt pool (ns.sum • {.types, .pairCounts}) (fun ps s => RootsAt pool limit ps.flatten s) ps s := by
  induction ns with
  | nil =>
    refine .pure ⟨rfl, ?_⟩
    rw [List.sum_nil, zero_nsmul]
    exact .empty ⟨[], .nil, rfl⟩
  | cons n ns ih =>
    refine (readRoots_passes n).bind ?_
    rintro as s ⟨has, hs⟩
    refine ih.bind ?_
    rintro ps t ⟨rfl, ht⟩
    refine .pure ⟨by rw [List.map_cons, has], ?_⟩
    rw [Segment.append_empty, List.sum_cons, add_nsmul]
    refine hs.append ht (by rw [Multiset.count_nsmul]; rfl) ?_
    rintro ⟨ss, hss, rfl⟩ ⟨ts, hts, rfl⟩
    exact ⟨ss ++ ts, List.rel_append hss hts, (Segment.join_append ss ts).symm⟩

theorem readMember_passes (hkind : kind.isMember = true) :
    Passes limit (readEntry pool kind) (Rebuilt pool {.annoCounts} (EntryAt pool kind limit)) := by
  rw [readEntry_member hkind]
  refine (nextCount_passes .annoCounts).bind ?_
  rintro n _ rfl
  refine (readRoots_passes n).bind ?_
  rintro as t ⟨rfl, ht⟩
  refine .pure ?_
  rw [Segment.append_empty]
  have hcount := Bands.Settles.count (k := .annoCounts) (by decide) as.length 0
  rw [Multiset.add_zero] at hcount
  refine ht.behind hcount (Bands.Sound.single_iff.2 (Band.allows_count (by decide) _)) ?_ fun hroots => ?_
  · rw [Multiset.count_nsmul]
    rfl
  · exact ⟨hkind, t, hroots, rfl⟩

theorem readParameterEntry_passes (hkind : kind.isParameter = true) :
    Passes limit (readEntry pool kind) (Rebuilt pool {.paramCounts} (EntryAt pool kind limit)) := by
  simp only [readEntry, hkind, if_true]
  refine (nextCount_passes .paramCounts).bind ?_
  rintro n _ rfl
  refine (nextCounts_passes .annoCounts n).bind ?_
  rintro ns _ ⟨rfl, rfl⟩
  refine (readParameters_passes ns).bind ?_
  rintro ps t ⟨rfl, ht⟩
  refine .pure ?_
  rw [Segment.append_empty, ← Segment.append_assoc]
  have hcount := Bands.Settles.count (k := .paramCounts) (by decide) (ps.map List.length).length 0
  rw [Multiset.add_zero] at hcount
  refine ht.behind (hcount.append (Bands.Settles.counts (by decide) _)) (Bands.Sound.append_iff.2 ⟨?_, ?_⟩) ?_
    fun hroots => ?_
  · exact Bands.Sound.single_iff.2 (Band.allows_count (by decide) _)
  · exact Bands.Sound.counts (by decide) _
  · rw [Multiset.count_nsmul]
    rfl
  · exact ⟨hkind, t, hroots, by rw [List.length_map, Segment.append_assoc]⟩

theorem readDefault_passes (hkind : kind.hasDescriptors = false) :
    Passes limit (readEntry pool kind) (Rebuilt pool {.tags} (EntryAt pool kind limit)) := by
  have hread : readEntry pool kind = do
      let value ← readValue pool
      return .defaultValue value := by
    cases kind <;> first | rfl | cases hkind
  rw [hread]
  refine readValue_passes.bind fun v s hv => .pure ?_
  rw [Segment.append_empty]
  exact ⟨hv.settles, hv.sound, fun hrange => ⟨hkind, hv.tree hrange⟩⟩

theorem readEntry_passes :
    Passes limit (readEntry pool kind) (Rebuilt pool {kind.entryBand} (EntryAt pool kind limit)) := by
  cases kind with
  | annotationDefault => exact readDefault_passes rfl
  | visible | invisible => exact readMember_passes rfl
  | visibleParameter | invisibleParameter => exact readParameterEntry_passes rfl

/-- Entries that are read one behind the other. -/
def EntriesAt (pool : L) (kind : Kind) (limit : Option Nat) (es : List Entry) (s : Segment) : Prop :=
  ∃ ss, List.Forall₂ (EntryAt pool kind limit) es ss ∧ s = .join ss

theorem collectEntries_passes (n : Nat) :
    Passes limit (collect n (readEntry pool kind)) fun es s => es.length = n ∧
      Rebuilt pool (kind.due n) (EntriesAt pool kind limit) es s := by
  refine (collect_passes readEntry_passes n).imp ?_
  rintro es _ ⟨rfl, ss, hss, rfl⟩
  have hall := Rebuilt.join hss kind.count_ints_entryBand
  exact ⟨rfl, hall.settles, hall.sound, fun hrange => ⟨ss, hall.tree hrange, rfl⟩⟩

theorem ensureExhausted_eq_ok {bs : List Band} {c c' : Cursor} {u : Unit} (h : ensureExhausted bs c = .ok u c') :
    c' = c ∧ ∀ b ∈ bs, c.position.get b = (c.bands.get b).length := by
  induction bs with
  | nil =>
    obtain ⟨-, rfl⟩ := EStateM.Result.ok.inj h
    exact ⟨rfl, by simp⟩
  | cons b bs ih =>
    unfold ensureExhausted at h
    dsimp only at h
    split at h
    · rename_i hb
      obtain ⟨rfl, hbs⟩ := ih h
      exact ⟨rfl, List.forall_mem_cons.2 ⟨hb, hbs⟩⟩
    · cases h

end Walk

/-- A segment that a walk from the start has passed up to the ends of the bands
is all of them. -/
theorem Cursor.Before.eq_bands {bands : Bands} {maxDepth : Option Nat} {s : Segment}
    (h : (Cursor.start bands maxDepth).Before s)
    (hend : ∀ b, ((Cursor.start bands maxDepth).past s).position.get b = (bands.get b).length) : bands = s.bands := by
  refine PerBand.ext_get fun b => ?_
  have hahead := h b
  have hlen := hend b
  simp only [start, PerBand.get_const, List.drop_zero] at hahead
  simp only [position_past, start, PerBand.get_const, Nat.zero_add] at hlen
  exact (hahead.eq_of_length hlen).symm

/-- The bands that entries are read from settle what is due for the entries,
and are those of the entries when no constant is out of range. -/
theorem Bands.entries_passes {L : Type} [Resolver L] {pool : L} {bands : Bands} {kind : Kind} {count maxDepth : Nat}
    {es : List Entry} (h : bands.entries kind count maxDepth pool = .ok es) :
    ∃ s : Segment, bands = s.bands ∧ es.length = count ∧
      Walk.Rebuilt pool (kind.due count) (Walk.EntriesAt pool kind (some maxDepth)) es s := by
  unfold entries Walk.result at h
  split at h
  · rename_i es' c hread
    obtain rfl := Except.ok.inj h
    obtain ⟨es', d, hcollect, hread⟩ := bind_eq_ok.1 hread
    obtain ⟨s, hs, rfl, hlen, hrebuilt⟩ := Walk.collectEntries_passes count rfl hcollect
    obtain ⟨_, d', hexhausted, hpure⟩ := bind_eq_ok.1 hread
    obtain ⟨rfl, rfl⟩ := EStateM.Result.ok.inj hpure
    obtain ⟨-, hend⟩ := Walk.ensureExhausted_eq_ok hexhausted
    exact ⟨s, hs.eq_bands fun b => hend b (Band.mem_all b), hlen, hrebuilt⟩
  · cases h

end AnnotationBands
