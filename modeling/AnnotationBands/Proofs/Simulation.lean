import AnnotationBands.Proofs.Ledger
/-!
# Operations answer as the ledger does

Each operation on a group that holds a ledger gives the result that the ledger
gives, error for error, and the group then holds the new ledger
(`Holds.change`). Making a change and keeping the group when it fails does the
same (`Holds.step`).
-/

namespace AnnotationBands.Group

/-! ## Agreement -/

variable {P : Type} [Interner P]

/-- A step of a group and the step of a ledger agree: both fail with the same
error, or both succeed and the group with its old settings holds the ledger.
Either way, interning only added to the pool. -/
inductive Agrees (R : References P) (p : P) (g : Group) :
    EStateM.Result BandError P Group → Except BandError Ledger → Prop
  | ok {g' : Group} {q : P} {l' : Ledger} (pool : R.Extends p q) (settings : g'.blank = g.blank)
      (holds : g'.Holds (R.Means q) l') : Agrees R p g (.ok g' q) (.ok l')
  | error {e : BandError} {q : P} (pool : R.Extends p q) : Agrees R p g (.error e q) (.error e)

theorem Agrees.refl {R : References P} {p : P} {g : Group} {l : Ledger} (h : g.Holds (R.Means p) l) :
    Agrees R p g (.ok g p) (.ok l) := .ok (.refl p) rfl h

variable {R : References P} {p : P} {g : Group} {l : Ledger}

/-- A step that flattens trees and then adds them. -/
theorem Agrees.of_yields {α : Type} {fits : Prop} [Decidable fits] {Q : (Operand → Int → Prop) → α → Prop}
    {x : Flatten P α} {build : α → Group} (hx : Flatten.Yields R g.config.maxNestingDepth fits Q x)
    (h : g.Holds (R.Means p) l) {l' : Ledger} (hblank : ∀ a, (build a).blank = g.blank)
    (hbuild : ∀ M a, g.Holds M l → fits → Q M a → (build a).Holds M l') :
    Agrees R p g ((x >>= fun a => pure (build a)) p)
      (if fits then .ok l' else .error (.nestingTooDeep g.config.maxNestingDepth)) := by
  cases hr : x p with
  | ok a q =>
    obtain ⟨hq, hfits, ha⟩ := hx.ok hr
    rw [bind_of_ok hr, if_pos hfits]
    exact .ok hq (hblank a) (hbuild _ a (h.mono hq) hfits ha)
  | error e q =>
    obtain ⟨hq, rfl, hn⟩ := hx.error hr
    rw [bind_of_error hr, if_neg hn]
    exact .error hq

/-! ## Operations -/

omit [Interner P] in
theorem require_of_true {α : Type} {allowed : Bool} (h : allowed = true) (operation : Operation)
    (f : Unit → Flatten P α) : (g.require allowed operation >>= f) p = f () p := by
  subst h
  rfl

omit [Interner P] in
theorem require_of_false {α : Type} {allowed : Bool} (h : allowed = false) (operation : Operation)
    (f : Unit → Flatten P α) : (g.require allowed operation >>= f) p = .error (.wrongKind g.kind operation) p := by
  subst h
  rfl

theorem Holds.openEntry (h : g.Holds (R.Means p) l) :
    Agrees R p g (g.openEntry p) (l.change g.kind g.config.maxNestingDepth .openEntry) := by
  have hkind := h.suits.isMember
  cases l with
  | members as ns =>
    rw [Group.openEntry, require_of_true (by rw [hkind]; rfl)]
    obtain ⟨segs, hl⟩ := h.layout
    refine .ok (.refl p) rfl ⟨⟨h.suits.1, ?_⟩, segs, ?_⟩
    · simpa [or_imp, forall_and] using h.suits.2
    · simpa [Ledger.paramCounts, Ledger.annoCounts, Ledger.trees] using hl.push_annoCount 1
  | _ =>
    rw [Group.openEntry, require_of_false (by rw [hkind]; rfl)]
    exact .error (.refl p)

theorem Holds.extendEntry (h : g.Holds (R.Means p) l) :
    Agrees R p g (g.extendEntry p) (l.change g.kind g.config.maxNestingDepth .extendEntry) := by
  have hkind := h.suits.isMember
  have hcounts := h.bands_annoCounts
  cases l with
  | members as ns =>
    obtain ⟨segs, hl⟩ := h.layout
    simp only [Ledger.annoCounts] at hcounts
    rw [Group.extendEntry, require_of_true (by rw [hkind]; rfl)]
    simp only [hcounts, List.getLast?_map, Ledger.change]
    rcases List.eq_nil_or_concat ns with rfl | ⟨ns, n, rfl⟩
    · exact .error (.refl p)
    · simp only [List.concat_eq_append, List.getLast?_append, List.getLast?_singleton, Option.some_or, Option.map_some,
        List.map_append, List.map_singleton, List.dropLast_concat]
      refine .ok (.refl p) rfl ⟨⟨h.suits.1, ?_⟩, segs, ?_⟩
      · have := h.suits.2
        simp only [List.concat_eq_append, List.forall_mem_append, List.forall_mem_singleton] at this ⊢
        exact ⟨this.1, Nat.succ_pos n⟩
      · simpa [Ledger.paramCounts, Ledger.annoCounts, Ledger.trees] using
          hl.setAnnoCounts (ns.map Nat.cast ++ [(n : Int) + 1])
  | _ =>
    rw [Group.extendEntry, require_of_false (by rw [hkind]; rfl)]
    exact .error (.refl p)

theorem Holds.addOne (h : g.Holds (R.Means p) l) (a : Annotation) :
    Agrees R p g (g.addOne a p) (l.change g.kind g.config.maxNestingDepth (.addOne a)) := by
  have hkind := h.suits.isMember
  have hdesc := h.suits.hasDescriptors
  cases l with
  | members as ns =>
    rw [Group.addOne, require_of_true (by rw [hkind]; rfl)]
    simp only [Ledger.change]
    refine Agrees.of_yields (Flatten.root_yields R _ a) h (fun _ => rfl) ?_
    rintro M s hM hd hs
    obtain ⟨segs, hl⟩ := hM.layout
    refine ⟨hM.suits, segs ++ [s], ?_⟩
    simpa [Ledger.trees, Ledger.paramCounts, Ledger.annoCounts] using hl.attach (t := .root a) hs hdesc.symm hd
  | _ =>
    rw [Group.addOne, require_of_false (by rw [hkind]; rfl)]
    exact .error (.refl p)

theorem Holds.addMember (h : g.Holds (R.Means p) l) (added : List Annotation) :
    Agrees R p g (g.addMember added p) (l.change g.kind g.config.maxNestingDepth (.addMember added)) := by
  have hkind := h.suits.isMember
  have hdesc := h.suits.hasDescriptors
  cases l with
  | members as ns =>
    rw [Group.addMember, require_of_true (by rw [hkind]; rfl)]
    simp only [Ledger.change]
    cases hempty : added.isEmpty with
    | true => exact .refl h
    | false =>
      refine Agrees.of_yields (Flatten.roots_yields R _ added) h (fun _ => by simp) ?_
      rintro M ss hM hd hs
      obtain ⟨segs, hl⟩ := hM.layout
      have hsettings : ((ss.foldl attach g).push .annoCounts added.length).blank = g.blank := by simp
      refine ⟨⟨kind_eq_of_blank hsettings ▸ hM.suits.1, ?_⟩, segs ++ ss, ?_⟩
      · have hpos : 0 < added.length := List.length_pos_iff.2 fun hnil => by simp [hnil] at hempty
        exact List.forall_mem_append.2 ⟨h.suits.2, List.forall_mem_singleton.2 hpos⟩
      · simpa [Ledger.trees, Ledger.paramCounts, Ledger.annoCounts] using hl.add_member hdesc hs hd
  | _ =>
    rw [Group.addMember, require_of_false (by rw [hkind]; rfl)]
    exact .error (.refl p)

theorem Holds.addParameters (h : g.Holds (R.Means p) l) (ps : List (List Annotation)) :
    Agrees R p g (g.addParameters ps p) (l.change g.kind g.config.maxNestingDepth (.addParameters ps)) := by
  have hkind := h.suits.isParameter
  have hdesc := h.suits.hasDescriptors
  cases l with
  | parameters es =>
    rw [Group.addParameters, require_of_true (by rw [hkind]; rfl)]
    simp only [Ledger.change]
    by_cases hmany : maxParameters < ps.length
    · rw [if_pos hmany, if_pos (show 255 < ps.length from hmany)]
      exact .error (.refl p)
    · rw [if_neg hmany, if_neg (show ¬ 255 < ps.length from hmany)]
      have hsettings (ss : List Segment) : (ss.foldl attach (ps.foldl (fun g as => g.push .annoCounts as.length)
          (g.push .paramCounts ps.length))).blank = g.blank := by
        rw [blank_foldl_attach, blank_foldl_push, blank_push]
      refine Agrees.of_yields (Flatten.roots_yields R _ ps.flatten) h hsettings ?_
      rintro M ss hM hd hs
      obtain ⟨segs, hl⟩ := hM.layout
      refine ⟨⟨?_, ?_⟩, segs ++ ss, ?_⟩
      · rw [kind_eq_of_blank (hsettings ss)]
        exact hM.suits.1
      · exact List.forall_mem_append.2 ⟨h.suits.2, List.forall_mem_singleton.2 (Nat.le_of_not_lt hmany)⟩
      · simpa [Ledger.trees, Ledger.annoCounts, Ledger.paramCounts] using hl.add_parameters hdesc hs hd
  | _ =>
    rw [Group.addParameters, require_of_false (by rw [hkind]; rfl)]
    exact .error (.refl p)

theorem Holds.addDefault (h : g.Holds (R.Means p) l) (v : ElementValue) :
    Agrees R p g (g.addDefault v p) (l.change g.kind g.config.maxNestingDepth (.addDefault v)) := by
  have hdesc := h.suits.hasDescriptors
  cases l with
  | defaults vs =>
    rw [Group.addDefault, require_of_true (by rw [hdesc]; rfl)]
    simp only [Ledger.change]
    have hfits : 1 + v.depth ≤ g.config.maxNestingDepth + 1 ↔ v.depth ≤ g.config.maxNestingDepth := by omega
    refine Agrees.of_yields ((Flatten.value_yields R _ v 1).imp hfits fun _ _ hs => hs) h (fun _ => rfl) ?_
    rintro M s hM hd hs
    obtain ⟨segs, hl⟩ := hM.layout
    refine ⟨hM.suits, segs ++ [s], ?_⟩
    simpa [Ledger.trees, Ledger.paramCounts, Ledger.annoCounts] using hl.attach (t := .value v) hs hdesc.symm hd
  | _ =>
    rw [Group.addDefault, require_of_false (by rw [hdesc]; rfl)]
    exact .error (.refl p)

/-! ## Removing -/

/-- The mark ahead of the latest trees. -/
def startOf (g : Group) (trees : Nat) : Mark := g.marks[g.marks.length - trees]?.getD g.bands.mark

/-- The group without the latest entry, whose trees have a number of calls. -/
def dropLatest (g : Group) (latest : LatestEntry) (calls : Nat) : Group :=
  { g with
    bands := (dropCounts g.bands latest).truncateContent (g.startOf latest.trees)
    calls := g.calls - calls
    marks := g.marks.take (g.marks.length - latest.trees) }

omit [Interner P] in
theorem removeLatest_of_error {e : BandError} (h : g.latestEntry = .error e) : g.removeLatest = .error e := by
  simp only [Group.removeLatest, h, bind, Except.bind]

omit [Interner P] in
/-- An entry that counts more trees than there are cannot be removed. -/
theorem removeLatest_of_desync {latest : LatestEntry} (h : g.latestEntry = .ok latest)
    (hlt : g.marks.length < latest.trees) :
    g.removeLatest = .error (.desync .annoCounts latest.trees g.marks.length) := by
  simp only [Group.removeLatest, h, bind, Except.bind, if_pos hlt]
  rfl

omit [Interner P] in
/-- With enough trees, all that can still fail is finding the calls that go. -/
theorem removeLatest_of_ok {latest : LatestEntry} (h : g.latestEntry = .ok latest)
    (hle : latest.trees ≤ g.marks.length) :
    g.removeLatest = g.dropLatest latest <$> g.callsSince (g.startOf latest.trees) latest.trees := by
  unfold Group.removeLatest
  rw [h]
  simp only [bind, Except.bind]
  rw [if_neg (Nat.not_lt.2 hle)]
  unfold startOf
  cases g.callsSince (g.marks[g.marks.length - latest.trees]?.getD g.bands.mark) latest.trees <;> rfl

theorem Holds.latestEntry {M : Operand → Int → Prop} (h : g.Holds M l) : g.latestEntry = l.latest := by
  have hmarks := h.length_marks
  rw [Group.latestEntry, h.suits.isParameter, h.suits.hasDescriptors, h.bands_paramCounts, h.bands_annoCounts]
  cases l with
  | defaults vs =>
    simp only [Ledger.trees, List.length_map] at hmarks
    have hempty : g.marks.isEmpty = vs.isEmpty := by
      rw [Bool.eq_iff_iff, List.isEmpty_iff_length_eq_zero, List.isEmpty_iff_length_eq_zero, hmarks]
    simp [Ledger.isParameters, Ledger.isDefaults, Ledger.latest, hempty]
  | parameters es =>
    rcases List.eq_nil_or_concat es with rfl | ⟨es, ps, rfl⟩
    · rfl
    · simp [Ledger.isParameters, Ledger.latest, Ledger.paramCounts, Ledger.annoCounts, Function.comp_def]
      exact List.sum_eq_foldr.symm
  | members as ns =>
    rcases List.eq_nil_or_concat ns with rfl | ⟨ns, n, rfl⟩
    · rfl
    · simp [Ledger.isParameters, Ledger.isDefaults, Ledger.latest, Ledger.annoCounts]

/-- Removing an entry leaves what the ledger lists ahead of it. -/
theorem Holds.removeLatest_ok {M : Operand → Int → Prop} (h : g.Holds M l) {latest : LatestEntry}
    (hlatest : l.latest = .ok latest) (htrees : latest.trees ≤ l.trees.length) {l' : Ledger} (hsuits : l'.Suits g.kind)
    (hparams : l'.paramCounts = l.paramCounts.take (l.paramCounts.length - latest.paramCounts))
    (hannos : l'.annoCounts = l.annoCounts.take (l.annoCounts.length - latest.annoCounts))
    (hkept : l'.trees = l.trees.take (l.trees.length - latest.trees)) :
    ∃ g', g.removeLatest = .ok g' ∧ g'.blank = g.blank ∧ g'.Holds M l' := by
  obtain ⟨segs, hl⟩ := h.layout
  obtain ⟨g', hg', hlayout, hblank, -⟩ := hl.removeLatest (h.latestEntry.trans hlatest) htrees
  rw [← hparams, ← hannos, ← hkept] at hlayout
  exact ⟨g', hg', hblank, kind_eq_of_blank hblank ▸ hsuits, _, hlayout⟩

theorem Holds.removeLatest (h : g.Holds (R.Means p) l) :
    Agrees R p g (BandError.orThrow g.removeLatest p) (l.change g.kind g.config.maxNestingDepth .removeLatest) := by
  have hlatest := h.latestEntry
  have hok {l' : Ledger} (hr : ∃ g', g.removeLatest = .ok g' ∧ g'.blank = g.blank ∧ g'.Holds (R.Means p) l') :
      Agrees R p g (BandError.orThrow g.removeLatest p) (.ok l') := by
    obtain ⟨g', hg', hblank, hholds⟩ := hr
    rw [hg']
    exact .ok (.refl p) hblank hholds
  cases l with
  | defaults vs =>
    rcases List.eq_nil_or_concat vs with rfl | ⟨vs, v, rfl⟩
    · rw [removeLatest_of_error hlatest]
      exact .error (.refl p)
    · have hsuits : (Ledger.defaults vs).Suits g.kind := h.suits
      have hlast : (Ledger.defaults (vs.concat v)).latest = .ok ⟨0, 0, 1⟩ := by simp [Ledger.latest]
      rw [show Ledger.change g.kind _ (.defaults (vs.concat v)) .removeLatest = .ok (.defaults vs) by
        simp [Ledger.change]]
      refine hok (h.removeLatest_ok hlast ?_ hsuits ?_ ?_ ?_)
      all_goals simp [Ledger.trees, Ledger.paramCounts, Ledger.annoCounts]
  | parameters es =>
    rcases List.eq_nil_or_concat es with rfl | ⟨es, ps, rfl⟩
    · rw [removeLatest_of_error hlatest]
      exact .error (.refl p)
    · have hsuits : (Ledger.parameters es).Suits g.kind :=
        ⟨h.suits.1, fun ps hps => h.suits.2 ps (by simp [hps])⟩
      have hlast : (Ledger.parameters (es.concat ps)).latest = .ok ⟨1, ps.length, ps.flatten.length⟩ := by
        simp [Ledger.latest]
      rw [show Ledger.change g.kind _ (.parameters (es.concat ps)) .removeLatest = .ok (.parameters es) by
        simp [Ledger.change]]
      have htrees : (Ledger.parameters (es.concat ps)).trees =
          (Ledger.parameters es).trees ++ ps.flatten.map .root := by simp [Ledger.trees]
      refine hok (h.removeLatest_ok hlast ?_ hsuits ?_ ?_ ?_)
      · rw [htrees, List.length_append, List.length_map]
        exact Nat.le_add_left _ _
      · simp [Ledger.paramCounts]
      · simp [Ledger.annoCounts]
      · rw [htrees, List.length_append, List.length_map, Nat.add_sub_cancel, List.take_left]
  | members as ns =>
    rcases List.eq_nil_or_concat ns with rfl | ⟨ns, n, rfl⟩
    · rw [removeLatest_of_error hlatest]
      exact .error (.refl p)
    · simp only [Ledger.change, List.concat_eq_append, List.getLast?_append, List.getLast?_singleton, Option.some_or]
      have hlast : (Ledger.members as (ns ++ [n])).latest = .ok ⟨0, 1, n⟩ := by simp [Ledger.latest]
      by_cases hlt : as.length < n
      · -- more annotations are counted than were added
        have hmarks : g.marks.length = as.length := by simpa [Ledger.trees] using h.length_marks
        have hshort : g.marks.length < n := by rwa [hmarks]
        rw [if_pos hlt, removeLatest_of_desync (hlatest.trans (by simpa using hlast)) hshort, hmarks]
        exact .error (.refl p)
      · have hsuits : (Ledger.members (as.take (as.length - n)) ns).Suits g.kind :=
          ⟨h.suits.1, fun m hm => h.suits.2 m (by simp [hm])⟩
        rw [if_neg hlt, List.dropLast_concat]
        refine hok (h.removeLatest_ok (by simpa using hlast) ?_ hsuits ?_ ?_ ?_)
        all_goals simp [Ledger.trees, Ledger.paramCounts, Ledger.annoCounts, List.map_take]
        omega

/-- Every operation on a group that holds a ledger does what it does to the
ledger. -/
theorem Holds.change (h : g.Holds (R.Means p) l) (c : Change) :
    Agrees R p g (g.change c p) (l.change g.kind g.config.maxNestingDepth c) := by
  cases c with
  | openEntry => exact h.openEntry
  | extendEntry => exact h.extendEntry
  | addOne a => exact h.addOne a
  | addMember as => exact h.addMember as
  | addParameters ps => exact h.addParameters ps
  | addDefault v => exact h.addDefault v
  | removeLatest => exact h.removeLatest

/-- A change that is not made leaves group and ledger as they were. -/
theorem Holds.step (h : g.Holds (R.Means p) l) (c : Change) :
    (g.step c p).1 = (l.step g.kind g.config.maxNestingDepth c).1 ∧ (g.step c p).2.1.blank = g.blank ∧
      (g.step c p).2.1.Holds (R.Means (g.step c p).2.2) (l.step g.kind g.config.maxNestingDepth c).2 ∧
      R.Extends p (g.step c p).2.2 := by
  have hagrees := h.change c
  unfold Group.step Ledger.step
  generalize g.change c p = r at hagrees ⊢
  generalize l.change g.kind g.config.maxNestingDepth c = r' at hagrees ⊢
  cases hagrees with
  | ok hq hblank hholds => exact ⟨rfl, hblank, hholds, hq⟩
  | error hq => exact ⟨rfl, rfl, h.mono hq, hq⟩

/-! ## Reachable groups -/

/-- The group comes from a new one by operations, failed ones included, each
with some pool. -/
inductive Reachable : Group → Prop
  | empty (kind : Kind) (context : Context) (config : Config) : Reachable (.empty kind context config)
  | step {P : Type} [Interner P] {g : Group} (h : Reachable g) (c : Change) (p : P) : Reachable (g.step c p).2.1

/-- Whatever pools it was built with, a reachable group holds a ledger. -/
theorem Reachable.holds {g : Group} (h : g.Reachable) : ∃ l, g.Holds Operand.IsWord l := by
  induction h with
  | empty kind context config => exact ⟨_, Holds.empty kind context config⟩
  | @step P _ g _ c p ih =>
    obtain ⟨l, hl⟩ := ih
    have hg : g.Holds ((References.word : References P).Means p) l := hl
    exact ⟨_, (hg.step c).2.2.1⟩

end AnnotationBands.Group
