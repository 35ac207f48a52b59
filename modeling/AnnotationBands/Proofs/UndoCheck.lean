import AnnotationBands.Proofs.Answers
import AnnotationBands.Proofs.CrossBand
/-!
# The check on removal never fires

A group that checks what it is about to remove and one that does not answer
every operation alike and stay equal in bands, marks and calls, whatever pool
answers them (`Group.run_checking`). The marks of a reachable group stand ahead
of flattened trees, so the walk over the latest entry ends where the bands do
and counts what the sums give (`Group.Holds.undoSafe`).
-/

namespace AnnotationBands

/-! ## The latest entry of a ledger -/

namespace Ledger

variable {l : Ledger}

theorem latest_error {e : BandError} (h : l.latest = .error e) : l.entryCount = 0 ∧ ∃ b, e = .noOpenEntry b := by
  cases l with
  | defaults vs =>
    simp only [latest] at h
    split at h
    · rename_i hvs
      cases h
      exact ⟨List.length_eq_zero_iff.2 (List.isEmpty_iff.1 hvs), _, rfl⟩
    · cases h
  | parameters es =>
    rcases List.eq_nil_or_concat es with rfl | ⟨es, ps, rfl⟩
    · cases h
      exact ⟨rfl, _, rfl⟩
    · simp [latest] at h
  | members as ns =>
    rcases List.eq_nil_or_concat ns with rfl | ⟨ns, n, rfl⟩
    · cases h
      exact ⟨rfl, _, rfl⟩
    · simp [latest] at h

/-- The latest entry covers trees that are there, unless it is a count of a
member that exceeds its annotations. -/
theorem latest_ok {latest : LatestEntry} (h : l.latest = .ok latest) : latest.trees ≤ l.trees.length ∨
    ∃ as ns, l = members as ns ∧ ns.getLast? = some latest.trees ∧ as.length < latest.trees := by
  cases l with
  | defaults vs =>
    simp only [Ledger.latest] at h
    split at h
    · cases h
    · rename_i hvs
      cases h
      left
      rw [trees, List.length_map]
      exact List.length_pos_iff.2 fun hnil => hvs (List.isEmpty_iff.2 hnil)
  | parameters es =>
    rcases List.eq_nil_or_concat es with rfl | ⟨es, ps, rfl⟩
    · cases h
    · have htrees : (parameters (es.concat ps)).trees = (parameters es).trees ++ ps.flatten.map .root := by
        simp [trees]
      simp only [Ledger.latest, List.concat_eq_append, List.getLast?_append, List.getLast?_singleton, Option.some_or,
        Except.ok.injEq] at h
      subst h
      left
      rw [htrees, List.length_append, List.length_map]
      exact Nat.le_add_left _ _
  | members as ns =>
    simp only [Ledger.latest] at h
    cases hlast : ns.getLast? with
    | none => simp [hlast] at h
    | some n =>
      simp only [hlast, Except.ok.injEq] at h
      subst h
      rcases Nat.lt_or_ge as.length n with hlt | hge
      · exact .inr ⟨as, ns, rfl, hlast, hlt⟩
      · left
        simpa [trees] using hge

end Ledger

namespace Group

/-! ## Removal is safe -/

/-- Removal fails only if there is no entry, or if a member counts more
annotations than it has. The walk over the latest entry succeeds, and the calls
that it counts are those of the sums and no more than the group has. -/
structure UndoSafe (g : Group) : Prop where
  error : ∀ e, g.removeLatest = .error e → g.entryCount = 0 ∧ (∃ b, e = .noOpenEntry b) ∨
    g.kind.isMember = true ∧ ∃ n : Nat, g.bands.annoCounts.getLast? = some (n : Int) ∧
      (g.bands.get .types).length < n ∧ e = .desync .annoCounts n (g.bands.get .types).length
  walk : ∀ latest, g.latestEntry = .ok latest → latest.trees ≤ g.marks.length → ∃ c : Cursor,
    g.skipTrees latest.trees (Cursor.ofMark g.bands (g.startOf latest.trees) (some g.config.maxNestingDepth)) =
      .ok () c ∧ g.callsSince (g.startOf latest.trees) latest.trees = .ok c.calls ∧
    g.bands.sumSince .arrayCounts (g.startOf latest.trees) +
      g.bands.sumSince .nestPairCounts (g.startOf latest.trees) = c.calls ∧ c.calls ≤ g.calls

variable {M : Operand → Int → Prop} {g : Group} {l : Ledger}

theorem Layout.startOf_eq {params annos : List Int} {trees : List Tree} {segs : List Segment}
    (h : Layout M g params annos trees segs) {n : Nat} (hn : n ≤ g.marks.length) :
    ∃ kept, kept ≤ segs.length ∧ n = segs.length - kept ∧ g.startOf n = g.marks[kept]?.getD g.bands.mark := by
  have hlen := h.length_marks
  exact ⟨g.marks.length - n, by omega, by omega, rfl⟩

/-- The calls of the last trees are those of their segments. -/
theorem Layout.callsSince_startOf {params annos : List Int} {trees : List Tree} {segs : List Segment}
    (h : Layout M g params annos trees segs) {n : Nat} (hn : n ≤ g.marks.length) :
    g.callsSince (g.startOf n) n = .ok (Segment.join (segs.drop (segs.length - n))).calls := by
  obtain ⟨kept, hk, rfl, hstart⟩ := h.startOf_eq hn
  rw [hstart, h.callsSince hk, Nat.sub_sub_self hk]

theorem Holds.undoSafe (h : g.Holds M l) : g.UndoSafe := by
  obtain ⟨segs, hl⟩ := h.layout
  constructor
  case error =>
    intro e he
    cases hlatest : g.latestEntry with
    | error e' =>
      rw [removeLatest_of_error hlatest] at he
      cases he
      rw [h.latestEntry] at hlatest
      exact .inl (h.entryCount ▸ Ledger.latest_error hlatest)
    | ok latest =>
      rcases Ledger.latest_ok (h.latestEntry ▸ hlatest) with htrees | ⟨as, ns, rfl, hlast, hlt⟩
      · obtain ⟨g', hg', -⟩ := hl.removeLatest hlatest htrees
        rw [hg'] at he
        cases he
      · -- a count of a member that exceeds its annotations is the only other reason
        have htypes : (g.bands.get .types).length = as.length := h.crossBand.length_types
        have hmarks : g.marks.length = as.length := by simpa [Ledger.trees] using h.length_marks
        rw [removeLatest_of_desync hlatest (hmarks ▸ hlt), hmarks] at he
        cases he
        refine .inr ⟨h.suits.isMember, latest.trees, ?_, htypes ▸ hlt, by rw [htypes]⟩
        rw [h.bands_annoCounts, Ledger.annoCounts, List.getLast?_map, hlast]
        rfl
  case walk =>
    intro latest _ htrees
    obtain ⟨kept, hk, hn, hstart⟩ := hl.startOf_eq htrees
    obtain ⟨c, hc, hcalls⟩ := hl.skipTrees hk
    rw [hstart, hn, hl.sumSince hk, hl.callsSince hk]
    refine ⟨c, hc, by rw [hcalls], by rw [hcalls], ?_⟩
    -- the calls of the group are those of the trees that stay and of those that go
    have hall := congrArg Segment.calls (Segment.join_append (segs.take kept) (segs.drop kept))
    rw [List.take_append_drop, Segment.calls_append, ← hl.calls] at hall
    omega

/-! ## With and without the check -/

/-- The group with the check on removal switched on or off. -/
def checking (g : Group) (check : Bool) : Group := { g with config := { g.config with verifyUndo := check } }

theorem foldl_attach_checking (g : Group) (check : Bool) (ss : List Segment) :
    ss.foldl attach (g.checking check) = (ss.foldl attach g).checking check := by
  induction ss generalizing g with
  | nil => rfl
  | cons s ss ih => exact ih (g.attach s)

theorem foldl_push_checking {α : Type} (g : Group) (check : Bool) (b : Band) (f : α → Int) (xs : List α) :
    xs.foldl (fun g x => g.push b (f x)) (g.checking check) =
      (xs.foldl (fun g x => g.push b (f x)) g).checking check := by
  induction xs generalizing g with
  | nil => rfl
  | cons x xs ih => exact ih (g.push b (f x))

theorem Holds.checking (h : g.Holds M l) (check : Bool) : (g.checking check).Holds M l := by
  obtain ⟨segs, hl⟩ := h.layout
  exact ⟨h.suits, segs, ⟨hl.bands, hl.calls, hl.flat, hl.shape, hl.shallow, hl.length_marks, hl.marks⟩⟩

/-- The sums count what the walk counts. -/
theorem Holds.callsSince_checking (h : g.Holds M l) (check : Bool) {n : Nat} (hn : n ≤ g.marks.length) :
    (g.checking check).callsSince (g.startOf n) n = g.callsSince (g.startOf n) n := by
  obtain ⟨segs, hl⟩ := h.layout
  have hl' : Layout M (g.checking check) l.paramCounts l.annoCounts l.trees segs :=
    ⟨hl.bands, hl.calls, hl.flat, hl.shape, hl.shallow, hl.length_marks, hl.marks⟩
  rw [hl.callsSince_startOf hn]
  exact hl'.callsSince_startOf hn

theorem Holds.removeLatest_checking (h : g.Holds M l) (check : Bool) :
    (g.checking check).removeLatest = (·.checking check) <$> g.removeLatest := by
  have hlatest : (g.checking check).latestEntry = g.latestEntry := rfl
  cases hentry : g.latestEntry with
  | error e => rw [removeLatest_of_error hentry, removeLatest_of_error (hlatest.trans hentry)]; rfl
  | ok latest =>
    rcases Nat.lt_or_ge g.marks.length latest.trees with hlt | hge
    · rw [removeLatest_of_desync hentry hlt, removeLatest_of_desync (hlatest.trans hentry) hlt]
      rfl
    · rw [removeLatest_of_ok hentry hge, removeLatest_of_ok (hlatest.trans hentry) hge]
      -- the check only decides how the calls that go are found
      have hcalls := h.callsSince_checking check hge
      change (g.checking check).dropLatest latest <$>
        (g.checking check).callsSince (g.startOf latest.trees) latest.trees = _
      rw [hcalls]
      cases g.callsSince (g.startOf latest.trees) latest.trees <;> rfl

section Histories

variable {P : Type} [Interner P]

theorem Holds.change_checking (h : g.Holds M l) (check : Bool) (c : Change) :
    (g.checking check).change (P := P) c = (·.checking check) <$> g.change c := by
  cases c with
  | openEntry =>
    simp only [Group.change, Group.openEntry, map_bind]
    rfl
  | extendEntry =>
    simp only [Group.change, Group.extendEntry, map_bind]
    refine bind_congr fun _ => ?_
    rw [show (g.checking check).bands.annoCounts.getLast? = g.bands.annoCounts.getLast? from rfl]
    cases g.bands.annoCounts.getLast? <;> rfl
  | addOne a =>
    simp only [Group.change, Group.addOne, map_bind]
    rfl
  | addMember as =>
    simp only [Group.change, Group.addMember, map_bind]
    refine bind_congr fun _ => ?_
    split
    · rfl
    · rw [map_bind]
      refine bind_congr fun ss => ?_
      rw [foldl_attach_checking]
      rfl
  | addParameters ps =>
    simp only [Group.change, Group.addParameters, map_bind]
    refine bind_congr fun _ => ?_
    split
    · rfl
    · rw [map_bind]
      refine bind_congr fun ss => ?_
      have hcounts := (g.push .paramCounts ps.length).foldl_push_checking check .annoCounts
        (fun as : List Annotation => as.length) ps
      rw [map_pure, ← foldl_attach_checking, ← hcounts]
      rfl
  | addDefault v =>
    simp only [Group.change, Group.addDefault, map_bind]
    rfl
  | removeLatest =>
    simp only [Group.change, h.removeLatest_checking check]
    cases g.removeLatest <;> rfl

theorem Holds.step_checking (h : g.Holds M l) (check : Bool) (c : Change) (p : P) : (g.checking check).step c p =
    ((g.step c p).1, (g.step c p).2.1.checking check, (g.step c p).2.2) := by
  unfold Group.step
  rw [h.change_checking check c]
  cases hc : g.change c p with
  | ok g' q => simp only [Functor.map, EStateM.map, hc]
  | error e q => simp only [Functor.map, EStateM.map, hc]

/-- Switching the check on or off changes nothing in a history but the setting. -/
theorem Holds.run_checking {R : References P} {p : P} (h : g.Holds (R.Means p) l) (check : Bool) (es : List Event) :
    (g.checking check).run p es =
      ⟨(g.run p es).results, (g.run p es).group.checking check, (g.run p es).pool⟩ := by
  induction es generalizing g p l with
  | nil => rfl
  | cons e es ih =>
    cases e with
    | change c => simp only [Group.run, h.step_checking check c p, ih (h.step c).2.2.1]
    | intern x => exact ih (h.mono fun y i hy => R.mono p x y i hy)

end Histories

/-! ## Main theorem -/

/-- Two groups whose settings differ only in the check on removal, and whose
pools give the same answers, are alike after every change, and removal is safe
in both. -/
theorem run_undoCheck (kind : Kind) (context : Context) (config : Config) {P Q : Type} [Interner P] [Interner Q] (p : P)
    (q : Q) (cs : List Change)
    (hanswers : answers (.empty kind context { config with verifyUndo := true }) p cs =
      answers (.empty kind context { config with verifyUndo := false }) q cs) (n : Nat) :
    let checked := (Group.empty kind context { config with verifyUndo := true }).run p ((cs.take n).map .change)
    let unchecked := (Group.empty kind context { config with verifyUndo := false }).run q ((cs.take n).map .change)
    checked.results = unchecked.results ∧ checked.group.bands = unchecked.group.bands ∧
      checked.group.marks = unchecked.group.marks ∧ checked.group.calls = unchecked.group.calls ∧
      checked.group.UndoSafe ∧ unchecked.group.UndoSafe := by
  obtain ⟨g, hg⟩ : ∃ g, g = Group.empty kind context { config with verifyUndo := true } := ⟨_, rfl⟩
  have hunchecked : Group.empty kind context { config with verifyUndo := false } = g.checking false := by rw [hg]; rfl
  have hstart {P : Type} [Interner P] (p : P) : g.Holds ((References.word : References P).Means p) (.empty kind) := by
    rw [hg]
    exact Holds.empty kind context _
  rw [← hg, hunchecked] at hanswers ⊢
  have hsame : g.answers p cs = g.answers q cs := by
    rw [hanswers, answers, (hstart _).run_checking, ← answers]
  -- the same answers up to the change after which the groups are compared
  obtain ⟨rest, hrest⟩ := g.answers_prefix p (cs.take n) (cs.drop n)
  obtain ⟨rest', hrest'⟩ := g.answers_prefix q (cs.take n) (cs.drop n)
  rw [List.take_append_drop] at hrest hrest'
  obtain ⟨hresults, hgroup⟩ := run_of_answers (hrest.trans (hsame.trans hrest'.symm))
  obtain ⟨-, -, hholds⟩ := (hstart p).run ((cs.take n).map .change)
  rw [(hstart q).run_checking, ← hgroup]
  exact ⟨hresults, rfl, rfl, rfl, hholds.undoSafe, (hholds.checking false).undoSafe⟩

/-- A pool and a tape with its answers, when an entry that counts two annotations
is refused while there is one and removed once there are two. -/
theorem run_undoCheck_tape :
    let config := Config.default
    let cs := [Change.addMember [⟨"LA;", [("x", .array [.int 1, .int 2])]⟩], .openEntry, .extendEntry, .removeLatest,
      .addOne ⟨"LB;", []⟩, .removeLatest]
    let tape : Tape := ⟨[0, 0, 0, 1, 1]⟩
    let checked := (Group.empty .visible .method { config with verifyUndo := true }).run Pool.empty
      ((cs.take 6).map .change)
    let unchecked := (Group.empty .visible .method { config with verifyUndo := false }).run tape
      ((cs.take 6).map .change)
    answers (.empty .visible .method { config with verifyUndo := true }) Pool.empty cs =
        answers (.empty .visible .method { config with verifyUndo := false }) tape cs ∧
      checked.results = [.ok (), .ok (), .ok (), .error (.desync .annoCounts 2 1), .ok (), .ok ()] ∧
      checked.results = unchecked.results ∧ checked.group.bands = unchecked.group.bands ∧
      checked.group.UndoSafe ∧ unchecked.group.UndoSafe := by
  intro config cs tape checked unchecked
  have hanswers : answers (.empty .visible .method { config with verifyUndo := true }) Pool.empty cs =
      answers (.empty .visible .method { config with verifyUndo := false }) tape cs := by decide +kernel
  obtain ⟨hresults, hbands, -, -, hsafe⟩ := run_undoCheck .visible .method config Pool.empty tape cs hanswers 6
  exact ⟨hanswers, by decide +kernel, hresults, hbands, hsafe⟩

end Group

end AnnotationBands
