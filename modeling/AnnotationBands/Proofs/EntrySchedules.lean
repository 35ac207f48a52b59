import AnnotationBands.Proofs.Undo
import AnnotationBands.Proofs.UndoCheck
/-!
# Entries put together call by call

A member's entry can be added as a whole, or its annotations one by one, while
the entry is opened and extended in between (`Group.OneByOne`). Marks tell the
two ways apart: a mark holds the length of every band ahead of its tree, so what
it says of the bands of entry counts depends on when the entry was opened.
Groups that differ in nothing else (`Group.SameContent`) answer every operation
alike, because no operation reads that part of a mark
(`Group.SameContent.run`). Main statement: `Group.Reachable.run_oneByOne`.
-/

namespace AnnotationBands

/-- What the mark says of the bands of content. -/
def Mark.content (m : Mark) : Mark := PerBand.ofFn fun b => if b.isEntryCount then 0 else m.get b

theorem Mark.get_of_content_eq {m n : Mark} (h : m.content = n.content) {b : Band} (hb : b.isEntryCount = false) :
    m.get b = n.get b := by
  have := congrArg (PerBand.get · b) h
  simpa [content, hb] using this

theorem Bands.truncateContent_congr (bands : Bands) {m n : Mark} (h : m.content = n.content) :
    bands.truncateContent m = bands.truncateContent n := by
  apply PerBand.ext_get
  intro b
  rw [get_truncateContent, get_truncateContent]
  cases hb : b.isEntryCount with
  | true => rfl
  | false => rw [Mark.get_of_content_eq h hb]

namespace Group

/-- The groups differ at most in their marks, and these only in what they say of
the bands of entry counts. -/
def SameContent (g h : Group) : Prop :=
  ∃ marks, h = { g with marks } ∧ marks.map Mark.content = g.marks.map Mark.content

/-! ## Operations do not tell such groups apart -/

namespace SameContent

variable {g h k : Group}

theorem refl (g : Group) : g.SameContent g := ⟨g.marks, rfl, rfl⟩

theorem trans (hg : g.SameContent h) (hh : h.SameContent k) : g.SameContent k := by
  obtain ⟨ms, rfl, hms⟩ := hg
  obtain ⟨ns, rfl, hns⟩ := hh
  exact ⟨ns, rfl, hns.trans hms⟩

theorem bands (hg : g.SameContent h) : h.bands = g.bands := by
  obtain ⟨ms, rfl, -⟩ := hg
  rfl

theorem calls (hg : g.SameContent h) : h.calls = g.calls := by
  obtain ⟨ms, rfl, -⟩ := hg
  rfl

theorem length_marks (hg : g.SameContent h) : h.marks.length = g.marks.length := by
  obtain ⟨ms, rfl, hms⟩ := hg
  simpa using congrArg List.length hms

theorem entryCount (hg : g.SameContent h) : h.entryCount = g.entryCount := by
  have hlen := hg.length_marks
  obtain ⟨ms, rfl, -⟩ := hg
  simp only [Group.entryCount, hlen]

theorem isEmpty_marks (hg : g.SameContent h) : h.marks.isEmpty = g.marks.isEmpty := by
  rw [Bool.eq_iff_iff, List.isEmpty_iff_length_eq_zero, List.isEmpty_iff_length_eq_zero, hg.length_marks]

theorem hasContent (hg : g.SameContent h) : h.hasContent = g.hasContent := by
  rw [Group.hasContent, Group.hasContent, hg.isEmpty_marks]

theorem push (hg : g.SameContent h) (b : Band) (value : Int) : (g.push b value).SameContent (h.push b value) := by
  obtain ⟨ms, rfl, hms⟩ := hg
  exact ⟨ms, rfl, hms⟩

theorem setAnnoCounts (hg : g.SameContent h) (counts : List Int) :
    SameContent { g with bands := { g.bands with annoCounts := counts } }
      { h with bands := { h.bands with annoCounts := counts } } := by
  obtain ⟨ms, rfl, hms⟩ := hg
  exact ⟨ms, rfl, hms⟩

theorem attach (hg : g.SameContent h) (s : Segment) : (g.attach s).SameContent (h.attach s) := by
  obtain ⟨ms, rfl, hms⟩ := hg
  refine ⟨ms ++ [g.bands.mark], rfl, ?_⟩
  rw [Group.attach, List.map_append, List.map_append, hms]

theorem foldl_push {α : Type} (hg : g.SameContent h) (b : Band) (f : α → Int) (xs : List α) :
    (xs.foldl (fun g x => g.push b (f x)) g).SameContent (xs.foldl (fun g x => g.push b (f x)) h) := by
  induction xs generalizing g h with
  | nil => exact hg
  | cons x xs ih => exact ih (hg.push b (f x))

theorem foldl_attach (hg : g.SameContent h) (ss : List Segment) :
    (ss.foldl Group.attach g).SameContent (ss.foldl Group.attach h) := by
  induction ss generalizing g h with
  | nil => exact hg
  | cons s ss ih => exact ih (hg.attach s)

theorem latestEntry (hg : g.SameContent h) : h.latestEntry = g.latestEntry := by
  have hempty := hg.isEmpty_marks
  obtain ⟨ms, rfl, -⟩ := hg
  simp only [Group.latestEntry, hempty]

theorem content_startOf (hg : g.SameContent h) (n : Nat) : (h.startOf n).content = (g.startOf n).content := by
  have hlen := hg.length_marks
  obtain ⟨ms, rfl, hms⟩ := hg
  have hget := congrArg (·[g.marks.length - n]?) hms
  simp only [List.getElem?_map] at hget
  simp only [startOf, hlen]
  cases hm : ms[g.marks.length - n]? <;> cases hn : g.marks[g.marks.length - n]? <;> simp_all

theorem dropLatest (hg : g.SameContent h) (latest : LatestEntry) (calls : Nat) :
    (g.dropLatest latest calls).SameContent (h.dropLatest latest calls) := by
  have hstart := hg.content_startOf latest.trees
  have hlen := hg.length_marks
  obtain ⟨ms, rfl, hms⟩ := hg
  refine ⟨ms.take (g.marks.length - latest.trees), ?_, ?_⟩
  · simp only [Group.dropLatest, hlen]
    rw [Bands.truncateContent_congr _ hstart]
  · simp only [Group.dropLatest, List.map_take, hms]

theorem layout {M : Operand → Int → Prop} {params annos : List Int} {trees : List Tree} {segs : List Segment}
    (hg : g.SameContent h) (hl : Layout M g params annos trees segs) : Layout M h params annos trees segs := by
  have hlen := hg.length_marks
  obtain ⟨ms, rfl, hms⟩ := hg
  refine ⟨hl.bands, hl.calls, hl.flat, hl.shape, hl.shallow, hlen.trans hl.length_marks, ?_⟩
  intro k hk b hb
  have hk' : k < g.marks.length := hlen ▸ hk
  rw [← hl.marks k hk' b hb]
  apply Mark.get_of_content_eq _ hb
  have hget := congrArg (·[k]?) hms
  simpa [List.getElem?_eq_getElem hk, List.getElem?_eq_getElem hk'] using hget

end SameContent

section Changes

variable {P : Type} {g h : Group}

/-- Both fail alike, or both give groups that hold the same content. Either way
they leave the same pool. -/
inductive Matches : EStateM.Result BandError P Group → EStateM.Result BandError P Group → Prop
  | ok {g h : Group} (hg : g.SameContent h) (p : P) : Matches (.ok g p) (.ok h p)
  | error (e : BandError) (p : P) : Matches (.error e p) (.error e p)

theorem Matches.bind {α : Type} {x : Flatten P α} {f f' : α → Flatten P Group} {p : P}
    (hf : ∀ a q, Matches (f a q) (f' a q)) : Matches ((x >>= f) p) ((x >>= f') p) := by
  cases hx : x p with
  | ok a q =>
    rw [bind_of_ok hx, bind_of_ok hx]
    exact hf a q
  | error e q =>
    rw [bind_of_error hx, bind_of_error hx]
    exact .error e q

/-- How the calls of the latest trees are found does not depend on what their
mark says of the bands of entry counts. -/
theorem SameContent.callsSince {M : Operand → Int → Prop} {l : Ledger} (hg : g.SameContent h) (hl : g.Holds M l)
    {n : Nat} (hn : n ≤ g.marks.length) : h.callsSince (h.startOf n) n = g.callsSince (g.startOf n) n := by
  obtain ⟨segs, hlayout⟩ := hl.layout
  rw [hlayout.callsSince_startOf hn, (hg.layout hlayout).callsSince_startOf (hg.length_marks ▸ hn)]

theorem SameContent.removeLatest {M : Operand → Int → Prop} {l : Ledger} (hg : g.SameContent h) (hl : g.Holds M l)
    (p : P) : Matches (BandError.orThrow g.removeLatest p) (BandError.orThrow h.removeLatest p) := by
  cases hentry : g.latestEntry with
  | error e =>
    rw [removeLatest_of_error hentry, removeLatest_of_error (hg.latestEntry.trans hentry)]
    exact .error e p
  | ok latest =>
    have hentry' := hg.latestEntry.trans hentry
    rcases Nat.lt_or_ge g.marks.length latest.trees with hlt | hge
    · rw [removeLatest_of_desync hentry hlt, removeLatest_of_desync hentry' (hg.length_marks ▸ hlt), hg.length_marks]
      exact .error _ p
    · rw [removeLatest_of_ok hentry hge, removeLatest_of_ok hentry' (hg.length_marks ▸ hge), hg.callsSince hl hge]
      cases g.callsSince (g.startOf latest.trees) latest.trees with
      | error e => exact .error e p
      | ok calls => exact .ok (hg.dropLatest latest calls) p

variable [Interner P]

theorem SameContent.change_of_ne (hg : g.SameContent h) {c : Change} (hc : c ≠ .removeLatest) (p : P) :
    Matches (g.change c p) (h.change c p) := by
  -- the settings, the bands and the calls are the same by definition
  obtain ⟨ms, rfl, hms⟩ := hg
  have hg : g.SameContent { g with marks := ms } := ⟨ms, rfl, hms⟩
  cases c with
  | openEntry =>
    apply Matches.bind
    intro _ q
    exact .ok (hg.push .annoCounts 1) q
  | extendEntry =>
    apply Matches.bind
    intro _ q
    dsimp only
    cases g.bands.annoCounts.getLast? with
    | none => exact .error _ q
    | some n => exact .ok (hg.setAnnoCounts _) q
  | addOne a =>
    apply Matches.bind
    intro _ q
    apply Matches.bind
    intro s q
    exact .ok (hg.attach s) q
  | addMember as =>
    apply Matches.bind
    intro _ q
    cases as.isEmpty with
    | true => exact .ok hg q
    | false =>
      apply Matches.bind
      intro ss q
      exact .ok ((hg.foldl_attach ss).push .annoCounts as.length) q
  | addParameters ps =>
    apply Matches.bind
    intro _ q
    by_cases hmany : maxParameters < ps.length
    · simp only [if_pos hmany]
      exact .error _ q
    · simp only [if_neg hmany]
      apply Matches.bind
      intro ss q
      exact .ok (((hg.push .paramCounts ps.length).foldl_push .annoCounts _ ps).foldl_attach ss) q
  | addDefault v =>
    apply Matches.bind
    intro _ q
    apply Matches.bind
    intro s q
    exact .ok (hg.attach s) q
  | removeLatest => exact absurd rfl hc

theorem SameContent.step (hg : g.SameContent h) {M : Operand → Int → Prop} {l : Ledger} (hl : g.Holds M l) (c : Change)
    (p : P) : (h.step c p).1 = (g.step c p).1 ∧ (g.step c p).2.1.SameContent (h.step c p).2.1 ∧
      (h.step c p).2.2 = (g.step c p).2.2 := by
  have hmatches : Matches (g.change c p) (h.change c p) := by
    cases c with
    | removeLatest => exact hg.removeLatest hl p
    | _ => exact hg.change_of_ne (by simp) p
  unfold Group.step
  generalize g.change c p = r at hmatches ⊢
  generalize h.change c p = r' at hmatches ⊢
  cases hmatches with
  | ok hg' q => exact ⟨rfl, hg', rfl⟩
  | error e q => exact ⟨rfl, hg, rfl⟩

/-- Nothing that happens later tells groups apart that hold the same content. -/
theorem SameContent.run {R : References P} {p : P} {l : Ledger} (hg : g.SameContent h) (hl : g.Holds (R.Means p) l)
    (es : List Event) : (h.run p es).results = (g.run p es).results ∧
      (g.run p es).group.SameContent (h.run p es).group ∧ (h.run p es).pool = (g.run p es).pool := by
  induction es generalizing g h p l with
  | nil => exact ⟨rfl, hg, rfl⟩
  | cons e es ih =>
    cases e with
    | change c =>
      obtain ⟨hresult, hgroup, hpool⟩ := hg.step hl c p
      obtain ⟨hresults, hlast⟩ := ih hgroup (hl.step c).2.2.1
      simp only [Group.run, hresult, hpool]
      exact ⟨congrArg _ hresults, hlast⟩
    | intern x => exact ih hg (hl.mono fun y i hy => R.mono p x y i hy)

/-! ## Schedules -/

def Change.isAddOne : Change → Bool
  | .addOne _ => true
  | _ => false

/-- The annotations are added one by one and in order. In between, an entry is
opened and extended until it counts them all. -/
structure OneByOne (xs : List Annotation) (cs : List Change) : Prop where
  adds : cs.filter Change.isAddOne = xs.map .addOne
  counts : cs.filter (!·.isAddOne) = .openEntry :: List.replicate (xs.length - 1) .extendEntry

/-- What makes the latest entry count one annotation more, by how many it counts
so far. -/
def countOne : Nat → Change
  | 0 => .openEntry
  | _ + 1 => .extendEntry

/-- The group with an entry for that many annotations, and no entry for none. -/
def counting (g : Group) : Nat → Group
  | 0 => g
  | n + 1 => g.push .annoCounts (n + 1 : Nat)

theorem OneByOne.counts_eq {xs : List Annotation} {cs : List Change} (h : OneByOne xs cs) (hxs : xs ≠ []) :
    cs.filter (!·.isAddOne) = (List.range' 0 xs.length).map countOne := by
  rw [h.counts]
  obtain ⟨x, xs, rfl⟩ := List.exists_cons_of_ne_nil hxs
  rw [List.length_cons, Nat.add_sub_cancel, List.range'_succ, List.map_cons]
  congr 1
  symm
  rw [List.eq_replicate_iff]
  refine ⟨by simp, ?_⟩
  intro c hc
  obtain ⟨n, hn, rfl⟩ := List.mem_map.1 hc
  obtain ⟨i, -, rfl⟩ := List.mem_range'.1 hn
  rw [Nat.zero_add, Nat.add_comm]
  rfl

omit [Interner P] in
theorem kind_counting (g : Group) (n : Nat) : (g.counting n).kind = g.kind := by cases n <;> rfl

omit [Interner P] in
theorem config_counting (g : Group) (n : Nat) : (g.counting n).config = g.config := by cases n <;> rfl

theorem change_countOne {g : Group} (hkind : g.kind.isMember = true) (n : Nat) (p : P) :
    (g.counting n).change (countOne n) p = .ok (g.counting (n + 1)) p := by
  cases n with
  | zero =>
    simp only [counting, countOne, Group.change, Group.openEntry, require_of_true hkind]
    rfl
  | succ n =>
    have hlast : (g.push .annoCounts (n + 1 : Nat)).bands.annoCounts = g.bands.annoCounts ++ [((n + 1 : Nat) : Int)] :=
      rfl
    simp only [counting, countOne, Group.change, Group.extendEntry, hlast, List.getLast?_concat, List.dropLast_concat]
    rw [require_of_true (show (g.push .annoCounts (n + 1 : Nat)).kind.isMember = true from hkind)]
    rfl

theorem change_addOne {g : Group} (hkind : g.kind.isMember = true) {a : Annotation} {s : Segment} {p q : P}
    (hs : Flatten.root g.config.maxNestingDepth a p = .ok s q) (n : Nat) :
    (g.counting n).change (.addOne a) p = .ok ((g.counting n).attach s) q := by
  simp only [Group.change, Group.addOne, kind_counting, config_counting, require_of_true hkind, bind_of_ok hs]
  rfl

omit [Interner P] in
/-- A tree can be added ahead of the entry that counts it or behind it. -/
theorem attach_counting {M : Operand → Int → Prop} {a : Annotation} {s : Segment} (hs : Flat.Root M a s) (g : Group)
    (n : Nat) : ((g.attach s).counting n).SameContent ((g.counting n).attach s) := by
  cases n with
  | zero => exact .refl _
  | succ n =>
    refine ⟨g.marks ++ [(g.push .annoCounts (n + 1 : Nat)).bands.mark], ?_, ?_⟩
    · simp only [counting, Group.attach, Group.push]
      congr 1
      apply PerBand.ext_get
      intro b
      rw [Bands.get_append, Bands.get_push, Bands.get_push, Bands.get_append]
      by_cases hb : b = .annoCounts
      · rw [if_pos hb, if_pos hb, hb, hs.get_entryCount rfl, List.append_nil, List.append_nil]
      · rw [if_neg hb, if_neg hb]
    · -- only the mark of the tree itself differs, in what it says of the counts of entries
      have hmark : Mark.content (g.push .annoCounts (n + 1 : Nat)).bands.mark = Mark.content g.bands.mark := by
        apply PerBand.ext_get
        intro b
        simp only [Mark.content, PerBand.get_ofFn, Group.push, Bands.get_mark, Bands.get_push]
        cases b <;> rfl
      simp only [counting, Group.attach, Group.push, List.map_append, List.map_singleton] at hmark ⊢
      rw [hmark]

theorem step_of_ok {g g' : Group} {c : Change} {p q : P} (h : g.change c p = .ok g' q) :
    g.step c p = (.ok (), g', q) := by
  simp only [Group.step, h]

omit [Interner P] in
theorem Matches.eq_ok {g : Group} {p : P} {r : EStateM.Result BandError P Group} (h : Matches (.ok g p) r) :
    ∃ h, r = .ok h p ∧ g.SameContent h := by
  cases h with
  | ok hg => exact ⟨_, rfl, hg⟩

/-- What is left of a schedule, from a group that holds the content added so
far: every operation succeeds, and in the end the group holds what adding all
trees and counting them gives. -/
theorem SameContent.run_schedule {g h : Group} (hkind : g.kind.isMember = true) {n m : Nat}
    (hh : (g.counting n).SameContent h) {xs : List Annotation} {cs : List Change}
    (hadds : cs.filter Change.isAddOne = xs.map .addOne)
    (hcounts : cs.filter (!·.isAddOne) = (List.range' n m).map countOne) {p q : P} {ss : List Segment}
    (hss : Flatten.roots g.config.maxNestingDepth xs p = .ok ss q) :
    (h.run p (cs.map .change)).results = List.replicate cs.length (.ok ()) ∧
      ((ss.foldl Group.attach g).counting (n + m)).SameContent (h.run p (cs.map .change)).group ∧
      (h.run p (cs.map .change)).pool = q := by
  induction cs generalizing g h n m xs p ss with
  | nil =>
    obtain rfl : xs = [] := by simpa using hadds.symm
    obtain rfl : m = 0 := by simpa using hcounts
    obtain ⟨rfl, rfl⟩ := EStateM.Result.ok.inj hss
    exact ⟨rfl, hh, rfl⟩
  | cons c cs ih =>
    cases hc : c.isAddOne with
    | true =>
      rw [List.filter_cons_of_pos hc] at hadds
      rw [List.filter_cons_of_neg (by simp [hc])] at hcounts
      obtain ⟨x, xs, rfl⟩ : ∃ y ys, xs = y :: ys := by
        cases xs with
        | nil => cases hadds
        | cons y ys => exact ⟨y, ys, rfl⟩
      rw [List.map_cons, List.cons.injEq] at hadds
      obtain ⟨rfl, hadds⟩ := hadds
      obtain ⟨s, p₁, hs, hrest⟩ := bind_eq_ok.1 hss
      obtain ⟨ss, _, hmore, hlast⟩ := bind_eq_ok.1 hrest
      obtain ⟨rfl, rfl⟩ := EStateM.Result.ok.inj hlast
      have hroot : Flat.Root Operand.IsWord x s := ((Flatten.root_yields References.word _ x).ok hs).2.2
      -- the tree goes in behind the entry, or ahead of it as far as content goes
      have hadd := hh.change_of_ne (c := .addOne x) (by simp) p
      rw [change_addOne hkind hs] at hadd
      obtain ⟨h', hchange, hh'⟩ := hadd.eq_ok
      obtain ⟨hresults, hlast⟩ := ih (g := g.attach s) hkind ((attach_counting hroot g n).trans hh') hadds hcounts hmore
      simp only [List.map_cons, Group.run, step_of_ok hchange, hresults, List.length_cons, List.replicate_succ]
      exact ⟨trivial, hlast⟩
    | false =>
      rw [List.filter_cons_of_neg (by simp [hc])] at hadds
      rw [List.filter_cons_of_pos (by simp [hc])] at hcounts
      obtain ⟨m, rfl⟩ : ∃ k, m = k + 1 := by
        cases m with
        | zero => cases hcounts
        | succ k => exact ⟨k, rfl⟩
      rw [List.range'_succ, List.map_cons, List.cons.injEq] at hcounts
      obtain ⟨rfl, hcounts⟩ := hcounts
      have hcount := hh.change_of_ne (c := countOne n) (by cases n <;> simp [countOne]) p
      rw [change_countOne hkind] at hcount
      obtain ⟨h', hchange, hh'⟩ := hcount.eq_ok
      obtain ⟨hresults, hlast⟩ := ih hkind hh' hadds hcounts hss
      rw [Nat.add_assoc, Nat.add_comm 1 m] at hlast
      simp only [List.map_cons, Group.run, step_of_ok hchange, hresults, List.length_cons, List.replicate_succ]
      exact ⟨trivial, hlast⟩

/-! ## Main theorem -/

/-- Adding annotations one by one, while an entry is opened and extended in any
order, leaves what adding them as one entry leaves, and nothing that happens
later tells the two apart. -/
theorem Reachable.run_oneByOne {g g' : Group} (hg : g.Reachable) {xs : List Annotation} (hxs : xs ≠ []) {p q : P}
    (hadd : g.change (.addMember xs) p = .ok g' q) {cs : List Change} (hcs : OneByOne xs cs) :
    let manual := g.run p (cs.map .change)
    manual.results = List.replicate cs.length (.ok ()) ∧ manual.group.bands = g'.bands ∧
      manual.group.calls = g'.calls ∧ manual.pool = q ∧
      ∀ es : List Event,
        let later := manual.group.run q es
        let later' := g'.run q es
        later.results = later'.results ∧ later.pool = later'.pool ∧ later.group.bands = later'.group.bands ∧
          later.group.calls = later'.group.calls ∧ later.group.entryCount = later'.group.entryCount ∧
          later.group.hasContent = later'.group.hasContent := by
  intro manual
  obtain ⟨l, hl⟩ := hg.holds
  have hholds : g.Holds ((References.word : References P).Means p) l := hl
  have hstep := (hholds.step (.addMember xs)).2.2.1
  rw [step_of_ok hadd] at hstep
  obtain ⟨hkind, hadd⟩ := require_eq_ok hadd
  rw [if_neg (by simpa using hxs)] at hadd
  obtain ⟨ss, _, hss, hlast⟩ := bind_eq_ok.1 hadd
  obtain ⟨rfl, rfl⟩ := EStateM.Result.ok.inj hlast
  obtain ⟨hresults, hgroup, hpool⟩ :=
    (SameContent.refl g).run_schedule (n := 0) hkind hcs.adds (hcs.counts_eq hxs) hss
  -- all are counted now, as the last step of adding them as one entry does
  obtain ⟨n, hn⟩ := Nat.exists_eq_succ_of_ne_zero (mt List.length_eq_zero_iff.1 hxs)
  rw [Nat.zero_add, hn] at hgroup
  rw [hn] at hstep ⊢
  refine ⟨hresults, hgroup.bands, hgroup.calls, hpool, ?_⟩
  intro es
  obtain ⟨hresults, hgroup, hpool⟩ := hgroup.run hstep es
  exact ⟨hresults, hpool, hgroup.bands, hgroup.calls, hgroup.entryCount, hgroup.hasContent⟩

end Changes

/-- An entry opened ahead of its annotations, behind one that counts an
annotation which is missing. The marks are not those of adding it at once. -/
theorem Reachable.run_oneByOne_opened_first :
    let g := ((Group.empty .visible .method .default).step .openEntry Pool.empty).2.1
    let xs : List Annotation := [⟨"LA;", [("x", .array [.int 1])]⟩, ⟨"LB;", []⟩]
    let cs := [Change.openEntry, .addOne ⟨"LA;", [("x", .array [.int 1])]⟩, .extendEntry, .addOne ⟨"LB;", []⟩]
    let added := g.step (.addMember xs) Pool.empty
    let manual := g.run Pool.empty (cs.map .change)
    let es := [Event.change .removeLatest, .change .removeLatest]
    g.change (.addMember xs) Pool.empty = .ok added.2.1 added.2.2 ∧ OneByOne xs cs ∧
      manual.group.marks ≠ added.2.1.marks ∧ manual.group.bands = added.2.1.bands ∧
      (manual.group.run added.2.2 es).results = (added.2.1.run added.2.2 es).results ∧
      (manual.group.run added.2.2 es).results = [.ok (), .error (.desync .annoCounts 1 0)] := by
  intro g xs cs added manual es
  have hg : g.Reachable := (Reachable.empty .visible .method .default).step .openEntry Pool.empty
  have hadd : g.change (.addMember xs) Pool.empty = .ok added.2.1 added.2.2 := rfl
  have hcs : OneByOne xs cs := ⟨rfl, rfl⟩
  obtain ⟨-, hbands, -, -, hlater⟩ := hg.run_oneByOne (List.cons_ne_nil _ _) hadd hcs
  exact ⟨hadd, hcs, by decide +kernel, hbands, (hlater es).1, by decide +kernel⟩

end Group

end AnnotationBands
