import AnnotationBands.Proofs.InPlace
import AnnotationBands.Proofs.PoolIndependence
/-!
# A failed operation leaves a group as it was

However much a failing operation has pushed, its group comes out as it went in,
and its pool with further literals at most. Later operations then give the same
results and build the same group up to the values of references, whether the
failed one was made or not (`InPlace.change_error`). When the references of the
group are those of the pool, the entries are read back the same as well.
-/

namespace AnnotationBands

/-- The references of the group lead to its literals in the pool, as long as
there is an index for each. -/
def Group.FilledFrom (p : Pool) (g : Group) : Prop := ∃ l, g.Holds (References.pool.Means p) l

/-- A group that was built with a pool, others using it in between. -/
theorem Group.filledFrom_run (kind : Kind) (context : Context) (config : Config) (p : Pool) (es : List Event) :
    let built := (Group.empty kind context config).run p es
    built.group.FilledFrom built.pool := by
  intro built
  have hstart : (Group.empty kind context config).Holds (References.pool.Means p) (.empty kind) :=
    Holds.empty kind context config
  exact ⟨_, (hstart.run es).2.2⟩

namespace InPlace

section Histories

variable {P : Type} [Interner P]

/-- A history, each of its changes made in place. -/
def run (s : Group × P) : List Group.Event → Group.Outcome P
  | [] => ⟨[], s.1, s.2⟩
  | .change c :: es =>
    let next := step c s
    let rest := run next.2 es
    { rest with results := next.1 :: rest.results }
  | .intern x :: es => run (s.1, (x.intern s.2).2) es

theorem run_eq (g : Group) (p : P) (es : List Group.Event) : run (g, p) es = g.run p es := by
  induction es generalizing g p with
  | nil => rfl
  | cons e es ih =>
    cases e with
    | change c => simp only [run, Group.run, (step_eq g c p).1, ih]
    | intern x => exact ih g (x.intern p).2

end Histories

/-! ## Main theorem -/

/-- An operation that fails leaves the group and what the pool resolves. What
happens later is the same as without it, up to the values of references. -/
theorem change_error {g h : Group} (hg : g.Reachable) {p q : Pool} {c : Group.Change} {e : BandError}
    (hc : change c (g, p) = .error e (h, q)) :
    h.bands = g.bands ∧ h.calls = g.calls ∧ h.marks = g.marks ∧ g.step c p = (.error e, h, q) ∧
      (∀ (x : Operand) (i : Int), x.IsAt p i → x.IsAt q i) ∧
      ∀ es : List Group.Event,
        let failed := run (h, q) es
        let fresh := run (g, p) es
        failed.results = fresh.results ∧ failed.group.Alike fresh.group ∧
          (g.FilledFrom p → failed.pool.Fits → fresh.pool.Fits →
            failed.group.SameReferences fresh.group ∧
              failed.group.decode failed.pool = fresh.group.decode fresh.pool) := by
  obtain ⟨heq, hadds⟩ := step_eq g c p
  have hstep : g.step c p = (.error e, h, q) := heq.symm.trans (change_eq_error.1 hc)
  have hkept := Group.step_of_error (congrArg Prod.fst hstep)
  rw [hstep] at hadds hkept
  obtain rfl : h = g := congrArg (·.2.1) hkept
  refine ⟨rfl, rfl, rfl, hstep, fun x i hx => Pool.isAt_of_adds hadds hx, fun es => ?_⟩
  intro failed fresh
  have hfailed : failed = h.run q es := run_eq h q es
  have hfresh : fresh = h.run p es := run_eq h p es
  rw [hfailed, hfresh]
  -- both groups hold the ledger of the same changes, whatever their references mean
  obtain ⟨l, hl⟩ := hg.holds
  have hword (p : Pool) : h.Holds (References.word.Means p) l := hl
  obtain ⟨hresults, -, hholds⟩ := (hword q).run es
  obtain ⟨hresults', -, hholds'⟩ := (hword p).run es
  refine ⟨hresults.trans hresults'.symm, hholds.alike hholds', ?_⟩
  -- with the references of the pool itself, the two groups hold the same literals
  rintro ⟨l, hl⟩ hfits hfits'
  obtain ⟨-, -, hholds⟩ := (hl.mono hadds.means).run es
  obtain ⟨-, -, hholds'⟩ := hl.run es
  refine ⟨hholds.sameReferences_of_fits hholds' hfits hfits', ?_⟩
  rw [(hholds.mono fun x i hx => hx.2 hfits).decode, (hholds'.mono fun x i hx => hx.2 hfits').decode]

/-- A batch whose second annotation is too deep, and with it an entry of two
annotations: what was added before stays, and so do the literals of the batch. -/
theorem change_error_deep_batch :
    let config : Config := { maxNestingDepth := 1 }
    let built := (Group.empty .visible .method config).run Pool.empty
      [.change (.addMember [⟨"LA;", [("x", .int 1)]⟩])]
    let batch := Group.Change.addMember [⟨"LB;", [("x", .int 2)]⟩, ⟨"LC;", [("x", .array [.int 3])]⟩]
    let q := (built.group.step batch built.pool).2.2
    let later := [Group.Event.change .removeLatest, .change (.addMember [⟨"LD;", []⟩])]
    let failed := run (built.group, q) later
    let fresh := run (built.group, built.pool) later
    change batch (built.group, built.pool) = .error (.nestingTooDeep 1) (built.group, q) ∧
      built.group.Reachable ∧ built.group.FilledFrom built.pool ∧ failed.pool.Fits ∧ fresh.pool.Fits ∧
      built.pool.size .signature = 1 ∧ q.size .signature = 3 ∧ failed.results = fresh.results ∧
      failed.group.Alike fresh.group ∧ failed.group.bands.types = [3] ∧ fresh.group.bands.types = [1] ∧
      failed.group.decode failed.pool = fresh.group.decode fresh.pool := by
  intro config built batch q later failed fresh
  have hreachable : built.group.Reachable :=
    .step (.empty .visible .method config) (.addMember [⟨"LA;", [("x", .int 1)]⟩]) Pool.empty
  have hfilled : built.group.FilledFrom built.pool := Group.filledFrom_run .visible .method config Pool.empty _
  have hc : change batch (built.group, built.pool) = .error (.nestingTooDeep 1) (built.group, q) :=
    change_eq_error.2 ((step_eq _ _ _).1.trans (Group.step_of_error (by decide +kernel)))
  have hfailed : failed.pool.Fits := fun k => by cases k <;> decide +kernel
  have hfresh : fresh.pool.Fits := fun k => by cases k <;> decide +kernel
  obtain ⟨-, -, -, -, -, hlater⟩ := change_error hreachable hc
  obtain ⟨hresults, halike, hread⟩ := hlater later
  exact ⟨hc, hreachable, hfilled, hfailed, hfresh, by decide +kernel, by decide +kernel, hresults, halike,
    by decide +kernel, by decide +kernel, (hread hfilled hfailed hfresh).2⟩

end InPlace

end AnnotationBands
