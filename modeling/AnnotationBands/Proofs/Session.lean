import AnnotationBands.Proofs.PoolReferences
import AnnotationBands.Proofs.Simulation
/-!
# Groups that share a pool

A session is a family of groups that intern into one pool, and a run is a list
of calls, each on one of the groups, in any order. What happens to one group
depends only on the calls on it: its results, its counts and its entries are
those of the ledger that the same calls build up from nothing
(`Session.group_eq_ledger`). The pool matters only for reading the entries
back, which needs an index for every literal.
-/

namespace AnnotationBands

namespace Ledger

/-- Makes changes one after the other; the results and the last ledger. -/
def run (kind : Kind) (limit : Nat) (l : Ledger) : List Group.Change → List (Except BandError Unit) × Ledger
  | [] => ([], l)
  | c :: cs =>
    let next := l.step kind limit c
    let rest := run kind limit next.2 cs
    (next.1 :: rest.1, rest.2)

end Ledger

/-- Groups that intern into one pool. -/
structure Session (ι P : Type) where
  groups : ι → Group
  pool : P

namespace Session

variable {ι P : Type}

/-- New groups with the given settings. -/
def start (kind : ι → Kind) (context : ι → Context) (config : ι → Config) (pool : P) : Session ι P :=
  ⟨fun i => .empty (kind i) (context i) (config i), pool⟩

/-- What concerns one group. -/
def only [DecidableEq ι] {α : Type} (i : ι) (xs : List (ι × α)) : List α :=
  xs.filterMap fun x => if x.1 = i then some x.2 else none

variable [DecidableEq ι]

section Runs

variable [Interner P]

/-- Makes a change to one group. -/
def step (s : Session ι P) (i : ι) (c : Group.Change) : Except BandError Unit × Session ι P :=
  let next := (s.groups i).step c s.pool
  (next.1, ⟨Function.update s.groups i next.2.1, next.2.2⟩)

/-- Makes changes one after the other, each to one group; the results and the
last state. -/
def run (s : Session ι P) : List (ι × Group.Change) → List (ι × Except BandError Unit) × Session ι P
  | [] => ([], s)
  | (i, c) :: calls =>
    let next := s.step i c
    let rest := next.2.run calls
    ((i, next.1) :: rest.1, rest.2)

variable {R : References P} {s : Session ι P} {books : ι → Ledger}

/-- Each group holds its ledger. -/
def Holds (R : References P) (s : Session ι P) (books : ι → Ledger) : Prop :=
  ∀ i, (s.groups i).Holds (R.Means s.pool) (books i)

omit [DecidableEq ι] in
theorem start_holds (kind : ι → Kind) (context : ι → Context) (config : ι → Config) (pool : P) :
    (start kind context config pool).Holds R fun i => .empty (kind i) :=
  fun i => Group.Holds.empty (kind i) (context i) (config i)

theorem step_holds (h : s.Holds R books) (i : ι) (c : Group.Change) :
    let next := (books i).step (s.groups i).kind (s.groups i).config.maxNestingDepth c
    (s.step i c).1 = next.1 ∧ (∀ j, ((s.step i c).2.groups j).blank = (s.groups j).blank) ∧
      (s.step i c).2.Holds R (Function.update books i next.2) := by
  obtain ⟨hresult, hblank, hholds, hpool⟩ := (h i).step c
  refine ⟨hresult, fun j => ?_, fun j => ?_⟩
  · by_cases hj : j = i
    · subst hj
      simpa [step] using hblank
    · simp [step, hj]
  · by_cases hj : j = i
    · subst hj
      simpa [step] using hholds
    · simpa [step, hj] using (h j).mono hpool

/-- After any calls, each group holds what the calls on it make of its ledger,
and they gave what they give there. -/
theorem run_holds (h : s.Holds R books) (calls : List (ι × Group.Change)) (i : ι) :
    let rest := (books i).run (s.groups i).kind (s.groups i).config.maxNestingDepth (only i calls)
    only i (s.run calls).1 = rest.1 ∧ ((s.run calls).2.groups i).blank = (s.groups i).blank ∧
      ((s.run calls).2.groups i).Holds (R.Means (s.run calls).2.pool) rest.2 := by
  -- a call on another group leaves this one's ledger and adds to the pool
  induction calls generalizing s books with
  | nil => exact ⟨rfl, rfl, h i⟩
  | cons call calls ih =>
    obtain ⟨j, c⟩ := call
    obtain ⟨hresult, hblank, hholds⟩ := step_holds h j c
    obtain ⟨hresults, hblanks, hlast⟩ := ih hholds
    have hkind := Group.kind_eq_of_blank (hblank i)
    have hconfig := Group.config_eq_of_blank (hblank i)
    rw [hkind, hconfig] at hresults hlast
    by_cases hj : j = i
    · subst hj
      simp only [Function.update_self] at hresults hlast
      refine ⟨?_, hblanks.trans (hblank j), ?_⟩
      · simpa [only, run, Ledger.run, hresult] using hresults
      · simpa [only, run, Ledger.run] using hlast
    · rw [Function.update_of_ne (Ne.symm hj)] at hresults hlast
      refine ⟨?_, hblanks.trans (hblank i), ?_⟩
      · simpa [only, run, hj] using hresults
      · simpa [only, run, hj] using hlast

end Runs

/-- Whatever is done to other groups in between, a group that shares a pool
gives the results, has the counts and holds the entries of the ledger that its
own calls build up from nothing. -/
theorem group_eq_ledger (kind : ι → Kind) (context : ι → Context) (config : ι → Config) (pool : Pool)
    (calls : List (ι × Group.Change)) (i : ι) :
    let run := (start kind context config pool).run calls
    let group := run.2.groups i
    let own := (Ledger.empty (kind i)).run (kind i) (config i).maxNestingDepth (only i calls)
    only i run.1 = own.1 ∧ own.2.Suits (kind i) ∧ group.entryCount = own.2.entryCount ∧
      group.hasContent = own.2.hasContent ∧ group.calls = own.2.calls ∧
      (run.2.pool.Fits → group.decode run.2.pool = own.2.decode) := by
  intro run group own
  have hstart : (start kind context config pool).Holds References.pool fun i => .empty (kind i) :=
    start_holds kind context config pool
  obtain ⟨hresults, hblank, hholds⟩ := run_holds hstart calls i
  have hsuits : own.2.Suits (kind i) := by
    have hkind : group.kind = kind i := Group.kind_eq_of_blank hblank
    exact hkind ▸ hholds.suits
  refine ⟨hresults, hsuits, hholds.entryCount, hholds.hasContent, hholds.calls, fun hfits => ?_⟩
  exact (hholds.mono fun x j hx => hx.2 hfits).decode

/-- Two groups that take turns: an entry that counts two annotations cannot be
removed while there is one. -/
theorem group_eq_ledger_two_groups :
    let run := (start (fun i : Bool => if i then .visible else .annotationDefault) (fun _ => .method)
      (fun _ => .default) Pool.empty).run
        [(true, .openEntry), (false, .addDefault (.int 7)), (true, .extendEntry), (true, .addOne ⟨"LA;", []⟩),
          (false, .addDefault (.array [.int 8])), (true, .removeLatest), (true, .addDefault (.int 9))]
    run.2.pool.Fits ∧ only true run.1 = [.ok (), .ok (), .ok (), .error (.desync .annoCounts 2 1),
      .error (.wrongKind .visible .addDefault)] ∧
    (run.2.groups true).decode run.2.pool = .error (.desync .types 2 1) ∧
    (run.2.groups false).decode run.2.pool = .ok [.defaultValue (.int 7), .defaultValue (.array [.int 8])] := by
  intro run
  have hfits : run.2.pool.Fits := fun k => by cases k <;> decide
  have htrue := group_eq_ledger (fun i : Bool => if i then .visible else .annotationDefault) (fun _ => .method)
    (fun _ => .default) Pool.empty [(true, .openEntry), (false, .addDefault (.int 7)), (true, .extendEntry),
      (true, .addOne ⟨"LA;", []⟩), (false, .addDefault (.array [.int 8])), (true, .removeLatest),
      (true, .addDefault (.int 9))]
  exact ⟨hfits, (htrue true).1, (htrue true).2.2.2.2.2 hfits, (htrue false).2.2.2.2.2 hfits⟩

end Session

end AnnotationBands
