import AnnotationBands.Proofs.Session
/-!
# Histories of one group

What happens to a group and to the pool that it interns into: changes of the
group, and literals that others intern in between (`Group.Event`). Others only
add to the pool, so the results of a history and what the group holds at its
end are those of the changes alone (`Group.Holds.run`).
-/

namespace AnnotationBands.Group

inductive Event where
  | change (c : Change)
  /-- Something else interns a literal. -/
  | intern (x : Operand)

def Event.change? : Event → Option Change
  | change c => some c
  | intern _ => none

/-- The changes among events. -/
def changes (es : List Event) : List Change := es.filterMap Event.change?

/-- The results of the changes of a history, and what it ends with. -/
@[ext]
structure Outcome (P : Type) where
  results : List (Except BandError Unit)
  group : Group
  pool : P

variable {P : Type} [Interner P]

def run (g : Group) (p : P) : List Event → Outcome P
  | [] => ⟨[], g, p⟩
  | .change c :: es =>
    let next := g.step c p
    let rest := run next.2.1 next.2.2 es
    { rest with results := next.1 :: rest.results }
  | .intern x :: es => run g (x.intern p).2 es

theorem run_append (g : Group) (p : P) (es fs : List Event) : g.run p (es ++ fs) =
    let first := g.run p es
    let rest := first.group.run first.pool fs
    { rest with results := first.results ++ rest.results } := by
  induction es generalizing g p with
  | nil => rfl
  | cons e es ih =>
    cases e with
    | change c => simp only [List.cons_append, run, ih]
    | intern x => simp only [List.cons_append, run, ih]

variable {R : References P}

/-- Whatever others intern, the changes of a history do to the group what they
do to its ledger. -/
theorem Holds.run {g : Group} {p : P} {l : Ledger} (h : g.Holds (R.Means p) l) (es : List Event) :
    let rest := l.run g.kind g.config.maxNestingDepth (changes es)
    (g.run p es).results = rest.1 ∧ (g.run p es).group.blank = g.blank ∧
      (g.run p es).group.Holds (R.Means (g.run p es).pool) rest.2 := by
  induction es generalizing g p l with
  | nil => exact ⟨rfl, rfl, h⟩
  | cons e es ih =>
    cases e with
    | change c =>
      obtain ⟨hresult, hblank, hholds, -⟩ := h.step c
      obtain ⟨hresults, hblanks, hlast⟩ := ih hholds
      rw [kind_eq_of_blank hblank, config_eq_of_blank hblank] at hresults hlast
      refine ⟨?_, hblanks.trans hblank, hlast⟩
      simp only [Group.run, changes, List.filterMap_cons, Event.change?, Ledger.run, hresult]
      exact congrArg _ hresults
    | intern x => exact ih (h.mono fun y i hy => R.mono p x y i hy)

end AnnotationBands.Group
