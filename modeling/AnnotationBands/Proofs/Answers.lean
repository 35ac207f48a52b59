import AnnotationBands.Proofs.Histories
/-!
# What a group learns from its pool

A pool answers every literal with an index, and these answers are all that a
group learns from it. `Watched` keeps the answers of a pool, and `Tape` is a
pool that gives prepared answers whatever it is asked. Watching changes nothing,
and a tape of the answers that a pool gave leads to the same results and the
same group (`Group.run_replays`). So a history is the same with every pool that
gives the same answers (`Group.run_of_answers`).
-/

namespace AnnotationBands

/-- A pool, and the answers that it has given. -/
structure Watched (P : Type) where
  pool : P
  answers : List UInt32

/-- Answers to come. -/
structure Tape where
  answers : List UInt32

section Pools

variable {P : Type} [Interner P]

def Watched.record (w : Watched P) (answer : UInt32 × P) : UInt32 × Watched P :=
  (answer.1, ⟨answer.2, w.answers ++ [answer.1]⟩)

instance : Interner (Watched P) where
  internDescriptor d w := w.record (Interner.internDescriptor d w.pool)
  internUtf8 s w := w.record (Interner.internUtf8 s w.pool)
  internConstant c w := w.record (Interner.internConstant c w.pool)

/-- The next answer; an empty tape gives zeros. -/
def Tape.next (t : Tape) : UInt32 × Tape := (t.answers.headD 0, ⟨t.answers.tail⟩)

instance : Interner Tape := ⟨fun _ => Tape.next, fun _ => Tape.next, fun _ => Tape.next⟩

theorem Operand.intern_watched (x : Operand) (w : Watched P) : x.intern w = w.record (x.intern w.pool) := by
  cases x <;> rfl

theorem Operand.intern_tape (x : Operand) (t : Tape) : x.intern t = t.next := by
  cases x <;> rfl

end Pools

/-! ## Computations that only ask for indices -/

namespace Flatten

variable {P : Type} [Interner P] {α β : Type}

/-- Watching a pool during the computation changes nothing, and the answers on a
tape make the computation go as it does with the pool. -/
def Replays (P : Type) [Interner P] (x : ∀ (Q : Type) [Interner Q], Flatten Q α) : Prop :=
  ∀ p : P, ∃ answers : List UInt32, match x P p with
    | .ok a q => (∀ past, x (Watched P) ⟨p, past⟩ = .ok a ⟨q, past ++ answers⟩) ∧
        ∀ rest, x Tape ⟨answers ++ rest⟩ = .ok a ⟨rest⟩
    | .error e q => (∀ past, x (Watched P) ⟨p, past⟩ = .error e ⟨q, past ++ answers⟩) ∧
        ∀ rest, x Tape ⟨answers ++ rest⟩ = .error e ⟨rest⟩

section Steps

variable {x : ∀ (Q : Type) [Interner Q], Flatten Q α} {f : α → ∀ (Q : Type) [Interner Q], Flatten Q β}

theorem Replays.ok (h : Replays P x) {p q : P} {a : α} (hx : x P p = .ok a q) : ∃ answers : List UInt32,
    (∀ past, x (Watched P) ⟨p, past⟩ = .ok a ⟨q, past ++ answers⟩) ∧
      ∀ rest, x Tape ⟨answers ++ rest⟩ = .ok a ⟨rest⟩ := by
  have := h p
  rwa [hx] at this

theorem Replays.error (h : Replays P x) {p q : P} {e : BandError} (hx : x P p = .error e q) :
    ∃ answers : List UInt32, (∀ past, x (Watched P) ⟨p, past⟩ = .error e ⟨q, past ++ answers⟩) ∧
      ∀ rest, x Tape ⟨answers ++ rest⟩ = .error e ⟨rest⟩ := by
  have := h p
  rwa [hx] at this

theorem Replays.pure (a : α) : Replays P fun _ _ => Pure.pure a := by
  intro p
  refine ⟨[], fun past => ?_, fun rest => rfl⟩
  rw [List.append_nil]
  rfl

theorem Replays.throw (e : BandError) : Replays (α := α) P fun _ _ => MonadExcept.throw e := by
  intro p
  refine ⟨[], fun past => ?_, fun rest => rfl⟩
  rw [List.append_nil]
  rfl

theorem Replays.orThrow (r : Except BandError α) : Replays P fun _ _ => BandError.orThrow r := by
  cases r with
  | ok a => exact .pure a
  | error e => exact .throw e

theorem Replays.bind (hx : Replays P x) (hf : ∀ a, Replays P (f a)) :
    Replays P fun Q _ => x Q >>= fun a => f a Q := by
  intro p
  cases h : x P p with
  | error e q =>
    obtain ⟨answers, hwatched, htape⟩ := hx.error h
    simp only [bind_of_error h]
    exact ⟨answers, fun past => bind_of_error (hwatched past), fun rest => bind_of_error (htape rest)⟩
  | ok a q =>
    obtain ⟨first, hwatched, htape⟩ := hx.ok h
    simp only [bind_of_ok h]
    -- the answers of both parts, one behind the other
    have hpast (past more : List UInt32) : past ++ (first ++ more) = past ++ first ++ more :=
      (List.append_assoc _ _ _).symm
    cases h' : f a P q with
    | ok b r =>
      obtain ⟨more, hwatched', htape'⟩ := (hf a).ok h'
      refine ⟨first ++ more, fun past => ?_, fun rest => ?_⟩
      · rw [bind_of_ok (hwatched past), hwatched', hpast]
      · rw [List.append_assoc, bind_of_ok (htape _), htape']
    | error e r =>
      obtain ⟨more, hwatched', htape'⟩ := (hf a).error h'
      refine ⟨first ++ more, fun past => ?_, fun rest => ?_⟩
      · rw [bind_of_ok (hwatched past), hwatched', hpast]
      · rw [List.append_assoc, bind_of_ok (htape _), htape']

theorem checkDepth_replays (limit depth : Nat) : Replays P fun _ _ => checkDepth limit depth := by
  unfold checkDepth
  split
  · exact .throw _
  · exact .pure ()

theorem refer_replays (b : Band) (x : Operand) : Replays P fun _ _ => refer b x := by
  intro p
  refine ⟨[(x.intern p).1], fun past => ?_, fun rest => ?_⟩
  · simp only [refer, x.intern_watched]
    rfl
  · simp only [refer, x.intern_tape]
    rfl

end Steps

theorem referAll_replays (xs : List (CaseBand × Operand)) : Replays P fun _ _ => referAll xs := by
  induction xs with
  | nil => exact .pure _
  | cons x xs ih => exact (refer_replays _ _).bind fun s => ih.bind fun t => .pure _

theorem items_replays {limit depth : Nat} {vs : List ElementValue}
    (h : ∀ v ∈ vs, Replays P fun _ _ => value limit depth v) : Replays P fun _ _ => items limit depth vs := by
  induction vs with
  | nil => exact .pure _
  | cons v vs ih =>
    obtain ⟨hv, hvs⟩ := List.forall_mem_cons.1 h
    exact hv.bind fun s => (ih hvs).bind fun t => .pure _

theorem pairs_replays {limit depth : Nat} {nameBand : Band} {ps : List (String × ElementValue)}
    (h : ∀ p ∈ ps, Replays P fun _ _ => value limit depth p.2) :
    Replays P fun _ _ => pairs limit nameBand depth ps := by
  induction ps with
  | nil => exact .pure _
  | cons p ps ih =>
    obtain ⟨hp, hps⟩ := List.forall_mem_cons.1 h
    exact (refer_replays _ _).bind fun n => hp.bind fun s => (ih hps).bind fun t => .pure _

theorem value_replays (limit depth : Nat) (v : ElementValue) : Replays P fun _ _ => value limit depth v := by
  induction v using ElementValue.induct generalizing depth with
  | literal v hv =>
    simp only [value_literal limit hv]
    exact (checkDepth_replays _ _).bind fun _ => (referAll_replays _).bind fun s => .pure _
  | array items ih =>
    simp only [value]
    exact (checkDepth_replays _ _).bind fun _ => (items_replays fun v hv => ih v hv _).bind fun s => .pure _
  | nested descriptor pairs ih =>
    simp only [value]
    exact (checkDepth_replays _ _).bind fun _ => (refer_replays _ _).bind fun t =>
      (pairs_replays fun p hp => ih p hp _).bind fun s => .pure _

theorem root_replays (limit : Nat) (a : Annotation) : Replays P fun _ _ => root limit a := by
  unfold root
  exact (refer_replays _ _).bind fun t => (pairs_replays fun p _ => value_replays _ _ p.2).bind fun s => .pure _

theorem roots_replays (limit : Nat) (as : List Annotation) : Replays P fun _ _ => roots limit as := by
  induction as with
  | nil => exact .pure _
  | cons a as ih => exact (root_replays limit a).bind fun s => ih.bind fun ss => .pure _

end Flatten

/-! ## Histories -/

namespace Group

open Flatten (Replays)

variable {P : Type} [Interner P]

theorem require_replays (g : Group) (allowed : Bool) (operation : Operation) :
    Replays P fun _ _ => g.require allowed operation := by
  unfold require
  split
  · exact .pure ()
  · exact .throw _

theorem change_replays (g : Group) (c : Change) : Replays P fun _ _ => g.change c := by
  cases c with
  | openEntry => exact (g.require_replays _ _).bind fun _ => .pure _
  | extendEntry =>
    refine (g.require_replays _ _).bind fun _ => ?_
    cases g.bands.annoCounts.getLast? with
    | none => exact .throw _
    | some n => exact .pure _
  | addOne a => exact (g.require_replays _ _).bind fun _ => (Flatten.root_replays _ a).bind fun s => .pure _
  | addMember as =>
    refine (g.require_replays _ _).bind fun _ => ?_
    cases as.isEmpty with
    | true => exact .pure g
    | false => exact (Flatten.roots_replays _ as).bind fun ss => .pure _
  | addParameters ps =>
    refine (g.require_replays _ _).bind fun _ => ?_
    by_cases h : maxParameters < ps.length
    · simp only [if_pos h]
      exact .throw _
    · simp only [if_neg h]
      exact (Flatten.roots_replays _ _).bind fun ss => .pure _
  | addDefault v => exact (g.require_replays _ _).bind fun _ => (Flatten.value_replays _ _ v).bind fun s => .pure _
  | removeLatest => exact .orThrow _

theorem step_replays (g : Group) (c : Change) (p : P) : ∃ answers : List UInt32,
    (∀ past, g.step c (⟨p, past⟩ : Watched P) =
      ((g.step c p).1, (g.step c p).2.1, ⟨(g.step c p).2.2, past ++ answers⟩)) ∧
    ∀ rest, g.step c (⟨answers ++ rest⟩ : Tape) = ((g.step c p).1, (g.step c p).2.1, ⟨rest⟩) := by
  cases h : g.change c p with
  | ok g' q =>
    obtain ⟨answers, hwatched, htape⟩ := (g.change_replays c).ok h
    simp only [step, h]
    exact ⟨answers, fun past => by rw [hwatched], fun rest => by rw [htape]⟩
  | error e q =>
    obtain ⟨answers, hwatched, htape⟩ := (g.change_replays c).error h
    simp only [step, h]
    exact ⟨answers, fun past => by rw [hwatched], fun rest => by rw [htape]⟩

/-- Watching the pool changes nothing in a history, and the history goes the
same way with a tape of the pool's answers. -/
theorem run_replays (g : Group) (p : P) (cs : List Change) : ∃ answers : List UInt32,
    (∀ past, g.run (⟨p, past⟩ : Watched P) (cs.map .change) =
      ⟨(g.run p (cs.map .change)).results, (g.run p (cs.map .change)).group,
        ⟨(g.run p (cs.map .change)).pool, past ++ answers⟩⟩) ∧
    ∀ rest, g.run (⟨answers ++ rest⟩ : Tape) (cs.map .change) =
      ⟨(g.run p (cs.map .change)).results, (g.run p (cs.map .change)).group, ⟨rest⟩⟩ := by
  induction cs generalizing g p with
  | nil => exact ⟨[], fun past => by simp [run], fun rest => rfl⟩
  | cons c cs ih =>
    obtain ⟨first, hwatched, htape⟩ := g.step_replays c p
    obtain ⟨more, hwatched', htape'⟩ := ih (g.step c p).2.1 (g.step c p).2.2
    refine ⟨first ++ more, fun past => ?_, fun rest => ?_⟩
    · simp only [List.map_cons, run, hwatched, hwatched', List.append_assoc]
    · simp only [List.map_cons, run, List.append_assoc, htape, htape']

/-- The answers of the pool to a group during changes, in order. -/
def answers (g : Group) (p : P) (cs : List Change) : List UInt32 :=
  (g.run (⟨p, []⟩ : Watched P) (cs.map .change)).pool.answers

theorem answers_spec (g : Group) (p : P) (cs : List Change) (rest : List UInt32) :
    g.run (⟨g.answers p cs ++ rest⟩ : Tape) (cs.map .change) =
      ⟨(g.run p (cs.map .change)).results, (g.run p (cs.map .change)).group, ⟨rest⟩⟩ := by
  obtain ⟨answers, hwatched, htape⟩ := g.run_replays p cs
  have : g.answers p cs = answers := by
    rw [Group.answers, hwatched]
    rfl
  rw [this, htape]

/-- Later changes only get further answers. -/
theorem answers_prefix (g : Group) (p : P) (cs ds : List Change) : g.answers p cs <+: g.answers p (cs ++ ds) := by
  obtain ⟨first, hfirst⟩ : ∃ first, first = g.run (⟨p, []⟩ : Watched P) (cs.map .change) := ⟨_, rfl⟩
  obtain ⟨more, hwatched, -⟩ := first.group.run_replays first.pool.pool ds
  refine ⟨more, ?_⟩
  rw [answers, answers, List.map_append, run_append, ← hfirst]
  exact (congrArg (fun o => o.pool.answers) (hwatched first.pool.answers)).symm

/-- Two pools that give the same answers, as far as each goes, lead to the same
results and the same group. -/
theorem run_of_answers {Q : Type} [Interner Q] {g : Group} {p : P} {q : Q} {cs : List Change} {rest rest' : List UInt32}
    (h : g.answers p cs ++ rest = g.answers q cs ++ rest') :
    (g.run p (cs.map .change)).results = (g.run q (cs.map .change)).results ∧
      (g.run p (cs.map .change)).group = (g.run q (cs.map .change)).group := by
  have hp := g.answers_spec p cs rest
  rw [h, g.answers_spec q cs rest'] at hp
  exact ⟨(congrArg Outcome.results hp).symm, (congrArg Outcome.group hp).symm⟩

end Group

end AnnotationBands
