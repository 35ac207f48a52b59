import AnnotationBands.Proofs.SafeWalk
/-!
# Reading and passing over are the same walk

Undoing trusts the walk that passes over trees, and decoding the one that reads
them. Both take the same values from the same bands in the same order, whatever
the bands hold, and reading also looks up references right after taking them.
So wherever they start, they end alike (`Walk.SameEnd`): with the same success
or the same error at the same cursor, unless reading stops at a reference that
the pool lacks. This is closed under the steps that walks are made of
(`Walk.Tracks`). Main statement: `Walk.read_same_as_skip`.
-/

namespace AnnotationBands

/-- The errors of a walk over bands that looks up nothing. -/
def BandError.OfBands : BandError → Prop
  | .nestingTooDeep _ | .desync _ _ _ | .valueOutOfRange _ _ | .unknownTag _ => True
  | _ => False

namespace Walk

/-- How a walk that reads and one that passes over the same values may end. A
property holds of what is read. -/
inductive SameEnd {α : Type} (R : α → Prop) :
    EStateM.Result BandError Cursor α → EStateM.Result BandError Cursor Unit → Prop
  /-- Reading stops at a reference that the pool lacks. -/
  | unresolved {e c r} (he : e.Unresolved) : SameEnd R (.error e c) r
  | ok {x c} (hx : R x) : SameEnd R (.ok x c) (.ok () c)
  | error {e c} (he : e.OfBands) : SameEnd R (.error e c) (.error e c)

/-- From every cursor the two walks end alike. -/
def Tracks {α : Type} (read : Walk α) (skip : Walk Unit) (R : α → Prop) : Prop := ∀ c, SameEnd R (read c) (skip c)

/-- The walk looks up nothing. -/
def OnlyBands {α : Type} (walk : Walk α) : Prop := ∀ c e c', walk c = .error e c' → e.OfBands

/-! ## Steps -/

section Steps

theorem next_onlyBands (b : Band) : OnlyBands (next b) := by
  intro c e c' h
  unfold next at h
  split at h
  · cases h
  · obtain ⟨rfl, -⟩ := EStateM.Result.error.inj h
    trivial

theorem OnlyBands.bind {α β : Type} {x : Walk α} {f : α → Walk β} (hx : OnlyBands x) (hf : ∀ y, OnlyBands (f y)) :
    OnlyBands (x >>= f) := by
  intro c e c' h
  rcases bind_eq_error.1 h with hc | ⟨y, d, -, hd⟩
  · exact hx c e c' hc
  · exact hf y d e c' hd

theorem nextCount_onlyBands (b : Band) : OnlyBands (nextCount b) := by
  refine (next_onlyBands b).bind fun v c e c' h => ?_
  cases v with
  | ofNat n => cases h
  | negSucc n =>
    obtain ⟨rfl, -⟩ := EStateM.Result.error.inj h
    trivial

theorem nextTag_onlyBands : OnlyBands nextTag := by
  refine (next_onlyBands .tags).bind fun v c e c' h => ?_
  cases hv : Tag.ofCode? v with
  | some tag =>
    rw [hv] at h
    cases h
  | none =>
    rw [hv] at h
    obtain ⟨rfl, -⟩ := EStateM.Result.error.inj h
    trivial

theorem checkDepth_onlyBands (depth : Nat) : OnlyBands (checkDepth depth) := by
  intro c e c' h
  unfold checkDepth at h
  split at h
  · split at h
    · obtain ⟨rfl, -⟩ := EStateM.Result.error.inj h
      trivial
    · cases h
  · cases h

theorem addCalls_onlyBands (n : Nat) : OnlyBands (addCalls n) := by
  intro c e c' h
  cases h

variable {α β : Type} {R : α → Prop} {Q : β → Prop}

/-- A step that both walks make. -/
theorem Tracks.step {w : Walk α} (hw : OnlyBands w) {f : α → Walk β} {g : α → Walk Unit}
    (hf : ∀ y, Tracks (f y) (g y) Q) : Tracks (w >>= f) (w >>= g) Q := by
  intro c
  cases h : w c with
  | error e c' =>
    rw [bind_of_error h, bind_of_error h]
    exact .error (hw c e c' h)
  | ok y c' =>
    rw [bind_of_ok h, bind_of_ok h]
    exact hf y c'

/-- A reference that one walk looks up and the other does not. -/
theorem Tracks.reference {b : Band} {lookup : Int → Except BandError α}
    (hlookup : ∀ i e, lookup i = .error e → e.Unresolved) {f : α → Walk β} {g : Walk Unit}
    (hf : ∀ i x, lookup i = .ok x → Tracks (f x) g Q) :
    Tracks ((do
      let i ← next b
      BandError.orThrow (lookup i)) >>= f) (next b >>= fun _ => g) Q := by
  rw [bind_assoc]
  refine .step (next_onlyBands b) fun i => ?_
  cases hi : lookup i with
  | error e => exact fun c => .unresolved (hlookup i e hi)
  | ok x => exact hf i x hi

/-- What comes behind a pair of walks that end alike. -/
theorem Tracks.bind {x : Walk α} {u : Walk Unit} (hx : Tracks x u R) {f : α → Walk β} {g : Walk Unit}
    (hf : ∀ y, R y → Tracks (f y) g Q) : Tracks (x >>= f) (u >>= fun _ => g) Q := by
  intro c
  have h := hx c
  generalize hread : x c = r at h
  generalize hskip : u c = s at h
  cases h with
  | unresolved he =>
    rw [bind_of_error hread]
    exact .unresolved he
  | ok hy =>
    rw [bind_of_ok hread, bind_of_ok hskip]
    exact hf _ hy _
  | error he =>
    rw [bind_of_error hread, bind_of_error hskip]
    exact .error he

theorem Tracks.pure {x : α} (hx : R x) : Tracks (pure x) (pure ()) R := fun _ => .ok hx

/-- A last step that forms the result. -/
theorem Tracks.finish {x : Walk α} {u : Walk Unit} (hx : Tracks x u R) {f : α → Walk β}
    (hf : ∀ y, R y → ∃ z, f y = Pure.pure z ∧ Q z) : Tracks (x >>= f) u Q := by
  have h : Tracks (x >>= f) (u >>= fun _ => Pure.pure ()) Q := by
    apply hx.bind
    intro y hy
    obtain ⟨z, hz, hQ⟩ := hf y hy
    rw [hz]
    exact .pure hQ
  rwa [bind_pure_unit] at h

theorem failPastEnd_tracks (b : Band) : Tracks (failPastEnd b) (failPastEnd b) R := fun _ => .error trivial

theorem collect_tracks {x : Walk α} {u : Walk Unit} (h : Tracks x u fun _ => True) (n : Nat) :
    Tracks (collect n x) (times n u) fun _ => True := by
  induction n with
  | zero => exact .pure trivial
  | succ n ih => exact h.bind fun y _ => ih.finish fun ys _ => ⟨y :: ys, rfl, trivial⟩

end Steps

/-! ## Values and annotations -/

variable {pool : Pool}

theorem operands_tracks (cases : List CaseBand) :
    Tracks (forEach (readOperand pool) cases) (skipEach (cases.map CaseBand.band)) fun ops =>
      ops.map Operand.pool = cases.map CaseBand.pool := by
  induction cases with
  | nil => exact .pure rfl
  | cons case cases ih =>
    refine .reference (fun i e he => Pool.unresolved_of_resolve he) fun i op hop => ih.finish fun ops hops => ?_
    refine ⟨op :: ops, rfl, ?_⟩
    rw [List.map_cons, List.map_cons, Pool.pool_of_resolve hop, hops]

/-- The operands of a literal are as many and of such kinds as its tag needs. -/
theorem literal_tracks {tag : Tag} (htag : tag.dispatch = .literal tag.cases) :
    Tracks (do
      let operands ← forEach (readOperand pool) tag.cases
      BandError.orThrow (ElementValue.ofOperands tag operands)) (skipEach (tag.cases.map CaseBand.band)) fun _ =>
        True := by
  refine (operands_tracks tag.cases).finish fun ops hops => ?_
  obtain ⟨v, hv⟩ := ElementValue.ofOperands?_of_pool htag hops
  refine ⟨v, ?_, trivial⟩
  rw [ElementValue.ofOperands_eq_ok.2 hv]
  rfl

/-- A name and its value. -/
theorem pair_tracks (nameBand : Band) {x : Walk ElementValue} {u : Walk Unit} (h : Tracks x u fun _ => True) :
    Tracks (do
      let name ← readUtf8 pool nameBand
      let value ← x
      return (name, value)) (do
      let _ ← next nameBand
      u) fun _ => True := by
  refine .reference (fun i e he => Pool.unresolved_of_table he) fun i name _ => ?_
  exact h.finish fun value _ => ⟨(name, value), rfl, trivial⟩

/-- One case for each way that a tag is dispatched, by induction on the number
of tags ahead. -/
theorem readValueWithin_tracks (tagsAhead depth : Nat) :
    Tracks (readValueWithin pool tagsAhead depth) (skipValueWithin tagsAhead depth) fun _ => True := by
  induction tagsAhead generalizing depth with
  | zero => exact .step (checkDepth_onlyBands depth) fun _ => failPastEnd_tracks .tags
  | succ tagsAhead ih =>
    refine .step (checkDepth_onlyBands depth) fun _ => .step nextTag_onlyBands fun tag => ?_
    cases htag : tag.dispatch with
    | literal cases =>
      obtain rfl : tag.cases = cases := by rw [Tag.cases, htag]
      exact literal_tracks htag
    | array =>
      refine .step (nextCount_onlyBands .arrayCounts) fun length => .step (addCalls_onlyBands length) fun _ => ?_
      exact (collect_tracks (ih (depth + 1)) length).finish fun items _ => ⟨.array items, rfl, trivial⟩
    | nested =>
      refine .reference (fun i e he => Pool.unresolved_of_table he) fun i descriptor _ => ?_
      refine .step (nextCount_onlyBands .nestPairCounts) fun count => .step (addCalls_onlyBands count) fun _ => ?_
      exact (collect_tracks (pair_tracks .nestNames (ih (depth + 1))) count).finish fun pairs _ =>
        ⟨.nested descriptor pairs, rfl, trivial⟩

theorem readValue_tracks : Tracks (readValue pool) skipValue fun _ => True :=
  fun c => readValueWithin_tracks (c.remaining .tags) 1 c

theorem readRoot_tracks : Tracks (readRoot pool) skipRoot fun _ => True := by
  refine .reference (fun i e he => Pool.unresolved_of_table he) fun i descriptor _ => ?_
  refine .step (nextCount_onlyBands .pairCounts) fun count => ?_
  exact (collect_tracks (pair_tracks .names readValue_tracks) count).finish fun pairs _ =>
    ⟨⟨descriptor, pairs⟩, rfl, trivial⟩

/-! ## Both walks from one cursor -/

/-- What a walk that reads and one that passes over the same values have to do
with each other from one cursor on. Equal ends have equal positions in all bands
and equal numbers of calls. -/
structure SameFrom {α : Type} (read : Walk α) (skip : Walk Unit) (c : Cursor) : Prop where
  ends : (∀ k i c', read c ≠ .error (.unresolvedReference k i) c') →
    (∃ x c', read c = .ok x c' ∧ skip c = .ok () c') ∨ ∃ e c', read c = .error e c' ∧ skip c = .error e c'
  refused : ∀ e c', skip c = .error e c' →
    ∃ e' d, read c = .error e' d ∧ (e' = e ∨ ∃ k i, e' = .unresolvedReference k i)
  arity : ∀ tag expected found c', read c ≠ .error (.arityMismatch tag expected found) c'

theorem Tracks.sameFrom {α : Type} {R : α → Prop} {read : Walk α} {skip : Walk Unit} (h : Tracks read skip R)
    (c : Cursor) : SameFrom read skip c := by
  have hc := h c
  generalize hread : read c = r at hc
  generalize hskip : skip c = s at hc
  cases hc with
  | unresolved he =>
    obtain ⟨k, i, rfl⟩ := he
    constructor
    case ends => exact fun hnone => absurd hread (hnone k i _)
    case refused => exact fun e c' _ => ⟨_, _, hread, .inr ⟨k, i, rfl⟩⟩
    case arity => simp [hread]
  | ok hx =>
    constructor
    case ends => exact fun _ => .inl ⟨_, _, hread, hskip⟩
    case refused => simp [hskip]
    case arity => simp [hread]
  | error he =>
    constructor
    case ends => exact fun _ => .inr ⟨_, _, hread, hskip⟩
    case refused =>
      intro e c' hfail
      obtain ⟨rfl, rfl⟩ := EStateM.Result.error.inj (hskip.symm.trans hfail)
      exact ⟨_, _, hread, .inl rfl⟩
    case arity =>
      rintro tag expected found c' harity
      obtain ⟨rfl, -⟩ := EStateM.Result.error.inj (hread.symm.trans harity)
      exact he

/-- Whatever the bands hold and wherever the cursor stands, and whatever its
limit on depth and its number of calls, reading a value or an annotation is the
same walk as passing over it. -/
theorem read_same_as_skip (pool : Pool) (c : Cursor) :
    SameFrom (readValue pool) skipValue c ∧ SameFrom (readRoot pool) skipRoot c :=
  ⟨readValue_tracks.sameFrom c, readRoot_tracks.sameFrom c⟩

/-- An array that lacks its second element and a pool that lacks the constant of
its first one: reading does not get as far as passing over. -/
example :
    let bands : Bands := { Bands.empty with tags := [Tag.array.code, Tag.int.code], arrayCounts := [2], ints := [0] }
    result (readValue Pool.empty) (Cursor.start bands none) = .error (.unresolvedReference .int 0) ∧
      result skipValue (Cursor.start bands none) = .error (.desync .tags 3 2) := by
  intro bands
  exact ⟨by cbv, by cbv⟩

end Walk

end AnnotationBands
