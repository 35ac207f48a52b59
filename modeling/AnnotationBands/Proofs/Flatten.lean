import AnnotationBands.Proofs.Flat
import AnnotationBands.Proofs.Steps
/-!
# What flattening yields

`References` says what the indices that a pool hands out mean, and that
interning only adds to it. With it, one statement describes a step of
flattening (`Yields`): the pool is extended, and either the tree fits the depth
limit and the result is one of its segments, or it does not and the error says
so. Flattening a value, an annotation or a list of annotations is described
this way (`value_yields`, `root_yields`, `roots_yields`).
-/

namespace AnnotationBands

/-- What the indices that a pool hands out mean: with the pool `p`, the index
`i` refers to the literal `x`. -/
structure References (P : Type) [Interner P] where
  Means : P → Operand → Int → Prop
  intern : ∀ (p : P) (x : Operand), Means (x.intern p).2 x (x.intern p).1.toNat
  mono : ∀ (p : P) (x y : Operand) (i : Int), Means p y i → Means (x.intern p).2 y i

/-- The index is a word of 32 bits. -/
def Operand.IsWord (_ : Operand) (i : Int) : Prop := 0 ≤ i ∧ i < 2 ^ 32

namespace References

variable {P : Type} [Interner P]

/-- What a reference means with one pool, it means with another. -/
def Extends (R : References P) (p q : P) : Prop := ∀ x i, R.Means p x i → R.Means q x i

variable {R : References P}

theorem Extends.refl (p : P) : R.Extends p p := fun _ _ h => h

theorem Extends.trans {p q r : P} (h : R.Extends p q) (h' : R.Extends q r) : R.Extends p r :=
  fun x i hx => h' x i (h x i hx)

/-- Whatever the pool, an index is a word of 32 bits. -/
def word : References P where
  Means _ := Operand.IsWord
  intern p x := ⟨Int.natCast_nonneg _, by have := (x.intern p).1.toNat_lt; omega⟩
  mono _ _ _ _ h := h

end References

namespace Flatten

variable {P : Type} [Interner P] (R : References P) (limit : Nat)

/-- A step of flattening that succeeds exactly when `fits` holds, with a result
that `Q` describes in terms of what references mean. It only adds to that
meaning, and only the depth limit makes it fail. -/
def Yields {α : Type} (fits : Prop) (Q : (Operand → Int → Prop) → α → Prop) (x : Flatten P α) : Prop :=
  ∀ p, match x p with
    | .ok a q => R.Extends p q ∧ fits ∧ Q (R.Means q) a
    | .error e q => R.Extends p q ∧ e = .nestingTooDeep limit ∧ ¬ fits

/-- A description of results that holds as long as references keep their
meaning. -/
def Persists {α : Type} (Q : (Operand → Int → Prop) → α → Prop) : Prop :=
  ∀ {M M' : Operand → Int → Prop}, (∀ x i, M x i → M' x i) → ∀ a, Q M a → Q M' a

section Steps

variable {R limit} {α β : Type} {fits fits' : Prop} {Q Q' : (Operand → Int → Prop) → α → Prop} {x : Flatten P α}

theorem Yields.ok (h : Yields R limit fits Q x) {p q : P} {a : α} (hx : x p = .ok a q) :
    R.Extends p q ∧ fits ∧ Q (R.Means q) a := by
  have := h p
  rwa [hx] at this

theorem Yields.error (h : Yields R limit fits Q x) {p q : P} {e : BandError} (hx : x p = .error e q) :
    R.Extends p q ∧ e = .nestingTooDeep limit ∧ ¬ fits := by
  have := h p
  rwa [hx] at this

theorem Yields.imp (h : Yields R limit fits Q x) (hf : fits ↔ fits') (hQ : ∀ M a, Q M a → Q' M a) :
    Yields R limit fits' Q' x := by
  intro p
  cases hx : x p with
  | ok a q => exact ⟨(h.ok hx).1, hf.1 (h.ok hx).2.1, hQ _ _ (h.ok hx).2.2⟩
  | error e q => exact ⟨(h.error hx).1, (h.error hx).2.1, fun hfits => (h.error hx).2.2 (hf.2 hfits)⟩

theorem Yields.pure (a : α) : Yields (P := P) R limit True (fun _ b => b = a) (pure a) :=
  fun _ => ⟨.refl _, trivial, rfl⟩

theorem Yields.bind {f : α → Flatten P β} {Q' : α → (Operand → Int → Prop) → β → Prop}
    (hx : Yields R limit fits Q x) (hQ : Persists Q) (hf : ∀ a, Yields R limit fits' (Q' a) (f a)) :
    Yields R limit (fits ∧ fits') (fun M b => ∃ a, Q M a ∧ Q' a M b) (x >>= f) := by
  intro p
  cases h : x p with
  | error e q =>
    rw [bind_of_error h]
    exact ⟨(hx.error h).1, (hx.error h).2.1, fun hfits => (hx.error h).2.2 hfits.1⟩
  | ok a q =>
    obtain ⟨hq, hfits, ha⟩ := hx.ok h
    rw [bind_of_ok h]
    cases h' : f a q with
    | error e r =>
      obtain ⟨hr, he, hn⟩ := (hf a).error h'
      exact ⟨hq.trans hr, he, fun hfits => hn hfits.2⟩
    | ok b r =>
      obtain ⟨hr, hfits', hb⟩ := (hf a).ok h'
      exact ⟨hq.trans hr, ⟨hfits, hfits'⟩, a, hQ hr a ha, hb⟩

theorem checkDepth_yields (depth : Nat) :
    Yields (P := P) R limit (depth ≤ limit) (fun _ _ => True) (checkDepth limit depth) := by
  intro p
  by_cases h : limit < depth
  · simp only [checkDepth, if_pos h]
    exact ⟨.refl _, rfl, by omega⟩
  · simp only [checkDepth, if_neg h]
    exact ⟨.refl _, by omega, trivial⟩

theorem refer_yields (b : Band) (x : Operand) :
    Yields (P := P) R limit True (fun M s => ∃ i, M x i ∧ s = Segment.single b i) (refer b x) :=
  fun p => ⟨fun y i h => R.mono p x y i h, trivial, _, R.intern p x, rfl⟩

end Steps

theorem persists_true {α : Type} : Persists (α := α) fun _ _ => True := fun _ _ _ => trivial

theorem persists_refer (b : Band) (x : Operand) : Persists fun M s => ∃ i, M x i ∧ s = Segment.single b i := by
  rintro M M' hM _ ⟨i, hi, rfl⟩
  exact ⟨i, hM _ _ hi, rfl⟩

theorem persists_value (v : ElementValue) : Persists (Flat.Value · v) := fun hM _ h => h.mono hM

theorem persists_pairs (nameBand : Band) (ps : List (String × ElementValue)) : Persists (Flat.Pairs · nameBand ps) :=
  fun hM _ h => h.mono hM

theorem persists_root (a : Annotation) : Persists (Flat.Root · a) := fun hM _ h => h.mono hM

theorem referAll_yields (xs : List (CaseBand × Operand)) :
    Yields (P := P) R limit True (Flat.Operands · xs) (referAll xs) := by
  induction xs with
  | nil => exact Yields.pure Segment.empty
  | cons x xs ih =>
    refine ((refer_yields x.1.band x.2).bind (persists_refer _ _) fun s =>
      ih.bind (fun hM _ h => h.mono hM) fun t => Yields.pure (s ++ t)).imp (by simp) ?_
    rintro M _ ⟨_, ⟨i, hi, rfl⟩, t, ht, rfl⟩
    exact ⟨i, t, hi, ht, rfl⟩

/-- Values one after the other, each of which yields its segment. -/
theorem items_yields_of {vs : List ElementValue} (depth : Nat)
    (h : ∀ v ∈ vs, Yields (P := P) R limit (depth + v.depth ≤ limit + 1) (Flat.Value · v) (value limit depth v)) :
    Yields (P := P) R limit (∀ v ∈ vs, depth + v.depth ≤ limit + 1) (Flat.Items · vs) (items limit depth vs) := by
  induction vs with
  | nil => exact (Yields.pure Segment.empty).imp (by simp) fun _ _ h => h
  | cons v vs ih =>
    obtain ⟨hv, hvs⟩ := List.forall_mem_cons.1 h
    refine (hv.bind (persists_value v) fun s => (ih hvs).bind (fun hM _ h => h.mono hM) fun t =>
      Yields.pure (s ++ t)).imp (by simp) ?_
    rintro M _ ⟨s, hs, t, ht, rfl⟩
    exact ⟨s, t, hs, ht, rfl⟩

/-- Named values one after the other, each of which yields its segment. -/
theorem pairs_yields_of {ps : List (String × ElementValue)} (nameBand : Band) (depth : Nat)
    (h : ∀ q ∈ ps, Yields (P := P) R limit (depth + q.2.depth ≤ limit + 1) (Flat.Value · q.2) (value limit depth q.2)) :
    Yields (P := P) R limit (∀ q ∈ ps, depth + q.2.depth ≤ limit + 1) (Flat.Pairs · nameBand ps)
      (pairs limit nameBand depth ps) := by
  induction ps with
  | nil => exact (Yields.pure Segment.empty).imp (by simp) fun _ _ h => h
  | cons q ps ih =>
    obtain ⟨hq, hps⟩ := List.forall_mem_cons.1 h
    refine ((refer_yields nameBand (.utf8 q.1)).bind (persists_refer _ _) fun n =>
      hq.bind (persists_value q.2) fun s => (ih hps).bind (persists_pairs nameBand ps) fun t =>
        Yields.pure (n ++ s ++ t)).imp (by simp) ?_
    rintro M _ ⟨_, ⟨i, hi, rfl⟩, s, hs, t, ht, rfl⟩
    exact ⟨i, s, t, hi, hs, ht, rfl⟩

theorem value_literal {v : ElementValue} (h : v.tag.dispatch = .literal v.tag.cases) (depth : Nat) :
    value (P := P) limit depth v = do
      checkDepth limit depth
      let operands ← referAll (v.tag.cases.zip v.operands)
      return Segment.single .tags v.tag.code ++ operands := by
  cases v <;> first | rfl | cases h

/-- Flattening a value gives one of its segments, unless its deepest value lies
below the limit. -/
theorem value_yields (v : ElementValue) (depth : Nat) :
    Yields (P := P) R limit (depth + v.depth ≤ limit + 1) (Flat.Value · v) (value limit depth v) := by
  induction v using ElementValue.induct generalizing depth with
  | literal v hv =>
    rw [value_literal limit hv, ElementValue.depth_literal hv]
    refine ((checkDepth_yields depth).bind persists_true fun _ => (referAll_yields R limit _).bind
      (fun hM _ h => h.mono hM) fun s => Yields.pure _).imp (by simp) ?_
    rintro M _ ⟨_, -, t, ht, rfl⟩
    exact (Flat.value_literal hv _).2 ⟨t, ht, rfl⟩
  | array vs ih =>
    -- the check on the array and those on its items make up the check on the deepest value
    have hdepth : (depth ≤ limit ∧ (∀ v ∈ vs, depth + 1 + v.depth ≤ limit + 1) ∧ True) ↔
        depth + (ElementValue.array vs).depth ≤ limit + 1 := by rw [and_true, ElementValue.add_depth_array_le]
    simp only [value]
    refine ((checkDepth_yields depth).bind persists_true fun _ => (items_yields_of R limit (depth + 1)
      fun v hv => ih v hv _).bind (fun hM _ h => h.mono hM) fun s => Yields.pure _).imp hdepth ?_
    rintro M _ ⟨_, -, t, ht, rfl⟩
    exact ⟨t, ht, rfl⟩
  | nested descriptor ps ih =>
    have hdepth : (depth ≤ limit ∧ True ∧ (∀ q ∈ ps, depth + 1 + q.2.depth ≤ limit + 1) ∧ True) ↔
        depth + (ElementValue.nested descriptor ps).depth ≤ limit + 1 := by
      rw [and_true, true_and, ElementValue.add_depth_nested_le]
    simp only [value]
    refine ((checkDepth_yields depth).bind persists_true fun _ =>
      (refer_yields .nestTypes (.descriptor descriptor)).bind (persists_refer _ _) fun t =>
        (pairs_yields_of R limit .nestNames (depth + 1) fun q hq => ih q hq _).bind (persists_pairs _ _) fun s =>
          Yields.pure _).imp hdepth ?_
    rintro M _ ⟨_, -, _, ⟨i, hi, rfl⟩, t, ht, rfl⟩
    exact ⟨i, t, hi, ht, rfl⟩

/-- Flattening an annotation gives one of its segments, unless it is deeper
than the limit. -/
theorem root_yields (a : Annotation) :
    Yields (P := P) R limit (a.depth ≤ limit) (Flat.Root · a) (root limit a) := by
  have hdepth : (True ∧ (∀ q ∈ a.pairs, 1 + q.2.depth ≤ limit + 1) ∧ True) ↔ a.depth ≤ limit := by
    simp [ Annotation.depth, ElementValue.depthOfPairs_le, Nat.add_comm 1]
  refine ((refer_yields .types (.descriptor a.descriptor)).bind (persists_refer _ _) fun t =>
    (pairs_yields_of R limit .names 1 fun q _ => value_yields R limit q.2 1).bind (persists_pairs _ _) fun s =>
      Yields.pure _).imp hdepth ?_
  rintro M _ ⟨_, ⟨i, hi, rfl⟩, t, ht, rfl⟩
  exact ⟨i, t, hi, ht, rfl⟩

/-- Flattening annotations gives a segment of each, unless one of them is
deeper than the limit. -/
theorem roots_yields (as : List Annotation) :
    Yields (P := P) R limit (∀ a ∈ as, a.depth ≤ limit) (fun M => List.Forall₂ (Flat.Root M) as) (roots limit as) := by
  induction as with
  | nil =>
    refine (Yields.pure []).imp (by simp) ?_
    rintro M _ rfl
    exact .nil
  | cons a as ih =>
    refine ((root_yields R limit a).bind (persists_root a) fun s =>
      ih.bind (fun hM _ h => h.imp fun _ _ => Flat.Root.mono hM) fun ss => Yields.pure (s :: ss)).imp (by simp) ?_
    rintro M _ ⟨s, hs, ss, hss, rfl⟩
    exact .cons hs hss

end Flatten

end AnnotationBands
