import AnnotationBands.Proofs.Steps
import AnnotationBands.Walk.Read
import AnnotationBands.Walk.Skip
/-!
# Walks go forward and end with the tags

However a walk ends, with a result or an error, it has moved forward in every
band and not past the end of any (`Walk.Forward`, closed under the steps that
walks are made of). Each value starts with a tag, so as many levels of recursion
as there are tags left are always enough: with more of them a walk does the
same, whatever the counts in the bands say (`Walk.skipValueWithin_enough`,
`Walk.readValueWithin_enough`).
-/

namespace AnnotationBands

namespace Cursor

/-- The second cursor is in the same bands, and in none of them is it behind the
first one or further ahead of it than there are values left. It has counted no
fewer calls. -/
structure Advances (c d : Cursor) : Prop where
  bands : d.bands = c.bands
  forward : ∀ b, c.position.get b ≤ d.position.get b
  within : ∀ b, d.position.get b ≤ c.position.get b + c.remaining b
  calls : c.calls ≤ d.calls

namespace Advances

variable {c d e : Cursor}

theorem of_position (hbands : d.bands = c.bands) (hposition : d.position = c.position) (hcalls : c.calls ≤ d.calls) :
    c.Advances d where
  bands := hbands
  calls := hcalls
  forward b := by rw [hposition]
  within b := by
    rw [hposition]
    exact Nat.le_add_right _ _

theorem trans (h : c.Advances d) (h' : d.Advances e) : c.Advances e where
  bands := h'.bands.trans h.bands
  forward b := Nat.le_trans (h.forward b) (h'.forward b)
  calls := Nat.le_trans h.calls h'.calls
  within b := by
    have hfirst := h.within b
    have hsecond := h'.within b
    simp only [remaining, h.bands] at hfirst hsecond ⊢
    omega

theorem remaining_le (h : c.Advances d) (b : Band) : d.remaining b ≤ c.remaining b := by
  have hforward := h.forward b
  simp only [remaining, h.bands]
  omega

end Advances

end Cursor

namespace Walk

/-! ## Going forward -/

/-- The walk ends at the second cursor, with a result or an error. -/
def EndsAt {α : Type} (walk : Walk α) (c d : Cursor) : Prop := (∃ x, walk c = .ok x d) ∨ ∃ e, walk c = .error e d

/-- From every cursor the walk goes forward. -/
def Forward {α : Type} (walk : Walk α) : Prop := ∀ ⦃c d : Cursor⦄, walk.EndsAt c d → c.Advances d

section Steps

variable {α β : Type} {walk : Walk α} {f : α → Walk β}

theorem Forward.bind (h : Forward walk) (hf : ∀ x, Forward (f x)) : Forward (walk >>= f) := by
  rintro c d (⟨y, hy⟩ | ⟨e, he⟩)
  · obtain ⟨x, c', hx, hy⟩ := bind_eq_ok.1 hy
    exact (h (.inl ⟨x, hx⟩)).trans (hf x (.inl ⟨y, hy⟩))
  · rcases bind_eq_error.1 he with hx | ⟨x, c', hx, he⟩
    · exact h (.inr ⟨e, hx⟩)
    · exact (h (.inl ⟨x, hx⟩)).trans (hf x (.inr ⟨e, he⟩))

theorem Forward.pure (x : α) : Forward (pure x) := by
  rintro c d (⟨y, ⟨⟩⟩ | ⟨e, ⟨⟩⟩)
  exact .of_position rfl rfl le_rfl

theorem Forward.throw (e : BandError) : Forward (throw e : Walk α) := by
  rintro c d (⟨y, ⟨⟩⟩ | ⟨e, ⟨⟩⟩)
  exact .of_position rfl rfl le_rfl

theorem Forward.orThrow (r : Except BandError α) : Forward (BandError.orThrow r) := by
  cases r with
  | ok x => exact .pure x
  | error e => exact .throw e

theorem failPastEnd_forward (b : Band) : Forward (failPastEnd b : Walk α) := by
  rintro c d (⟨y, ⟨⟩⟩ | ⟨e, ⟨⟩⟩)
  exact .of_position rfl rfl le_rfl

theorem addCalls_forward (n : Nat) : Forward (addCalls n) := by
  rintro c d (⟨y, ⟨⟩⟩ | ⟨e, ⟨⟩⟩)
  exact .of_position rfl rfl (Nat.le_add_right c.calls n)

theorem checkDepth_forward (depth : Nat) : Forward (checkDepth depth) := by
  intro c d h
  rw [EndsAt, checkDepth] at h
  split at h
  · split at h
    · exact Forward.throw _ h
    · exact Forward.pure () h
  · exact Forward.pure () h

/-- Where there is a next value, it is taken. -/
theorem next_eq_ok {b : Band} {v : Int} {c d : Cursor} (h : next b c = .ok v d) :
    c.position.get b < (c.bands.get b).length ∧ d = { c with position := c.position.modify b (· + 1) } := by
  unfold next at h
  cases hv : (c.bands.get b)[c.position.get b]? with
  | none =>
    rw [hv] at h
    cases h
  | some w =>
    rw [hv] at h
    obtain ⟨-, rfl⟩ := EStateM.Result.ok.inj h
    exact ⟨(List.getElem?_eq_some_iff.1 hv).1, rfl⟩

theorem next_eq_error {b : Band} {e : BandError} {c d : Cursor} (h : next b c = .error e d) : d = c := by
  unfold next at h
  split at h
  · cases h
  · exact (EStateM.Result.error.inj h).2.symm

theorem next_forward (b : Band) : Forward (next b) := by
  rintro c d (⟨v, h⟩ | ⟨e, h⟩)
  · obtain ⟨hlt, rfl⟩ := next_eq_ok h
    refine ⟨rfl, fun b' => ?_, fun b' => ?_, le_rfl⟩
    · rw [PerBand.get_modify]
      split <;> omega
    · rw [PerBand.get_modify, Cursor.remaining]
      split
      · subst b'
        omega
      · omega
  · obtain rfl := next_eq_error h
    exact .of_position rfl rfl le_rfl

theorem nextCount_forward (b : Band) : Forward (nextCount b) := by
  refine (next_forward b).bind fun v => ?_
  cases v with
  | ofNat n => exact .pure n
  | negSucc n => exact .throw _

theorem nextTag_forward : Forward nextTag := by
  refine (next_forward .tags).bind fun v => ?_
  cases Tag.ofCode? v with
  | some tag => exact .pure tag
  | none => exact .throw _

theorem times_forward {walk : Walk Unit} (h : Forward walk) (n : Nat) : Forward (times n walk) := by
  induction n with
  | zero => exact .pure ()
  | succ n ih => exact h.bind fun _ => ih

theorem collect_forward (h : Forward walk) (n : Nat) : Forward (collect n walk) := by
  induction n with
  | zero => exact .pure []
  | succ n ih => exact h.bind fun x => ih.bind fun xs => .pure (x :: xs)

theorem forEach_forward (h : ∀ x, Forward (f x)) (xs : List α) : Forward (forEach f xs) := by
  induction xs with
  | nil => exact .pure []
  | cons x xs ih => exact (h x).bind fun y => ih.bind fun ys => .pure (y :: ys)

theorem skipEach_forward (bs : List Band) : Forward (skipEach bs) := by
  induction bs with
  | nil => exact .pure ()
  | cons b bs ih => exact (next_forward b).bind fun _ => ih

end Steps

section Values

variable {L : Type} [Resolver L] (pool : L)

theorem readDescriptor_forward (b : Band) : Forward (readDescriptor pool b) :=
  (next_forward b).bind fun _ => .orThrow _

theorem readUtf8_forward (b : Band) : Forward (readUtf8 pool b) := (next_forward b).bind fun _ => .orThrow _

theorem readOperand_forward (case : CaseBand) : Forward (readOperand pool case) :=
  (next_forward case.band).bind fun _ => .orThrow _

theorem skipValueWithin_forward (tagsAhead depth : Nat) : Forward (skipValueWithin tagsAhead depth) := by
  induction tagsAhead generalizing depth with
  | zero => exact (checkDepth_forward depth).bind fun _ => failPastEnd_forward .tags
  | succ tagsAhead ih =>
    refine (checkDepth_forward depth).bind fun _ => nextTag_forward.bind fun tag => ?_
    cases tag.dispatch with
    | literal cases => exact skipEach_forward _
    | array =>
      refine (nextCount_forward .arrayCounts).bind fun n => (addCalls_forward n).bind fun _ => ?_
      exact times_forward (ih (depth + 1)) n
    | nested =>
      refine (next_forward .nestTypes).bind fun _ => (nextCount_forward .nestPairCounts).bind fun n => ?_
      refine (addCalls_forward n).bind fun _ => times_forward ?_ n
      exact (next_forward .nestNames).bind fun _ => ih (depth + 1)

theorem readValueWithin_forward (tagsAhead depth : Nat) : Forward (readValueWithin pool tagsAhead depth) := by
  induction tagsAhead generalizing depth with
  | zero => exact (checkDepth_forward depth).bind fun _ => failPastEnd_forward .tags
  | succ tagsAhead ih =>
    refine (checkDepth_forward depth).bind fun _ => nextTag_forward.bind fun tag => ?_
    cases tag.dispatch with
    | literal cases => exact (forEach_forward (readOperand_forward pool) cases).bind fun _ => .orThrow _
    | array =>
      refine (nextCount_forward .arrayCounts).bind fun n => (addCalls_forward n).bind fun _ => ?_
      exact (collect_forward (ih (depth + 1)) n).bind fun _ => .pure _
    | nested =>
      refine (readDescriptor_forward pool .nestTypes).bind fun _ => ?_
      refine (nextCount_forward .nestPairCounts).bind fun n => (addCalls_forward n).bind fun _ => ?_
      refine (collect_forward ?_ n).bind fun _ => .pure _
      exact (readUtf8_forward pool .nestNames).bind fun _ => (ih (depth + 1)).bind fun _ => .pure _

end Values

/-! ## Enough levels of recursion -/

/-- The walks do the same from every cursor with at most so many tags left. -/
def AgreeUpTo {α : Type} (tagsAhead : Nat) (walk other : Walk α) : Prop :=
  ∀ c : Cursor, c.remaining .tags ≤ tagsAhead → walk c = other c

section Agreement

variable {α β : Type} {k : Nat} {walk other : Walk α} {f g : α → Walk β}

theorem AgreeUpTo.refl (walk : Walk α) : AgreeUpTo k walk walk := fun _ _ => rfl

/-- A walk that goes forward leaves no more tags than there were. -/
theorem AgreeUpTo.bind (h : AgreeUpTo k walk other) (hwalk : Forward walk) (hf : ∀ x, AgreeUpTo k (f x) (g x)) :
    AgreeUpTo k (walk >>= f) (other >>= g) := by
  intro c hc
  have hsame := h c hc
  cases hx : walk c with
  | error e d => rw [bind_of_error hx, bind_of_error (hsame ▸ hx)]
  | ok x d =>
    have hd := (hwalk (.inl ⟨x, hx⟩)).remaining_le .tags
    rw [bind_of_ok hx, bind_of_ok (hsame ▸ hx)]
    exact hf x d (Nat.le_trans hd hc)

/-- A step that both walks make. -/
theorem AgreeUpTo.step (hwalk : Forward walk) (hf : ∀ x, AgreeUpTo k (f x) (g x)) :
    AgreeUpTo k (walk >>= f) (walk >>= g) := (AgreeUpTo.refl walk).bind hwalk hf

/-- A tag that is taken leaves one tag less. -/
theorem AgreeUpTo.tag {f g : Tag → Walk β} (hf : ∀ tag, AgreeUpTo k (f tag) (g tag)) :
    AgreeUpTo (k + 1) (nextTag >>= f) (nextTag >>= g) := by
  rw [nextTag, bind_assoc, bind_assoc]
  intro c hc
  cases hnext : next .tags c with
  | error e d => rw [bind_of_error hnext, bind_of_error hnext]
  | ok v d =>
    rw [bind_of_ok hnext, bind_of_ok hnext]
    obtain ⟨hlt, rfl⟩ := next_eq_ok hnext
    have hleft : ({ c with position := c.position.modify .tags (· + 1) } : Cursor).remaining .tags ≤ k := by
      simp only [Cursor.remaining, PerBand.get_modify, if_true] at hc ⊢
      omega
    cases Tag.ofCode? v with
    | some tag => exact hf tag _ hleft
    | none => rfl

theorem times_agree {walk other : Walk Unit} (h : AgreeUpTo k walk other) (hwalk : Forward walk) (n : Nat) :
    AgreeUpTo k (times n walk) (times n other) := by
  induction n with
  | zero => exact .refl _
  | succ n ih => exact h.bind hwalk fun _ => ih

theorem collect_agree (h : AgreeUpTo k walk other) (hwalk : Forward walk) (n : Nat) :
    AgreeUpTo k (collect n walk) (collect n other) := by
  induction n with
  | zero => exact .refl _
  | succ n ih => exact h.bind hwalk fun x => ih.bind (collect_forward hwalk n) fun xs => .refl _

/-- With no tag left, taking one fails past their end. -/
theorem AgreeUpTo.exhausted (f : Tag → Walk β) : AgreeUpTo 0 (failPastEnd .tags) (nextTag >>= f) := by
  intro c hc
  have hend : (c.bands.get .tags).length ≤ c.position.get .tags := Nat.le_of_sub_eq_zero (Nat.le_zero.1 hc)
  have hnext : next .tags c = .error (c.pastEnd .tags) c := by
    rw [next, List.getElem?_eq_none hend]
  exact (bind_of_error (bind_of_error hnext)).symm

end Agreement

/-- By induction on the number of tags ahead: each value takes one of them before
its elements are passed over, and with none left it fails. -/
theorem skipValueWithin_agree (tagsAhead more depth : Nat) :
    AgreeUpTo tagsAhead (skipValueWithin tagsAhead depth) (skipValueWithin (tagsAhead + more) depth) := by
  induction tagsAhead generalizing depth with
  | zero =>
    cases more with
    | zero => exact .refl _
    | succ more =>
      rw [Nat.zero_add]
      exact .step (checkDepth_forward depth) fun _ => .exhausted _
  | succ tagsAhead ih =>
    -- elements go forward too, so the later ones find no more tags than the first
    have hvalue := skipValueWithin_forward tagsAhead (depth + 1)
    rw [Nat.add_right_comm]
    refine .step (checkDepth_forward depth) fun _ => .tag fun tag => ?_
    cases tag.dispatch with
    | literal cases => exact .refl _
    | array =>
      refine .step (nextCount_forward .arrayCounts) fun n => .step (addCalls_forward n) fun _ => ?_
      exact times_agree (ih (depth + 1)) hvalue n
    | nested =>
      refine .step (next_forward .nestTypes) fun _ => .step (nextCount_forward .nestPairCounts) fun n => ?_
      refine .step (addCalls_forward n) fun _ => times_agree ?_ ((next_forward .nestNames).bind fun _ => hvalue) n
      exact .step (next_forward .nestNames) fun _ => ih (depth + 1)

theorem readValueWithin_agree {L : Type} [Resolver L] (pool : L) (tagsAhead more depth : Nat) :
    AgreeUpTo tagsAhead (readValueWithin pool tagsAhead depth) (readValueWithin pool (tagsAhead + more) depth) := by
  induction tagsAhead generalizing depth with
  | zero =>
    cases more with
    | zero => exact .refl _
    | succ more =>
      rw [Nat.zero_add]
      exact .step (checkDepth_forward depth) fun _ => .exhausted _
  | succ tagsAhead ih =>
    have hvalue := readValueWithin_forward pool tagsAhead (depth + 1)
    rw [Nat.add_right_comm]
    refine .step (checkDepth_forward depth) fun _ => .tag fun tag => ?_
    cases tag.dispatch with
    | literal cases => exact .refl _
    | array =>
      refine .step (nextCount_forward .arrayCounts) fun n => .step (addCalls_forward n) fun _ => ?_
      exact (collect_agree (ih (depth + 1)) hvalue n).bind (collect_forward hvalue n) fun _ => .refl _
    | nested =>
      refine .step (readDescriptor_forward pool .nestTypes) fun _ => .step (nextCount_forward .nestPairCounts) fun n => ?_
      refine .step (addCalls_forward n) fun _ => ?_
      have hname := readUtf8_forward pool .nestNames
      have hpair := hname.bind fun name => hvalue.bind fun value => Forward.pure (name, value)
      refine (collect_agree ?_ hpair n).bind (collect_forward hpair n) fun _ => .refl _
      exact .step hname fun name => (ih (depth + 1)).bind hvalue fun value => .refl _

/-- With as many levels of recursion as there are tags left, or more, passing
over a value is the same. -/
theorem skipValueWithin_enough {c : Cursor} {tagsAhead : Nat} (h : c.remaining .tags ≤ tagsAhead) :
    skipValueWithin tagsAhead 1 c = skipValue c := by
  obtain ⟨more, rfl⟩ := Nat.exists_eq_add_of_le h
  exact (skipValueWithin_agree (c.remaining .tags) more 1 c (Nat.le_refl _)).symm

/-- With as many levels of recursion as there are tags left, or more, reading a
value is the same. -/
theorem readValueWithin_enough {L : Type} [Resolver L] {pool : L} {c : Cursor} {tagsAhead : Nat}
    (h : c.remaining .tags ≤ tagsAhead) : readValueWithin pool tagsAhead 1 c = readValue pool c := by
  obtain ⟨more, rfl⟩ := Nat.exists_eq_add_of_le h
  exact (readValueWithin_agree pool (c.remaining .tags) more 1 c (Nat.le_refl _)).symm

end Walk

end AnnotationBands
