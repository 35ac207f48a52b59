import AnnotationBands.Proofs.Passage
import AnnotationBands.Proofs.PoolReferences
/-!
# Walks that find what they need

A walk over bands whose lengths are those that the bands themselves call for
never finds a band empty where it needs a value. At each of its cursors, the
values ahead are just those that are due plus those that the values ahead call
for (`Cursor.Owes`), and each step of the walk pays for what it needs out of
what is due (`Walk.Safe`). So a walk stops only for the depth limit or for what
the pool lacks (`BandError.External`). Main statement: reading an entry is such
a walk (`Walk.readEntry_safe`).
-/

namespace AnnotationBands

/-- The error's cause is none of the bands: a value is nested too deep, or the
pool holds nothing at an index. -/
def BandError.External (limit : Nat) : BandError → Prop
  | .nestingTooDeep m => m = limit
  | .unresolvedReference _ _ => True
  | _ => False

/-- The pool holds nothing at an index. -/
def BandError.Unresolved (e : BandError) : Prop := ∃ k i, e = .unresolvedReference k i

theorem BandError.Unresolved.external {limit : Nat} {e : BandError} (h : e.Unresolved) : e.External limit := by
  obtain ⟨k, i, rfl⟩ := h
  trivial

theorem BandError.External.eq_or {limit : Nat} {e : BandError} (h : e.External limit) :
    e = .nestingTooDeep limit ∨ ∃ k i, e = .unresolvedReference k i := by
  cases e with
  | nestingTooDeep m => exact .inl (congrArg _ h)
  | unresolvedReference k i => exact .inr ⟨k, i, rfl⟩
  | _ => cases h

/-! ## What a pool resolves -/

theorem Table.resolve_eq_error {α : Type} {k : PoolKind} {t : Table α} {i : Int} {e : BandError}
    (h : t.resolve k i = .error e) : e = .unresolvedReference k i := by
  unfold resolve at h
  split at h
  · split at h
    · cases h
    · exact (Except.error.inj h).symm
  · exact (Except.error.inj h).symm

namespace Pool

variable {p : Pool} {case : CaseBand} {i : Int} {e : BandError}

theorem unresolved_of_table {α : Type} {k : PoolKind} {t : Table α} (h : t.resolve k i = .error e) : e.Unresolved :=
  ⟨k, i, Table.resolve_eq_error h⟩

theorem unresolved_of_constant {k : PoolKind} (h : p.constant k i = .error e) : e.Unresolved := by
  cases k with
  | utf8 | signature => exact ⟨_, i, (Except.error.inj h).symm⟩
  | int | float | long | double => exact unresolved_of_table (map_eq_error.1 h)

theorem unresolved_of_resolve (h : case.resolve p i = .error e) : e.Unresolved := by
  cases case with
  | classLiteral | enumType | enumName | string => exact unresolved_of_table (map_eq_error.1 h)
  | int | double | float | long => exact unresolved_of_constant (map_eq_error.1 h)

/-- A case band gives operands of the index space that it points into. -/
theorem pool_of_resolve {x : Operand} (h : case.resolve p i = .ok x) : x.pool = case.pool := by
  cases case with
  | classLiteral | enumType | enumName | string =>
    obtain ⟨y, -, rfl⟩ := map_eq_ok.1 h
    rfl
  | int | double | float | long =>
    obtain ⟨c, hc, rfl⟩ := map_eq_ok.1 h
    obtain ⟨y, -, rfl⟩ := map_eq_ok.1 (show p.constant _ i = .ok c from hc)
    rfl

end Pool

/-! ## What is due at a cursor -/

/-- The bands ahead of the cursor hold just what is due and what they call for
themselves. -/
structure Cursor.Owes (limit fuel : Nat) (c : Cursor) (due : Multiset Band) : Prop where
  maxDepth : c.maxDepth = some limit
  sound : c.ahead.Sound
  settles : c.ahead.Settles due 0
  tags : (c.ahead.get .tags).length ≤ fuel

namespace Cursor.Owes

variable {limit fuel : Nat} {c : Cursor} {b : Band} {due left more : Multiset Band}

/-- Where a value is due, the next one is there. -/
theorem exists_next (h : c.Owes limit fuel (b ::ₘ more)) :
    ∃ v, (c.bands.get b)[c.position.get b]? = some v ∧ c.Before (.single b v) ∧ b.Allows v := by
  have hlen := h.settles.length_get b
  have hdemand := h.sound.demand_nonneg b
  rw [Multiset.count_cons_self] at hlen
  rw [get_ahead] at hlen
  obtain ⟨v, rest, hv⟩ := List.exists_cons_of_length_pos (l := (c.bands.get b).drop (c.position.get b)) (by omega)
  refine ⟨v, ?_, fun b' => ?_, h.sound b v ?_⟩
  · rw [← List.head?_drop, hv]
    rfl
  · rw [Segment.get_single]
    split
    · subst b'
      exact ⟨rest, hv.symm⟩
    · exact List.nil_prefix
  · rw [get_ahead, hv]
    exact List.mem_cons_self

/-- Behind a segment, what it leaves due is due. -/
theorem past {s : Segment} (h : c.Owes limit fuel (due + more)) (hs : c.Before s)
    (hsettles : s.bands.Settles due left) :
    (c.past s).Owes limit (fuel - (s.bands.get .tags).length) (left + more) := by
  have hahead := hs.ahead_eq
  have hsound := h.sound
  have htotal := h.settles
  have htags := h.tags
  rw [hahead] at hsound htotal htags
  rw [Bands.get_append, List.length_append] at htags
  exact ⟨h.maxDepth, (Bands.Sound.append_iff.1 hsound).2, hsettles.behind htotal, by omega⟩

theorem mono {more : Nat} (h : c.Owes limit fuel due) (hfuel : fuel ≤ more) : c.Owes limit more due :=
  ⟨h.maxDepth, h.sound, h.settles, Nat.le_trans h.tags hfuel⟩

end Cursor.Owes

namespace Walk

open Bands (Settles)

/-- Where some values are due and as many tags are ahead as the fuel allows, the
walk stops only for a reason outside the bands; else other values are due, by
its result. What more is due makes no difference. -/
def Safe {α : Type} (limit fuel : Nat) (due : Multiset Band) (walk : Walk α) (left : α → Multiset Band) : Prop :=
  ∀ ⦃c : Cursor⦄ ⦃more : Multiset Band⦄, c.Owes limit fuel (due + more) →
    match walk c with
    | .ok x c' => c'.Owes limit fuel (left x + more)
    | .error e _ => e.External limit

section Steps

variable {limit fuel : Nat} {α β : Type} {due : Multiset Band} {mid : α → Multiset Band} {left : β → Multiset Band}

theorem Safe.ok {walk : Walk α} (h : Safe limit fuel due walk mid) {c c' : Cursor} {more : Multiset Band} {x : α}
    (hc : c.Owes limit fuel (due + more)) (hx : walk c = .ok x c') : c'.Owes limit fuel (mid x + more) := by
  have := h hc
  rwa [hx] at this

theorem Safe.error {walk : Walk α} (h : Safe limit fuel due walk mid) {c c' : Cursor} {more : Multiset Band}
    {e : BandError} (hc : c.Owes limit fuel (due + more)) (hx : walk c = .error e c') : e.External limit := by
  have := h hc
  rwa [hx] at this

/-- What is known of a first result may be used in the second step. -/
theorem Safe.bind_of_passes {walk : Walk α} {f : α → Walk β} {R : α → Segment → Prop}
    (hx : Safe limit fuel due walk mid) (hR : Passes (some limit) walk R)
    (hf : ∀ x s, R x s → Safe limit fuel (mid x) (f x) left) : Safe limit fuel due (walk >>= f) left := by
  intro c more hc
  cases h : walk c with
  | error e c' =>
    rw [bind_of_error h]
    exact hx.error hc h
  | ok x c' =>
    rw [bind_of_ok h]
    obtain ⟨s, -, -, hs⟩ := hR hc.maxDepth h
    exact hf x s hs (hx.ok hc h)

theorem Safe.bind {walk : Walk α} {f : α → Walk β} (hx : Safe limit fuel due walk mid)
    (hf : ∀ x, Safe limit fuel (mid x) (f x) left) : Safe limit fuel due (walk >>= f) left := by
  intro c more hc
  cases h : walk c with
  | error e c' =>
    rw [bind_of_error h]
    exact hx.error hc h
  | ok x c' =>
    rw [bind_of_ok h]
    exact hf x (hx.ok hc h)

theorem Safe.pure {x : β} (h : left x = due) : Safe limit fuel due (pure x) left := by
  rintro c more hc
  rwa [← h] at hc

/-- Values that the walk has nothing to do with stay due. -/
theorem Safe.frame {walk : Walk α} (h : Safe limit fuel due walk mid) (more : Multiset Band) :
    Safe limit fuel (due + more) walk fun x => mid x + more := by
  intro c extra hc
  rw [Multiset.add_assoc] at hc
  cases hx : walk c with
  | error e c' => exact h.error hc hx
  | ok x c' =>
    have hrest := h.ok hc hx
    rwa [← Multiset.add_assoc] at hrest

theorem Safe.orThrow {r : Except BandError α} (h : ∀ e, r = .error e → e.External limit) :
    Safe limit fuel due (BandError.orThrow r) fun _ => due := by
  intro c more hc
  cases r with
  | ok x => exact hc
  | error e => exact h e rfl

/-- A count or a reference that is due is there. -/
theorem next_safe {k : Band} (hk : k ≠ .tags) (hcount : k.isCount = false) (more : Multiset Band) :
    Safe limit fuel (k ::ₘ more) (next k) fun _ => more := by
  intro c extra hc
  rw [Multiset.cons_add] at hc
  obtain ⟨v, hv, hbefore, -⟩ := hc.exists_next
  rw [next, hv, ← Cursor.past_single]
  rw [← Multiset.cons_add] at hc
  exact (hc.past hbefore (Settles.value hk hcount v more)).mono (Nat.sub_le _ _)

/-- A count leaves due what it counts. -/
theorem nextCount_safe {k : Band} (hk : k ≠ .tags) (hcount : k.isCount = true) (more : Multiset Band) :
    Safe limit fuel (k ::ₘ more) (nextCount k) fun n => n • (k.targets : Multiset Band) + more := by
  intro c extra hc
  rw [Multiset.cons_add] at hc
  obtain ⟨v, hv, hbefore, hallowed, -⟩ := hc.exists_next
  obtain ⟨n, rfl⟩ := Int.eq_ofNat_of_zero_le (hallowed hcount)
  have hnext : nextCount k c = .ok n (c.past (.single k n)) := nextCount_consumes k n c hc.maxDepth hbefore
  rw [hnext]
  rw [← Multiset.cons_add] at hc
  exact (hc.past hbefore (Settles.count hk n more)).mono (Nat.sub_le _ _)

/-- A tag leaves due what it calls for, and fewer tags ahead. -/
theorem Safe.tag {f : Tag → Walk β} {more : Multiset Band}
    (hf : ∀ t : Tag, Safe limit fuel ((t.targets : Multiset Band) + more) (f t) left) :
    Safe limit (fuel + 1) (.tags ::ₘ more) (nextTag >>= f) left := by
  intro c extra hc
  rw [Multiset.cons_add] at hc
  obtain ⟨v, hv, hbefore, -, hcode⟩ := hc.exists_next
  obtain ⟨t, rfl⟩ := hcode rfl
  rw [bind_of_ok (nextTag_consumes t c hc.maxDepth hbefore)]
  rw [← Multiset.cons_add] at hc
  have hrest : (c.past (.single .tags t.code)).Owes limit fuel (t.targets + more + extra) := by
    simpa using hc.past hbefore (Settles.tag t more)
  cases hx : f t (c.past (.single .tags t.code)) with
  | error e c' => exact (hf t).error hrest hx
  | ok x c' => exact ((hf t).ok hrest hx).mono (Nat.le_succ _)

theorem checkDepth_safe (depth : Nat) : Safe limit fuel due (checkDepth depth) fun _ => due := by
  intro c more hc
  unfold checkDepth
  rw [hc.maxDepth]
  by_cases h : limit < depth
  · simp only [if_pos h]
    rfl
  · simp only [if_neg h]
    exact hc

theorem addCalls_safe (n : Nat) : Safe limit fuel due (addCalls n) fun _ => due :=
  fun _ _ hc => ⟨hc.maxDepth, hc.sound, hc.settles, hc.tags⟩

theorem collect_safe {walk : Walk α} (h : Safe limit fuel due walk mid) (n : Nat) :
    Safe limit fuel (n • due) (collect n walk) fun xs => (xs.map mid).sum := by
  induction n with
  | zero =>
    rw [zero_nsmul]
    exact .pure rfl
  | succ n ih =>
    rw [succ_nsmul']
    refine (h.frame (n • due)).bind fun x => ?_
    rw [Multiset.add_comm]
    refine (ih.frame (mid x)).bind fun xs => .pure ?_
    rw [List.map_cons, List.sum_cons, add_comm]

theorem forEach_safe {walk : α → Walk β} {due : α → Multiset Band}
    (h : ∀ x, Safe limit fuel (due x) (walk x) fun _ => 0) (xs : List α) :
    Safe limit fuel (xs.map due).sum (forEach walk xs) fun _ => 0 := by
  induction xs with
  | nil => exact .pure rfl
  | cons x xs ih =>
    rw [List.map_cons, List.sum_cons]
    refine ((h x).frame _).bind fun y => ?_
    rw [Multiset.zero_add]
    exact ih.bind fun ys => .pure rfl

end Steps

/-! ## Entries -/

variable {pool : Pool} {limit fuel : Nat}

theorem readDescriptor_safe {b : Band} (hb : b.pool? = some .signature) (more : Multiset Band) :
    Safe limit fuel (b ::ₘ more) (readDescriptor pool b) fun _ => more := by
  refine (next_safe (by rintro rfl; cases hb) (by cases b <;> first | rfl | cases hb) more).bind fun i => .orThrow ?_
  exact fun e he => (Pool.unresolved_of_table he).external

theorem readUtf8_safe {b : Band} (hb : b.pool? = some .utf8) (more : Multiset Band) :
    Safe limit fuel (b ::ₘ more) (readUtf8 pool b) fun _ => more := by
  refine (next_safe (by rintro rfl; cases hb) (by cases b <;> first | rfl | cases hb) more).bind fun i => .orThrow ?_
  exact fun e he => (Pool.unresolved_of_table he).external

theorem readOperand_safe (case : CaseBand) :
    Safe limit fuel {case.band} (readOperand pool case) fun _ => 0 := by
  refine (next_safe (by cases case <;> decide) (by cases case <;> rfl) 0).bind fun i => .orThrow ?_
  exact fun e he => (Pool.unresolved_of_resolve he).external

/-- A named value: the name and the value are due. -/
theorem pair_safe {nameBand : Band} (hname : nameBand.pool? = some .utf8) {walk : Walk ElementValue}
    (h : Safe limit fuel {.tags} walk fun _ => 0) :
    Safe limit fuel {nameBand, .tags} (do
      let name ← readUtf8 pool nameBand
      let value ← walk
      return (name, value)) fun _ => 0 := by
  refine (readUtf8_safe hname {.tags}).bind fun name => ?_
  exact h.bind fun value => .pure rfl

theorem sum_map_band (cases : List CaseBand) :
    (cases.map fun case => ({case.band} : Multiset Band)).sum = (cases.map CaseBand.band : List Band) := by
  have hbands := Multiset.sum_map_singleton (cases.map CaseBand.band : Multiset Band)
  rwa [Multiset.map_coe, Multiset.sum_coe, List.map_map] at hbands

/-- Operands that the case bands give are from the index spaces that these point
into. -/
theorem map_pool_of_resolve {cases : List CaseBand} {ops : List Operand} {ss : List Segment}
    (hlen : ops.length = cases.length)
    (h : List.Forall₂ (fun p s => OperandAt pool p.1 p.2 s) (cases.zip ops) ss) :
    ops.map Operand.pool = cases.map CaseBand.pool := by
  induction cases generalizing ops ss with
  | nil =>
    obtain rfl := List.eq_nil_of_length_eq_zero hlen
    rfl
  | cons case cases ih =>
    obtain ⟨op, ops, rfl⟩ := List.exists_cons_of_length_eq_add_one hlen
    rw [List.zip_cons_cons] at h
    obtain ⟨s, ss, ⟨i, hi, -⟩, hrest, rfl⟩ := List.forall₂_cons_left_iff.1 h
    rw [List.map_cons, List.map_cons, Pool.pool_of_resolve hi, ih (Nat.succ.inj hlen) hrest]

/-- The operands that a tag calls for make a literal. -/
theorem literal_safe {tag : Tag} (htag : tag.dispatch = .literal tag.cases) :
    Safe limit fuel (tag.targets : Multiset Band) (do
      let operands ← forEach (readOperand pool) tag.cases
      BandError.orThrow (ElementValue.ofOperands tag operands)) fun _ => 0 := by
  have hread : Safe limit fuel _ (forEach (readOperand pool) tag.cases) fun _ => 0 :=
    forEach_safe readOperand_safe tag.cases
  rw [sum_map_band, ← Tag.targets_literal htag] at hread
  refine hread.bind_of_passes (forEach_passes readOperand_passes tag.cases) ?_
  rintro ops _ ⟨hlen, ss, hss, -⟩
  obtain ⟨v, hv⟩ := ElementValue.ofOperands?_of_pool htag (map_pool_of_resolve hlen hss)
  refine .orThrow fun e he => ?_
  rw [ElementValue.ofOperands_eq_ok.2 hv] at he
  cases he

theorem readValueWithin_safe (depth : Nat) :
    Safe limit fuel {.tags} (readValueWithin pool fuel depth) fun _ => 0 := by
  induction fuel generalizing depth with
  | zero =>
    -- a tag is due, but none is ahead
    intro c more hc
    have hlen := hc.settles.length_get .tags
    have hdemand := hc.sound.demand_nonneg .tags
    have htags := hc.tags
    rw [Multiset.singleton_add, Multiset.count_cons_self] at hlen
    omega
  | succ fuel ih =>
    refine (checkDepth_safe depth).bind fun _ => .tag fun tag => ?_
    rw [Multiset.add_zero]
    split
    case h_1 cases htag =>
      obtain rfl : tag.cases = cases := by rw [Tag.cases, htag]
      exact literal_safe htag
    case h_2 htag =>
      obtain rfl : tag = .array := by cases tag <;> first | rfl | cases htag
      refine (nextCount_safe (by decide) rfl 0).bind fun n => (addCalls_safe n).bind fun _ => ?_
      rw [Multiset.add_zero]
      exact (collect_safe (ih (depth + 1)) n).bind fun items => .pure (by simp)
    case h_3 htag =>
      obtain rfl : tag = .nested := by cases tag <;> first | rfl | cases htag
      refine (readDescriptor_safe (b := .nestTypes) rfl {.nestPairCounts}).bind fun descriptor => ?_
      refine (nextCount_safe (by decide) rfl 0).bind fun n => (addCalls_safe n).bind fun _ => ?_
      rw [Multiset.add_zero]
      exact (collect_safe (pair_safe rfl (ih (depth + 1))) n).bind fun pairs => .pure (by simp)

theorem readValue_safe : Safe limit fuel {.tags} (readValue pool) fun _ => 0 := by
  intro c more hc
  have hahead : c.remaining .tags = (c.ahead.get .tags).length := by
    rw [Cursor.get_ahead, List.length_drop, Cursor.remaining]
  have hown : c.Owes limit (c.remaining .tags) ({.tags} + more) :=
    ⟨hc.maxDepth, hc.sound, hc.settles, Nat.le_of_eq hahead.symm⟩
  have hfuel : c.remaining .tags ≤ fuel := hahead ▸ hc.tags
  cases hx : readValue pool c with
  | error e c' => exact (readValueWithin_safe 1).error hown hx
  | ok v c' => exact ((readValueWithin_safe 1).ok hown hx).mono hfuel

theorem readRoot_safe : Safe limit fuel {.types, .pairCounts} (readRoot pool) fun _ => 0 := by
  refine (readDescriptor_safe (b := .types) rfl {.pairCounts}).bind fun descriptor => ?_
  refine (nextCount_safe (k := .pairCounts) (by decide) rfl 0).bind fun n => ?_
  rw [Multiset.add_zero]
  exact (collect_safe (pair_safe rfl readValue_safe) n).bind fun pairs => .pure (by simp)

theorem readRoots_safe (n : Nat) :
    Safe limit fuel (n • {.types, .pairCounts}) (collect n (readRoot pool)) fun _ => 0 := by
  have hroots : Safe limit fuel _ (collect n (readRoot pool)) _ := collect_safe readRoot_safe n
  simpa using hroots

theorem readEntry_safe (kind : Kind) : Safe limit fuel {kind.entryBand} (readEntry pool kind) fun _ => 0 := by
  cases kind with
  | annotationDefault => exact readValue_safe.bind fun value => .pure rfl
  | visible | invisible =>
    refine (nextCount_safe (k := .annoCounts) (by decide) rfl 0).bind fun n => ?_
    rw [Multiset.add_zero]
    exact (readRoots_safe n).bind fun annotations => .pure rfl
  | visibleParameter | invisibleParameter =>
    refine (nextCount_safe (k := .paramCounts) (by decide) rfl 0).bind fun n => ?_
    rw [Multiset.add_zero]
    have hcounts : Safe limit fuel _ (nextCount .annoCounts) _ := nextCount_safe (by decide) rfl 0
    refine (collect_safe hcounts n).bind fun ns => ?_
    have hroots : Safe limit fuel _ (forEach (fun n => collect n (readRoot pool)) ns) fun _ => 0 :=
      forEach_safe readRoots_safe ns
    simp only [Multiset.add_zero]
    exact hroots.bind fun annotations => .pure rfl

end Walk

end AnnotationBands
