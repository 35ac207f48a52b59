import AnnotationBands.Proofs.CrossBand
import AnnotationBands.Proofs.Forward
import AnnotationBands.Proofs.Passage
/-!
# What a walk over a value uses up

The counts in bands may say anything, and a walk does not compare them with the
lengths of other bands. But when it gets through a value, what it has used up
fits together as if the value had been flattened there
(`Segment.Conserved`): one tag for the value and one for each call, and in every
other band as much as the tags and the counts among what was used up call for.
The rules add up over the parts of a value (`Segment.Tallied`), so they hold of
whatever a walk has passed (`Walk.skipValueWithin_tallied`,
`Walk.readValueWithin_tallied`). Main statement: `Walk.value_conserved`.
-/

namespace AnnotationBands

namespace Segment

/-! ## Rules that add up -/

/-- The counting rules, with counts that are natural numbers and nothing in the
bands ahead of the tags. Left open are the number of values whose count stands
elsewhere, and the number of nested names. -/
structure Tallied (s : Segment) (roots names : Int) : Prop where
  counted : s.Counted roots names
  counts : ∀ b : Band, b.isContentCount = true → ∀ n ∈ s.bands.get b, 0 ≤ n
  top : ∀ b ∈ Band.top, s.bands.get b = []

namespace Tallied

variable {s t : Segment} {m n k l : Int}

theorem empty : Tallied .empty 0 0 where
  counted := .empty
  counts b _ v hv := by simp at hv
  top b _ := by simp

theorem append (hs : s.Tallied m n) (ht : t.Tallied k l) : (s ++ t).Tallied (m + k) (n + l) where
  counted := hs.counted.append ht.counted
  counts b hb v hv := by
    rw [get_append, List.mem_append] at hv
    exact hv.elim (hs.counts b hb v) (ht.counts b hb v)
  top b hb := by rw [get_append, hs.top b hb, ht.top b hb, List.append_nil]

/-- Pieces that each leave the same numbers open. -/
theorem join {α : Type} {xs : List α} {ss : List Segment} (h : List.Forall₂ (fun _ s => s.Tallied m n) xs ss) :
    (Segment.join ss).Tallied (xs.length * m) (xs.length * n) where
  counted := .join (h.imp fun _ _ hs => hs.counted)
  counts b hb := by
    induction h with
    | nil => simp
    | cons hs _ ih =>
      rw [join_cons, get_append]
      exact List.forall_mem_append.2 ⟨hs.counts b hb, ih⟩
  top b hb := by
    induction h with
    | nil => simp
    | cons hs _ ih => rw [join_cons, get_append, hs.top b hb, ih, List.append_nil]

theorem single_nestName (v : Int) : (single .nestNames v).Tallied 0 1 where
  counted := .single_nestName v
  counts b hb := by
    have hne : b ≠ .nestNames := by rintro rfl; cases hb
    simp [hne]
  top b hb := by
    have hne : b ≠ .nestNames := by rintro rfl; exact absurd hb (by decide)
    simp [hne]

/-- An array whose elements are values of their own. -/
theorem array {α : Type} {items : List α} {ss : List Segment}
    (h : List.Forall₂ (fun _ s => s.Tallied 1 0) items ss) :
    (single .tags Tag.array.code ++ (single .arrayCounts items.length ++
      (ofCalls items.length ++ Segment.join ss))).Tallied 1 0 := by
  have hhead : (single .tags Tag.array.code ++ (single .arrayCounts items.length ++ ofCalls items.length)).Tallied
      (1 - items.length) 0 := by
    refine ⟨.array_head items.length, fun b hb => ?_, fun b hb => ?_⟩
    · cases b <;> first | exact Bool.noConfusion hb | simp
    · cases b <;> first | exact absurd hb (by decide) | simp
  simpa [append_assoc] using hhead.append (join h)

/-- A nested annotation whose pairs are names and values of their own. -/
theorem nested {α : Type} (i : Int) {pairs : List α} {ss : List Segment}
    (h : List.Forall₂ (fun _ s => s.Tallied 1 1) pairs ss) :
    (single .tags Tag.nested.code ++ (single .nestTypes i ++ (single .nestPairCounts pairs.length ++
      (ofCalls pairs.length ++ Segment.join ss)))).Tallied 1 0 := by
  have hhead : (single .tags Tag.nested.code ++ (single .nestTypes i ++ (single .nestPairCounts pairs.length ++
      ofCalls pairs.length))).Tallied (1 - pairs.length) (-pairs.length) := by
    refine ⟨.nested_head i pairs.length, fun b hb => ?_, fun b hb => ?_⟩
    · cases b <;> first | exact Bool.noConfusion hb | simp
    · cases b <;> first | exact absurd hb (by decide) | simp
  simpa [append_assoc] using hhead.append (join h)

end Tallied

/-! ## Operands of a literal -/

/-- One value for each of the bands, and no calls. -/
structure OneEach (bs : List Band) (s : Segment) : Prop where
  length_get : ∀ b, (s.bands.get b).length = bs.count b
  calls : s.calls = 0

theorem OneEach.nil : OneEach [] .empty := ⟨fun b => by simp, rfl⟩

theorem OneEach.cons {bs : List Band} {s : Segment} (h : OneEach bs s) (b : Band) (v : Int) :
    OneEach (b :: bs) (single b v ++ s) where
  length_get b' := by
    rw [get_append, List.length_append, h.length_get, get_single, List.count_cons]
    by_cases hb : b' = b
    · simp [hb, Nat.add_comm]
    · simp [hb, Ne.symm hb]
  calls := by simp [h.calls]

/-- The tag of a literal and one value for each of its case bands. -/
theorem Tallied.literal {tag : Tag} (htag : tag.dispatch = .literal tag.cases) {s : Segment}
    (h : OneEach (tag.cases.map CaseBand.band) s) : (single .tags tag.code ++ s).Tallied 1 0 := by
  -- case bands hold no counts and are none of those ahead of the tags
  have hnil {b : Band} (hb : ∀ case : CaseBand, case.band ≠ b) : s.bands.get b = [] := by
    rw [List.eq_nil_iff_length_eq_zero, h.length_get, List.count_eq_zero, List.mem_map]
    rintro ⟨case, -, hcase⟩
    exact hb case hcase
  refine ⟨.literal htag h.length_get h.calls, fun b hb => ?_, fun b hb => ?_⟩
  · have htags : b ≠ .tags := by rintro rfl; cases hb
    rw [get_append, hnil fun case => by rintro rfl; cases case <;> cases hb]
    simp [htags]
  · have htags : b ≠ .tags := by rintro rfl; exact absurd hb (by decide)
    rw [get_append, hnil fun case => by rintro rfl; exact Band.band_notMem_top case hb]
    simp [htags]

/-! ## Conservation -/

/-- What a walk over one value uses up. -/
structure Conserved (s : Segment) : Prop where
  length_tags : (s.bands.get .tags).length = 1 + s.calls
  calls : (s.calls : Int) = (s.bands.get .arrayCounts).sum + (s.bands.get .nestPairCounts).sum
  counts : ∀ b ∈ [Band.arrayCounts, Band.nestPairCounts], ∀ n ∈ s.bands.get b, 0 ≤ n
  tags : ∀ v ∈ s.bands.get .tags, v ∈ Tag.all.map Tag.code
  length_case : ∀ case : CaseBand, (s.bands.get case.band).length = (s.bands.get .tags).countP case.isFedBy
  length_arrayCounts : (s.bands.get .arrayCounts).length = (s.bands.get .tags).count Tag.array.code
  length_nestTypes : (s.bands.get .nestTypes).length = (s.bands.get .tags).count Tag.nested.code
  length_nestPairCounts : (s.bands.get .nestPairCounts).length = (s.bands.get .tags).count Tag.nested.code
  length_nestNames : ((s.bands.get .nestNames).length : Int) = (s.bands.get .nestPairCounts).sum
  top : ∀ b ∈ Band.top, s.bands.get b = []

theorem Tallied.conserved {s : Segment} (h : s.Tallied 1 0) : s.Conserved where
  length_tags := by exact_mod_cast h.counted.length_tags
  calls := h.counted.calls
  counts b hb := h.counts b (by cases b <;> first | rfl | exact absurd hb (by decide))
  tags := h.counted.mem_tags
  length_case case := by rw [h.counted.length_case, h.counted.countP_isFedBy]
  length_arrayCounts := by rw [h.counted.length_arrayCounts, h.counted.count_code]
  length_nestTypes := by rw [h.counted.length_nestTypes, h.counted.count_code]
  length_nestPairCounts := by rw [h.counted.length_nestPairCounts, h.counted.count_code]
  length_nestNames := by rw [h.counted.length_nestNames, Int.zero_add]
  top := h.top

end Segment

/-! ## What walks pass -/

namespace Walk

open Segment (Tallied OneEach)

variable {limit : Option Nat}

theorem times_passes {walk : Walk Unit} {Q : Segment → Prop} (h : Passes limit walk fun _ s => Q s) (n : Nat) :
    Passes limit (times n walk) fun _ s =>
      ∃ ss, List.Forall₂ (fun _ s => Q s) (List.replicate n ()) ss ∧ s = .join ss := by
  induction n with
  | zero => exact .pure ⟨[], .nil, rfl⟩
  | succ n ih =>
    refine h.bind fun _ s hs => ih.imp ?_
    rintro _ _ ⟨ss, hss, rfl⟩
    exact ⟨s :: ss, .cons hs hss, rfl⟩

theorem skipEach_passes (bs : List Band) : Passes limit (skipEach bs) fun _ s => OneEach bs s := by
  induction bs with
  | nil => exact .pure .nil
  | cons b bs ih =>
    refine (next_passes b).bind ?_
    rintro v _ rfl
    exact ih.imp fun _ s hs => hs.cons b v

theorem failPastEnd_passes {α : Type} {R : α → Segment → Prop} (b : Band) : Passes limit (failPastEnd b) R := by
  intro c x d _ h
  cases h

/-- Whatever bounds the recursion, a value that is passed over follows the
rules. -/
theorem skipValueWithin_tallied (tagsAhead depth : Nat) :
    Passes limit (skipValueWithin tagsAhead depth) fun _ s => s.Tallied 1 0 := by
  induction tagsAhead generalizing depth with
  | zero => exact (checkDepth_passes depth).bind fun _ _ _ => failPastEnd_passes .tags
  | succ tagsAhead ih =>
    refine (checkDepth_passes depth).bind ?_
    rintro _ _ ⟨rfl, -⟩
    simp only [Segment.empty_append]
    refine nextTag_passes.bind ?_
    rintro tag _ rfl
    cases htag : tag.dispatch with
    | literal cases =>
      obtain rfl : tag.cases = cases := by rw [Tag.cases, htag]
      exact (skipEach_passes _).imp fun _ s hs => .literal htag hs
    | array =>
      obtain rfl : tag = .array := by cases tag <;> first | rfl | cases htag
      refine (nextCount_passes .arrayCounts).bind ?_
      rintro n _ rfl
      refine (addCalls_passes n).bind ?_
      rintro _ _ rfl
      refine (times_passes (ih (depth + 1)) n).imp ?_
      rintro _ _ ⟨ss, hss, rfl⟩
      simpa using Tallied.array hss
    | nested =>
      obtain rfl : tag = .nested := by cases tag <;> first | rfl | cases htag
      refine (next_passes .nestTypes).bind ?_
      rintro i _ rfl
      refine (nextCount_passes .nestPairCounts).bind ?_
      rintro n _ rfl
      refine (addCalls_passes n).bind ?_
      rintro _ _ rfl
      have hpair : Passes limit (next .nestNames >>= fun _ => skipValueWithin tagsAhead (depth + 1)) fun _ s =>
          s.Tallied 1 1 := by
        refine (next_passes .nestNames).bind ?_
        rintro v _ rfl
        exact (ih (depth + 1)).imp fun _ s hs => (Tallied.single_nestName v).append hs
      refine (times_passes hpair n).imp ?_
      rintro _ _ ⟨ss, hss, rfl⟩
      simpa using Tallied.nested i hss

variable {L : Type} [Resolver L] {pool : L}

theorem readOperands_passes (cases : List CaseBand) :
    Passes limit (forEach (readOperand pool) cases) fun _ s => OneEach (cases.map CaseBand.band) s := by
  induction cases with
  | nil => exact .pure .nil
  | cons case cases ih =>
    refine (readOperand_passes case).bind ?_
    rintro x _ ⟨i, -, rfl⟩
    refine ih.bind fun xs s hs => .pure ?_
    rw [Segment.append_empty]
    exact hs.cons case.band i

/-- Whatever bounds the recursion, a value that is read follows the rules. -/
theorem readValueWithin_tallied (tagsAhead depth : Nat) :
    Passes limit (readValueWithin pool tagsAhead depth) fun _ s => s.Tallied 1 0 := by
  induction tagsAhead generalizing depth with
  | zero => exact (checkDepth_passes depth).bind fun _ _ _ => failPastEnd_passes .tags
  | succ tagsAhead ih =>
    refine (checkDepth_passes depth).bind ?_
    rintro _ _ ⟨rfl, -⟩
    simp only [Segment.empty_append]
    refine nextTag_passes.bind ?_
    rintro tag _ rfl
    cases htag : tag.dispatch with
    | literal cases =>
      obtain rfl : tag.cases = cases := by rw [Tag.cases, htag]
      refine (readOperands_passes tag.cases).bind fun _ s hs => .orThrow fun v _ => ?_
      rw [Segment.append_empty]
      exact .literal htag hs
    | array =>
      obtain rfl : tag = .array := by cases tag <;> first | rfl | cases htag
      refine (nextCount_passes .arrayCounts).bind ?_
      rintro n _ rfl
      refine (addCalls_passes n).bind ?_
      rintro _ _ rfl
      refine (collect_passes (ih (depth + 1)) n).bind ?_
      rintro items _ ⟨rfl, ss, hss, rfl⟩
      refine .pure ?_
      rw [Segment.append_empty]
      exact .array hss
    | nested =>
      obtain rfl : tag = .nested := by cases tag <;> first | rfl | cases htag
      refine (readDescriptor_passes .nestTypes).bind ?_
      rintro descriptor _ ⟨i, -, rfl⟩
      refine (nextCount_passes .nestPairCounts).bind ?_
      rintro n _ rfl
      refine (addCalls_passes n).bind ?_
      rintro _ _ rfl
      have hpair : Passes limit (do
          let name ← readUtf8 pool .nestNames
          let value ← readValueWithin pool tagsAhead (depth + 1)
          return (name, value)) fun _ s => s.Tallied 1 1 := by
        refine (readUtf8_passes .nestNames).bind ?_
        rintro name _ ⟨j, -, rfl⟩
        refine (ih (depth + 1)).bind fun v s hs => .pure ?_
        rw [Segment.append_empty]
        exact (Tallied.single_nestName j).append hs
      refine (collect_passes hpair n).bind ?_
      rintro pairs _ ⟨rfl, ss, hss, rfl⟩
      refine .pure ?_
      rw [Segment.append_empty]
      exact .nested i hss

/-! ## Main theorem -/

/-- A walk over one value, by the number of levels that its recursion may take,
from one cursor. When it gets through, what it has used up fits together. It ends
ahead of the cursor and not past the end of any band, in success and failure, and
its counter of calls does not go down. And it takes no more levels than there are
tags left. -/
structure Conserves {α : Type} (walk : Walk α) (within : Nat → Walk α) (c : Cursor) : Prop where
  conserved : ∀ x d, walk c = .ok x d → ∃ s, c.Before s ∧ d = c.past s ∧ s.Conserved
  advances : ∀ d, walk.EndsAt c d → c.Advances d
  enough : ∀ tagsAhead, c.remaining .tags ≤ tagsAhead → within tagsAhead c = walk c

/-- A walk over a value that gets through counts fewer calls than it passes tags.
Since the counter never goes down, it stays below the number of tags all the way
from zero, so that a word that holds this number never wraps around. -/
theorem Conserves.calls_lt {α : Type} {walk : Walk α} {within : Nat → Walk α} {c d : Cursor} {x : α}
    (h : Conserves walk within c) (hok : walk c = .ok x d) :
    d.calls + c.position.get .tags < c.calls + d.position.get .tags ∧ d.calls < c.calls + c.remaining .tags := by
  obtain ⟨s, hbefore, rfl, hs⟩ := h.conserved x d hok
  have hlength := hbefore.length_le .tags
  have htags := hs.length_tags
  simp only [Cursor.calls_past, Cursor.position_past]
  omega

/-- Whatever the bands hold, wherever the cursor stands, and whatever its limit on
depth and the pool are: passing over a value and reading it use up values that
fit together when they succeed, go forward within the bands in any case, and end
with the tags at the latest. -/
theorem value_conserved {L : Type} [Resolver L] (pool : L) (c : Cursor) :
    Conserves skipValue (skipValueWithin · 1) c ∧ Conserves (readValue pool) (readValueWithin pool · 1) c := by
  constructor
  · constructor
    case conserved =>
      intro x d h
      obtain ⟨s, hbefore, hpast, hs⟩ := skipValueWithin_tallied (c.remaining .tags) 1 rfl h
      exact ⟨s, hbefore, hpast, hs.conserved⟩
    case advances => exact fun d h => skipValueWithin_forward (c.remaining .tags) 1 h
    case enough => exact fun _ h => skipValueWithin_enough h
  · constructor
    case conserved =>
      intro x d h
      obtain ⟨s, hbefore, hpast, hs⟩ := readValueWithin_tallied (c.remaining .tags) 1 rfl h
      exact ⟨s, hbefore, hpast, hs.conserved⟩
    case advances => exact fun d h => readValueWithin_forward pool (c.remaining .tags) 1 h
    case enough => exact fun _ h => readValueWithin_enough h

/-- An array of a number and a nested annotation, in bands with other values
around it. Behind it stands an array that counts more elements than there are
tags by far. -/
theorem value_conserved_malformed :
    let bands : Bands := { Bands.empty with
      pairCounts := [-1], tags := [7, 91, 73, 64, 115, 91], ints := [-2, 9], strings := [5],
      arrayCounts := [-5, 2, 1000000000000], nestTypes := [4], nestPairCounts := [1], nestNames := [-3] }
    let c := Cursor.ofMark bands { (PerBand.const 0 : Mark) with tags := 1, ints := 1, arrayCounts := 1 } (some 3)
    ∃ s, skipValue c = .ok () (c.past s) ∧ s.Conserved ∧ s.calls = 3 ∧
      ∃ d, skipValue (c.past s) = .error (.desync .tags 7 6) d ∧ (c.past s).Advances d := by
  intro bands c
  let d : Cursor := ⟨bands, some 3, { (PerBand.const 0 : Mark) with
    tags := 5, ints := 2, strings := 1, arrayCounts := 2, nestTypes := 1, nestPairCounts := 1, nestNames := 1 }, 3⟩
  have hok : skipValue c = .ok () d := by cbv
  obtain ⟨f, herror⟩ : ∃ f, skipValue d = .error (.desync .tags 7 6) f :=
    ⟨⟨bands, some 3, { d.position with tags := 6, arrayCounts := 3 }, 1000000000003⟩, by cbv⟩
  obtain ⟨s, -, hpast, hs⟩ := (value_conserved Pool.empty c).1.conserved () d hok
  have hcalls : d.calls = s.calls := (congrArg Cursor.calls hpast).trans (Nat.zero_add _)
  have hadvances := (value_conserved Pool.empty d).1.advances f (.inr ⟨_, herror⟩)
  rw [hpast] at hok herror hadvances
  exact ⟨s, hok, hs, hcalls.symm, f, herror, hadvances⟩

end Walk

end AnnotationBands
