import AnnotationBands.Entry
import AnnotationBands.Proofs.Entries
import AnnotationBands.Proofs.Narrowing
/-!
# What a walk passes

The converse of `Consumes`: a walk that succeeds has passed a segment, and a
relation holds of its result and the segment (`Passes`). Main statements:
whatever the bands hold, a value or annotation that is read was read from a
segment which settles just what is due for it, and when the constants in the
segment are in range, it is a segment that the tree can be flattened to
(`readValue_passes`, `readRoot_passes`).
-/

namespace AnnotationBands

namespace Cursor

/-- The values of each band ahead of the cursor. -/
def ahead (c : Cursor) : Bands := PerBand.ofFn fun b => (c.bands.get b).drop (c.position.get b)

theorem get_ahead (c : Cursor) (b : Band) : c.ahead.get b = (c.bands.get b).drop (c.position.get b) :=
  PerBand.get_ofFn _ b

theorem before_empty (c : Cursor) : c.Before .empty := by
  intro b
  rw [Segment.get_empty]
  exact List.nil_prefix

theorem Before.append {c : Cursor} {s t : Segment} (h : c.Before s) (h' : (c.past s).Before t) :
    c.Before (s ++ t) := by
  intro b
  obtain ⟨more, hmore⟩ := h b
  obtain ⟨rest, hrest⟩ := h' b
  rw [bands_past, position_past, ← List.drop_drop, ← hmore, List.drop_left] at hrest
  rw [Segment.get_append, ← hmore, ← hrest, ← List.append_assoc]
  exact List.prefix_append _ _

theorem Before.ahead_eq {c : Cursor} {s : Segment} (h : c.Before s) : c.ahead = s.bands ++ (c.past s).ahead := by
  refine PerBand.ext_get fun b => ?_
  obtain ⟨rest, hrest⟩ := h b
  rw [Bands.get_append, get_ahead, get_ahead, bands_past, position_past, ← List.drop_drop, ← hrest, List.drop_left]

end Cursor

namespace Walk

/-- A walk that succeeds has passed a segment, and the relation holds of its
result and the segment. -/
def Passes {α : Type} (limit : Option Nat) (walk : Walk α) (R : α → Segment → Prop) : Prop :=
  ∀ ⦃c : Cursor⦄ ⦃x : α⦄ ⦃c' : Cursor⦄, c.maxDepth = limit → walk c = .ok x c' →
    ∃ s, c.Before s ∧ c' = c.past s ∧ R x s

section Steps

variable {limit : Option Nat} {α β : Type} {R : α → Segment → Prop} {Q : β → Segment → Prop}

theorem Passes.bind {walk : Walk α} {f : α → Walk β} (hx : Passes limit walk R)
    (hf : ∀ x s, R x s → Passes limit (f x) fun y t => Q y (s ++ t)) : Passes limit (walk >>= f) Q := by
  intro c y c' hc h
  obtain ⟨x, d, hwalk, h⟩ := bind_eq_ok.1 h
  obtain ⟨s, hs, rfl, hR⟩ := hx hc hwalk
  have hlimit : (c.past s).maxDepth = limit := hc
  obtain ⟨t, ht, rfl, hQ⟩ := hf x s hR hlimit h
  exact ⟨s ++ t, hs.append ht, (c.past_append s t).symm, hQ⟩

theorem Passes.imp {R' : α → Segment → Prop} {walk : Walk α} (h : Passes limit walk R) (hR : ∀ x s, R x s → R' x s) :
    Passes limit walk R' := by
  intro c x c' hc hwalk
  obtain ⟨s, hs, hpast, hx⟩ := h hc hwalk
  exact ⟨s, hs, hpast, hR x s hx⟩

theorem Passes.pure {x : α} (h : R x .empty) : Passes limit (pure x) R := by
  intro c y c' _ hpure
  obtain ⟨rfl, rfl⟩ := EStateM.Result.ok.inj hpure
  exact ⟨.empty, c.before_empty, c.past_empty.symm, h⟩

theorem Passes.orThrow {r : Except BandError α} (h : ∀ x, r = .ok x → R x .empty) :
    Passes limit (BandError.orThrow r) R := by
  intro c x c' _ hr
  obtain ⟨hok, rfl⟩ := orThrow_eq_ok.1 hr
  exact ⟨.empty, c.before_empty, c.past_empty.symm, h x hok⟩

theorem next_passes (b : Band) : Passes limit (next b) fun v s => s = .single b v := by
  intro c v c' _ h
  unfold next at h
  split at h
  · rename_i w hw
    obtain ⟨rfl, rfl⟩ := EStateM.Result.ok.inj h
    refine ⟨.single b w, fun b' => ?_, (c.past_single b w).symm, rfl⟩
    rw [Segment.get_single]
    split
    · subst b'
      obtain ⟨hlt, hget⟩ := List.getElem?_eq_some_iff.1 hw
      rw [List.drop_eq_getElem_cons hlt, hget]
      exact List.prefix_append [w] _
    · exact List.nil_prefix
  · cases h

theorem nextCount_passes (b : Band) : Passes limit (nextCount b) fun n s => s = .single b n := by
  refine (next_passes b).bind ?_
  rintro v _ rfl
  cases v with
  | ofNat n => exact .pure (Segment.append_empty _)
  | negSucc n => intro c x c' _ h; cases h

theorem nextTag_passes : Passes limit nextTag fun t s => s = .single .tags t.code := by
  refine (next_passes .tags).bind ?_
  rintro v _ rfl
  split
  · rename_i t ht
    rw [Tag.code_of_ofCode? ht]
    exact .pure (Segment.append_empty _)
  · intro c x c' _ h
    cases h

theorem addCalls_passes (n : Nat) : Passes limit (addCalls n) fun _ s => s = .ofCalls n := by
  intro c x c' hc h
  have hadd := addCalls_consumes n c hc fun b => by simp
  rw [hadd] at h
  obtain ⟨-, rfl⟩ := EStateM.Result.ok.inj h
  exact ⟨.ofCalls n, fun b => by simp, rfl, rfl⟩

theorem checkDepth_passes (depth : Nat) :
    Passes limit (checkDepth depth) fun _ s => s = .empty ∧ Within limit depth := by
  intro c x c' hc h
  unfold checkDepth at h
  rw [hc] at h
  cases limit with
  | none =>
    obtain ⟨-, rfl⟩ := EStateM.Result.ok.inj h
    exact ⟨.empty, c.before_empty, c.past_empty.symm, rfl, nofun⟩
  | some m =>
    dsimp only at h
    split at h
    · cases h
    · obtain ⟨-, rfl⟩ := EStateM.Result.ok.inj h
      refine ⟨.empty, c.before_empty, c.past_empty.symm, rfl, ?_⟩
      rintro _ ⟨⟩
      omega

theorem collect_passes {walk : Walk α} (h : Passes limit walk R) (n : Nat) :
    Passes limit (collect n walk) fun xs s => xs.length = n ∧ ∃ ss, List.Forall₂ R xs ss ∧ s = .join ss := by
  induction n with
  | zero => exact .pure ⟨rfl, [], .nil, rfl⟩
  | succ n ih =>
    refine h.bind fun x s hx => ih.bind ?_
    rintro xs _ ⟨hlen, ss, hss, rfl⟩
    exact .pure ⟨congrArg (· + 1) hlen, s :: ss, .cons hx hss, by rw [Segment.append_empty, Segment.join_cons]⟩

theorem forEach_passes {walk : α → Walk β} {R : α → β → Segment → Prop} (h : ∀ x, Passes limit (walk x) (R x))
    (xs : List α) :
    Passes limit (forEach walk xs) fun ys s => ys.length = xs.length ∧
      ∃ ss, List.Forall₂ (fun p s => R p.1 p.2 s) (xs.zip ys) ss ∧ s = .join ss := by
  induction xs with
  | nil => exact .pure ⟨rfl, [], .nil, rfl⟩
  | cons x xs ih =>
    refine (h x).bind fun y s hy => ih.bind ?_
    rintro ys _ ⟨hlen, ss, hss, rfl⟩
    exact .pure ⟨congrArg (· + 1) hlen, s :: ss, .cons hy hss, by rw [Segment.append_empty, Segment.join_cons]⟩

end Steps

/-! ## Trees -/

variable {L : Type} [Resolver L] (pool : L)

/-- What is read from a segment: it settles just what is due, each of its bands
allows its values, and a relation holds as long as no constant is out of
range. -/
structure Rebuilt {α : Type} (due : Multiset Band) (F : α → Segment → Prop) (x : α) (s : Segment) : Prop where
  settles : s.bands.Settles due 0
  sound : s.bands.Sound
  tree : s.bands.InRange pool → F x s

section Rebuilt

variable {pool} {α : Type} {due mid : Multiset Band} {F F' : α → Segment → Prop} {x : α} {s t : Segment}

/-- What is read from a segment behind a piece with no reference to a 32-bit
constant. -/
theorem Rebuilt.behind {β : Type} {F' : β → Segment → Prop} {y : β} (h : Rebuilt pool mid F x t)
    (hsettles : s.bands.Settles due mid) (hsound : s.bands.Sound) (hints : due.count .ints = mid.count .ints)
    (hF : F x t → F' y (s ++ t)) : Rebuilt pool due F' y (s ++ t) where
  settles := hsettles.append h.settles
  sound := Bands.Sound.append_iff.2 ⟨hsound, h.sound⟩
  tree hrange := by
    have hboth := (hsettles.inRange_append hints).1 hrange
    exact hF (h.tree hboth.2)

/-- What is read from two segments one behind the other. -/
theorem Rebuilt.append {β γ : Type} {F' : β → Segment → Prop} {G : γ → Segment → Prop} {y : β} {z : γ}
    (h : Rebuilt pool due F x s) (h' : Rebuilt pool mid F' y t) (hints : due.count .ints = 0)
    (hG : F x s → F' y t → G z (s ++ t)) : Rebuilt pool (due + mid) G z (s ++ t) where
  settles := by
    have hfirst := h.settles.frame mid
    rw [Multiset.zero_add] at hfirst
    exact hfirst.append h'.settles
  sound := Bands.Sound.append_iff.2 ⟨h.sound, h'.sound⟩
  tree hrange := by
    have hboth := (h.settles.inRange_append (by rw [hints, Multiset.count_zero])).1 hrange
    exact hG (h.tree hboth.1) (h'.tree hboth.2)

theorem Rebuilt.empty (h : F x .empty) : Rebuilt pool 0 F x .empty :=
  ⟨Bands.Settles.empty 0, Bands.Sound.empty, fun _ => h⟩

theorem Rebuilt.join {xs : List α} {ss : List Segment} (h : List.Forall₂ (Rebuilt pool due F) xs ss)
    (hints : due.count .ints = 0) :
    Rebuilt pool (xs.length • due) (fun xs _ => List.Forall₂ F xs ss) xs (.join ss) := by
  induction h with
  | nil =>
    rw [List.length_nil, zero_nsmul]
    exact .empty .nil
  | cons hx _ ih =>
    rw [List.length_cons, succ_nsmul']
    exact hx.append ih hints .cons

end Rebuilt

variable {pool} {limit : Option Nat}

theorem readDescriptor_passes (b : Band) :
    Passes limit (readDescriptor pool b) fun d s => ∃ i, Operand.IsAt pool (.descriptor d) i ∧ s = .single b i := by
  refine (next_passes b).bind ?_
  rintro i _ rfl
  exact .orThrow fun d hd => ⟨i, hd, Segment.append_empty _⟩

theorem readUtf8_passes (b : Band) :
    Passes limit (readUtf8 pool b) fun u s => ∃ i, Operand.IsAt pool (.utf8 u) i ∧ s = .single b i := by
  refine (next_passes b).bind ?_
  rintro i _ rfl
  exact .orThrow fun u hu => ⟨i, hu, Segment.append_empty _⟩

/-! ### Literals -/

/-- What is found in a case band is the operand at the index, if it comes from
the index space that the band points into. -/
theorem isAt_of_resolve {case : CaseBand} {x : Operand} {i : Int} (h : case.resolve pool i = .ok x)
    (hpool : x.pool = case.pool) : x.IsAt pool i := by
  cases case with
  | classLiteral | enumType =>
    obtain ⟨d, hd, rfl⟩ := map_eq_ok.1 h
    exact hd
  | enumName | string =>
    obtain ⟨u, hu, rfl⟩ := map_eq_ok.1 h
    exact hu
  | _ =>
    obtain ⟨c, hc, rfl⟩ := map_eq_ok.1 h
    rw [Operand.IsAt, show c.pool = _ from hpool]
    exact hc

/-- An operand found in its case band. -/
def OperandAt (pool : L) (case : CaseBand) (x : Operand) (s : Segment) : Prop :=
  ∃ i, case.resolve pool i = .ok x ∧ s = .single case.band i

theorem readOperand_passes (case : CaseBand) : Passes limit (readOperand pool case) (OperandAt pool case) := by
  refine (next_passes case.band).bind ?_
  rintro i _ rfl
  exact .orThrow fun x hx => ⟨i, hx, Segment.append_empty _⟩

/-- References to operands settle one value in each of their bands. -/
theorem settles_operands {xs : List (CaseBand × Operand)} {ss : List Segment}
    (h : List.Forall₂ (fun p s => OperandAt pool p.1 p.2 s) xs ss) :
    (Segment.join ss).bands.Settles ((xs.map Prod.fst).map CaseBand.band : List Band) 0 ∧
      (Segment.join ss).bands.Sound := by
  induction h with
  | nil => exact ⟨Bands.Settles.empty 0, Bands.Sound.empty⟩
  | @cons x s xs ss hx hxs ih =>
    obtain ⟨i, -, rfl⟩ := hx
    have htags : x.1.band ≠ .tags := by cases x.1 <;> decide
    have hcount : x.1.band.isCount = false := by cases x.1 <;> rfl
    exact ⟨(Bands.Settles.value htags hcount i _).append ih.1,
      Bands.Sound.append_iff.2 ⟨Bands.Sound.single_iff.2 (Band.allows_value htags hcount i), ih.2⟩⟩

theorem operands_of_resolve {xs : List (CaseBand × Operand)} {ss : List Segment}
    (h : List.Forall₂ (fun p s => OperandAt pool p.1 p.2 s) xs ss)
    (hpool : ∀ p ∈ xs, p.2.pool = p.1.pool) : Flat.Operands (Operand.IsAt pool) xs (.join ss) := by
  induction h with
  | nil => rfl
  | @cons x s xs ss hx _ ih =>
    obtain ⟨i, hi, rfl⟩ := hx
    obtain ⟨hfirst, hrest⟩ := List.forall_mem_cons.1 hpool
    exact ⟨i, _, isAt_of_resolve hi hfirst, ih hrest, rfl⟩

/-! ### Values -/

/-- A value read at the given depth. -/
def ValueAt (pool : L) (limit : Option Nat) (depth : Nat) (v : ElementValue) (s : Segment) : Prop :=
  Within limit (depth + v.depth - 1) ∧ Flat.Value (Operand.IsAt pool) v s

/-- A named value read at the given depth. -/
def PairAt (pool : L) (limit : Option Nat) (nameBand : Band) (depth : Nat) (p : String × ElementValue) (s : Segment) :
    Prop :=
  Within limit (depth + p.2.depth - 1) ∧ Flat.Pair (Operand.IsAt pool) nameBand p s

/-- The tag of a literal and the operands found behind it. -/
theorem literal_rebuilt {tag : Tag} (htag : tag.dispatch = .literal tag.cases) {ops : List Operand} {ss : List Segment}
    (hlen : ops.length = tag.cases.length)
    (h : List.Forall₂ (fun p s => OperandAt pool p.1 p.2 s) (tag.cases.zip ops) ss)
    {v : ElementValue} (hv : ElementValue.ofOperands? tag ops = some v) {depth : Nat} (hdepth : Within limit depth) :
    Rebuilt pool {.tags} (ValueAt pool limit depth) v (.single .tags tag.code ++ .join ss) := by
  obtain ⟨rfl, hpools, hops⟩ := ElementValue.operands_of_ofOperands? hv
  have hfst : (v.tag.cases.zip ops).map Prod.fst = v.tag.cases := List.map_fst_zip (Nat.le_of_eq hlen.symm)
  obtain ⟨hsettles, hsound⟩ := settles_operands h
  rw [hfst, ← Tag.targets_literal htag] at hsettles
  have htarget := Bands.Settles.tag v.tag 0
  rw [Multiset.add_zero] at htarget
  refine ⟨htarget.append hsettles, ?_, fun hrange => ⟨?_, ?_⟩⟩
  · exact Bands.Sound.append_iff.2 ⟨Bands.Sound.single_iff.2 (Band.allows_tag v.tag), hsound⟩
  · rwa [ElementValue.depth_literal htag, Nat.add_sub_cancel]
  -- with its constant in range, the literal has the operands that were found
  have hfound : v.operands = ops := by
    refine hops ?_
    rintro w rfl
    obtain ⟨case, hcase, hint⟩ := List.map_eq_singleton_iff.1 hpools.symm
    obtain rfl : case = .int := by cases case <;> first | rfl | cases hint
    rw [hcase] at h
    obtain ⟨_, _, ⟨i, hi, rfl⟩, hnil, rfl⟩ := List.forall₂_cons_left_iff.1 h
    obtain rfl := List.forall₂_nil_left_iff.1 hnil
    refine hrange (v.tag, i) ?_ w (isAt_of_resolve hi rfl)
    simp [Bands.intReferences, Segment.tagList_single_tag, hcase, CaseBand.band]
  refine (Flat.value_literal htag _).2 ⟨_, ?_, rfl⟩
  rw [hfound]
  exact operands_of_resolve h (hfound ▸ v.pool_of_mem_zip)

theorem pair_passes {nameBand : Band} (hname : nameBand = .names ∨ nameBand = .nestNames) {depth : Nat}
    {walk : Walk ElementValue} (h : Passes limit walk (Rebuilt pool {.tags} (ValueAt pool limit depth))) :
    Passes limit (do
      let name ← readUtf8 pool nameBand
      let value ← walk
      return (name, value)) (Rebuilt pool {nameBand, .tags} (PairAt pool limit nameBand depth)) := by
  have htags : nameBand ≠ .tags := by rcases hname with rfl | rfl <;> decide
  have hcount : nameBand.isCount = false := by rcases hname with rfl | rfl <;> rfl
  have hints : nameBand ≠ .ints := by rcases hname with rfl | rfl <;> decide
  refine (readUtf8_passes nameBand).bind ?_
  rintro name _ ⟨i, hi, rfl⟩
  refine h.bind fun v t hv => .pure ?_
  rw [Segment.append_empty]
  refine hv.behind (Bands.Settles.value htags hcount i _)
    (Bands.Sound.single_iff.2 (Band.allows_value htags hcount i)) ?_ ?_
  · exact Multiset.count_cons_of_ne hints.symm {.tags}
  · rintro ⟨hdepth, hflat⟩
    exact ⟨hdepth, i, t, hi, hflat, rfl⟩

/-- The tag and the count of an array leave its elements due. -/
theorem array_head (n : Nat) :
    let head := Segment.single .tags Tag.array.code ++ (.single .arrayCounts n ++ .ofCalls n)
    head.bands.Settles {.tags} (n • {.tags}) ∧ head.bands.Sound := by
  intro head
  have htag := Bands.Settles.tag .array 0
  have hcount := Bands.Settles.count (k := .arrayCounts) (by decide) n 0
  rw [Multiset.add_zero] at htag hcount
  refine ⟨htag.append (hcount.append (Bands.Settles.empty _)), ?_⟩
  refine Bands.Sound.append_iff.2 ⟨Bands.Sound.single_iff.2 (Band.allows_tag .array), ?_⟩
  exact Bands.Sound.append_iff.2 ⟨Bands.Sound.single_iff.2 (Band.allows_count (by decide) n), Bands.Sound.empty⟩

/-- The tag, the type and the count of a nested annotation leave its pairs
due. -/
theorem nested_head (i : Int) (n : Nat) :
    let head := Segment.single .tags Tag.nested.code ++ (.single .nestTypes i ++
      (.single .nestPairCounts n ++ .ofCalls n))
    head.bands.Settles {.tags} (n • {.nestNames, .tags}) ∧ head.bands.Sound := by
  intro head
  have htag := Bands.Settles.tag .nested 0
  have hcount := Bands.Settles.count (k := .nestPairCounts) (by decide) n 0
  rw [Multiset.add_zero] at htag hcount
  have htype := Bands.Settles.value (k := .nestTypes) (by decide) rfl i {.nestPairCounts}
  refine ⟨htag.append (htype.append (hcount.append (Bands.Settles.empty _))), ?_⟩
  refine Bands.Sound.append_iff.2 ⟨Bands.Sound.single_iff.2 (Band.allows_tag .nested), ?_⟩
  refine Bands.Sound.append_iff.2 ⟨Bands.Sound.single_iff.2 (Band.allows_value (by decide) rfl i), ?_⟩
  exact Bands.Sound.append_iff.2 ⟨Bands.Sound.single_iff.2 (Band.allows_count (by decide) n), Bands.Sound.empty⟩

theorem Within.array {depth : Nat} {items : List ElementValue} (h : Within limit depth)
    (hitems : ∀ v ∈ items, Within limit (depth + 1 + v.depth - 1)) :
    Within limit (depth + (ElementValue.array items).depth - 1) := by
  intro m hm
  have hdepth := h m hm
  have hdeepest : ElementValue.depthOfItems items ≤ m - depth := by
    refine ElementValue.depthOfItems_le.2 fun v hv => ?_
    have := hitems v hv m hm
    omega
  rw [ElementValue.depth]
  omega

theorem Within.nested {depth : Nat} {descriptor : String} {pairs : List (String × ElementValue)}
    (h : Within limit depth) (hpairs : ∀ p ∈ pairs, Within limit (depth + 1 + p.2.depth - 1)) :
    Within limit (depth + (ElementValue.nested descriptor pairs).depth - 1) := by
  intro m hm
  have hdepth := h m hm
  have hdeepest : ElementValue.depthOfPairs pairs ≤ m - depth := by
    refine ElementValue.depthOfPairs_le.2 fun p hp => ?_
    have := hpairs p hp m hm
    omega
  rw [ElementValue.depth]
  omega

/-- An array, read from its tag, its count and its elements. -/
theorem array_rebuilt {depth : Nat} (hdepth : Within limit depth) {items : List ElementValue} {ss : List Segment}
    (h : List.Forall₂ (Rebuilt pool {.tags} (ValueAt pool limit (depth + 1))) items ss) :
    Rebuilt pool {.tags} (ValueAt pool limit depth) (.array items) (.single .tags Tag.array.code ++
      (.single .arrayCounts items.length ++ (.ofCalls items.length ++ .join ss))) := by
  obtain ⟨hsettles, hsound⟩ := array_head items.length
  rw [← Segment.append_assoc (.single .arrayCounts _), ← Segment.append_assoc]
  refine (Rebuilt.join h rfl).behind hsettles hsound ?_ fun hitems => ?_
  · rw [Multiset.count_nsmul]
    rfl
  · obtain ⟨hdepths, hflat⟩ := (List.forall₂_and_left _ _).1 hitems
    refine ⟨hdepth.array hdepths, Flat.value_array.2 ⟨ss, hflat, ?_⟩⟩
    simp only [Segment.append_assoc]

/-- A nested annotation, read from its tag, its type, its count and its
pairs. -/
theorem nested_rebuilt {descriptor : String} {i : Int} (hi : Operand.IsAt pool (.descriptor descriptor) i) {depth : Nat}
    (hdepth : Within limit depth) {pairs : List (String × ElementValue)} {ss : List Segment}
    (h : List.Forall₂ (Rebuilt pool {.nestNames, .tags} (PairAt pool limit .nestNames (depth + 1))) pairs ss) :
    Rebuilt pool {.tags} (ValueAt pool limit depth) (.nested descriptor pairs) (.single .tags Tag.nested.code ++
      (.single .nestTypes i ++ (.single .nestPairCounts pairs.length ++ (.ofCalls pairs.length ++ .join ss)))) := by
  obtain ⟨hsettles, hsound⟩ := nested_head i pairs.length
  rw [← Segment.append_assoc (.single .nestPairCounts _), ← Segment.append_assoc (.single .nestTypes _),
    ← Segment.append_assoc]
  refine (Rebuilt.join h rfl).behind hsettles hsound ?_ fun hpairs => ?_
  · rw [Multiset.count_nsmul]
    rfl
  · obtain ⟨hdepths, hflat⟩ := (List.forall₂_and_left _ _).1 hpairs
    refine ⟨hdepth.nested hdepths, Flat.value_nested.2 ⟨i, ss, hi, hflat, ?_⟩⟩
    simp only [Segment.append_assoc]

/-- Whatever bounds the recursion, a value that is read settles one tag. -/
theorem readValueWithin_passes (fuel depth : Nat) :
    Passes limit (readValueWithin pool fuel depth) (Rebuilt pool {.tags} (ValueAt pool limit depth)) := by
  induction fuel generalizing depth with
  | zero =>
    intro c x c' _ h
    obtain ⟨_, d, _, hfail⟩ := bind_eq_ok.1 h
    cases hfail
  | succ fuel ih =>
    refine (checkDepth_passes depth).bind ?_
    rintro _ _ ⟨rfl, hdepth⟩
    simp only [Segment.empty_append]
    refine nextTag_passes.bind ?_
    rintro tag _ rfl
    split
    case h_1 cases htag =>
      obtain rfl : tag.cases = cases := by rw [Tag.cases, htag]
      refine (forEach_passes readOperand_passes tag.cases).bind ?_
      rintro ops _ ⟨hlen, ss, hss, rfl⟩
      refine .orThrow fun v hv => ?_
      rw [Segment.append_empty]
      exact literal_rebuilt htag hlen hss (ElementValue.ofOperands_eq_ok.1 hv) hdepth
    case h_2 htag =>
      obtain rfl : tag = .array := by cases tag <;> first | rfl | cases htag
      refine (nextCount_passes .arrayCounts).bind ?_
      rintro n _ rfl
      refine (addCalls_passes n).bind ?_
      rintro _ _ rfl
      refine (collect_passes (ih (depth + 1)) n).bind ?_
      rintro items _ ⟨rfl, ss, hss, rfl⟩
      refine .pure ?_
      rw [Segment.append_empty]
      exact array_rebuilt hdepth hss
    case h_3 htag =>
      obtain rfl : tag = .nested := by cases tag <;> first | rfl | cases htag
      refine (readDescriptor_passes .nestTypes).bind ?_
      rintro descriptor _ ⟨i, hi, rfl⟩
      refine (nextCount_passes .nestPairCounts).bind ?_
      rintro n _ rfl
      refine (addCalls_passes n).bind ?_
      rintro _ _ rfl
      refine (collect_passes (pair_passes (.inr rfl) (ih (depth + 1))) n).bind ?_
      rintro pairs _ ⟨rfl, ss, hss, rfl⟩
      refine .pure ?_
      rw [Segment.append_empty]
      exact nested_rebuilt hi hdepth hss

theorem readValue_passes : Passes limit (readValue pool) (Rebuilt pool {.tags} (ValueAt pool limit 1)) :=
  fun c _ _ hc h => readValueWithin_passes (c.remaining .tags) 1 hc h

/-! ### Annotations -/

/-- An annotation that is read within the depth limit. -/
def RootAt (pool : L) (limit : Option Nat) (a : Annotation) (s : Segment) : Prop :=
  Within limit a.depth ∧ Flat.Root (Operand.IsAt pool) a s

/-- The type and the count of an annotation leave its pairs due. -/
theorem root_head (i : Int) (n : Nat) :
    let head := Segment.single .types i ++ .single .pairCounts n
    head.bands.Settles {.types, .pairCounts} (n • {.names, .tags}) ∧ head.bands.Sound := by
  intro head
  have htype := Bands.Settles.value (k := .types) (by decide) rfl i {.pairCounts}
  have hcount := Bands.Settles.count (k := .pairCounts) (by decide) n 0
  rw [Multiset.add_zero] at hcount
  refine ⟨htype.append hcount, Bands.Sound.append_iff.2 ⟨?_, ?_⟩⟩
  · exact Bands.Sound.single_iff.2 (Band.allows_value (by decide) rfl i)
  · exact Bands.Sound.single_iff.2 (Band.allows_count (by decide) n)

theorem readRoot_passes :
    Passes limit (readRoot pool) (Rebuilt pool {.types, .pairCounts} (RootAt pool limit)) := by
  refine (readDescriptor_passes .types).bind ?_
  rintro descriptor _ ⟨i, hi, rfl⟩
  refine (nextCount_passes .pairCounts).bind ?_
  rintro n _ rfl
  refine (collect_passes (pair_passes (.inl rfl) readValue_passes) n).bind ?_
  rintro pairs _ ⟨rfl, ss, hss, rfl⟩
  refine .pure ?_
  obtain ⟨hsettles, hsound⟩ := root_head i pairs.length
  rw [Segment.append_empty, ← Segment.append_assoc]
  refine (Rebuilt.join hss rfl).behind hsettles hsound ?_ fun hpairs => ?_
  · rw [Multiset.count_nsmul]
    rfl
  · obtain ⟨hdepths, hflat⟩ := (List.forall₂_and_left _ _).1 hpairs
    refine ⟨fun m hm => ElementValue.depthOfPairs_le.2 fun p hp => ?_, Flat.root_iff.2 ⟨i, ss, hi, hflat, ?_⟩⟩
    · simpa using hdepths p hp m hm
    · rw [Segment.append_assoc]

end Walk

end AnnotationBands
