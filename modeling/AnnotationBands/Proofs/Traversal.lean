import AnnotationBands.Proofs.Flat
import AnnotationBands.Proofs.Steps
import AnnotationBands.Walk.Read
import AnnotationBands.Walk.Skip
/-!
# Walks over flattened trees

A walk consumes a segment (`Consumes`) if, from every cursor right before the
segment, it gives its result and leaves the cursor right behind. What it finds
ahead of the cursor or behind the segment does not matter. Consuming is closed
under sequence and repetition. Main statements: within the depth limit, passing
over a flattened value or annotation consumes its segment
(`skipValue_consumes`, `skipRoot_consumes`), and so does reading, which gives
the tree back (`readValue_consumes`, `readRoot_consumes`).
-/

namespace AnnotationBands

namespace Cursor

/-- The segment stands at the cursor's position in every band. -/
def Before (c : Cursor) (s : Segment) : Prop := ∀ b, s.bands.get b <+: (c.bands.get b).drop (c.position.get b)

/-- The cursor behind a segment. -/
def past (c : Cursor) (s : Segment) : Cursor :=
  { c with
    position := PerBand.ofFn fun b => c.position.get b + (s.bands.get b).length
    calls := c.calls + s.calls }

@[simp] theorem bands_past (c : Cursor) (s : Segment) : (c.past s).bands = c.bands := rfl

@[simp] theorem calls_past (c : Cursor) (s : Segment) : (c.past s).calls = c.calls + s.calls := rfl

@[simp] theorem position_past (c : Cursor) (s : Segment) (b : Band) :
    (c.past s).position.get b = c.position.get b + (s.bands.get b).length := PerBand.get_ofFn _ _

theorem ext_get {c d : Cursor} (hb : c.bands = d.bands) (hm : c.maxDepth = d.maxDepth)
    (hp : ∀ b, c.position.get b = d.position.get b) (hc : c.calls = d.calls) : c = d := by
  cases c; cases d
  obtain rfl := PerBand.ext_get hp
  obtain rfl : _ = _ := hb
  obtain rfl : _ = _ := hm
  obtain rfl : _ = _ := hc
  rfl

@[simp] theorem past_empty (c : Cursor) : c.past .empty = c := ext_get rfl rfl (by simp) rfl

theorem past_append (c : Cursor) (s t : Segment) : c.past (s ++ t) = (c.past s).past t :=
  ext_get rfl rfl (by simp [Nat.add_assoc]) (by simp [Nat.add_assoc])

theorem Before.left {c : Cursor} {s t : Segment} (h : c.Before (s ++ t)) : c.Before s := fun b => by
  have := h b
  rw [Segment.get_append] at this
  exact (List.prefix_append _ _).trans this

theorem Before.right {c : Cursor} {s t : Segment} (h : c.Before (s ++ t)) : (c.past s).Before t := fun b => by
  have := h b
  rw [Segment.get_append] at this
  obtain ⟨rest, hrest⟩ := this
  rw [bands_past, position_past, ← List.drop_drop, ← hrest, List.append_assoc, List.drop_left]
  exact List.prefix_append _ _

theorem Before.getElem?_of_single {c : Cursor} {b : Band} {v : Int} (h : c.Before (.single b v)) :
    (c.bands.get b)[c.position.get b]? = some v := by
  obtain ⟨rest, hrest⟩ := h b
  have := congrArg (·[0]?) hrest
  simpa using this.symm

theorem Before.length_le {c : Cursor} {s : Segment} (h : c.Before s) (b : Band) :
    (s.bands.get b).length ≤ c.remaining b := by
  simpa [remaining] using (h b).length_le

theorem past_single (c : Cursor) (b : Band) (v : Int) :
    c.past (.single b v) = { c with position := c.position.modify b (· + 1) } := by
  refine ext_get rfl rfl (fun b' => ?_) rfl
  simp only [position_past, Segment.get_single, PerBand.get_modify]
  split <;> rfl

end Cursor

namespace Walk

/-- From every cursor right before the segment, the walk gives its result and
leaves the cursor right behind. -/
def Consumes {α : Type} (limit : Option Nat) (walk : Walk α) (s : Segment) (x : α) : Prop :=
  ∀ c : Cursor, c.maxDepth = limit → c.Before s → walk c = .ok x (c.past s)

/-! ## Steps and loops -/

section Steps

variable {limit : Option Nat} {α β : Type}

theorem Consumes.bind {walk : Walk α} {f : α → Walk β} {s t : Segment} {x : α} {y : β}
    (hx : Consumes limit walk s x) (hf : Consumes limit (f x) t y) : Consumes limit (walk >>= f) (s ++ t) y := by
  intro c hc h
  rw [bind_of_ok (hx c hc h.left), hf (c.past s) hc h.right, Cursor.past_append]

theorem Consumes.pure (x : α) : Consumes limit (pure x) .empty x := fun c _ _ => by
  rw [Cursor.past_empty]
  rfl

/-- A last step that only forms the result. -/
theorem Consumes.map {walk : Walk α} {s : Segment} {x : α} (hx : Consumes limit walk s x) (f : α → β) :
    Consumes limit (walk >>= fun x => Pure.pure (f x)) s (f x) := by
  simpa using hx.bind (f := fun x => Pure.pure (f x)) (Consumes.pure (f x))

theorem next_consumes (b : Band) (v : Int) : Consumes limit (next b) (.single b v) v := by
  intro c _ h
  rw [next, h.getElem?_of_single, Cursor.past_single]

theorem nextCount_consumes (b : Band) (n : Nat) : Consumes limit (nextCount b) (.single b n) n := by
  rw [← Segment.append_empty (.single _ _)]
  exact (next_consumes b n).bind (.pure n)

theorem nextTag_consumes (t : Tag) : Consumes limit nextTag (.single .tags t.code) t := by
  rw [← Segment.append_empty (.single _ _)]
  refine (next_consumes .tags t.code).bind ?_
  rw [Tag.ofCode?_code]
  exact .pure t

theorem addCalls_consumes (n : Nat) : Consumes limit (addCalls n) (.ofCalls n) () :=
  fun _ _ _ => congrArg _ (Cursor.ext_get rfl rfl (by simp) rfl)

/-- The depth is within the limit, if there is one. -/
def Within (limit : Option Nat) (depth : Nat) : Prop := ∀ m ∈ limit, depth ≤ m

theorem Within.mono {m n : Nat} (h : Within limit n) (hmn : m ≤ n) : Within limit m :=
  fun k hk => Nat.le_trans hmn (h k hk)

theorem Consumes.check {depth : Nat} (hd : Within limit depth) {f : Unit → Walk α} {s : Segment} {x : α}
    (hf : Consumes limit (f ()) s x) : Consumes limit (checkDepth depth >>= f) s x := by
  have hcheck : Consumes limit (checkDepth depth) .empty () := by
    intro c hc _
    rw [Cursor.past_empty, checkDepth, hc]
    cases limit with
    | none => rfl
    | some m => simp only [if_neg (Nat.not_lt.2 (hd m rfl))]
  simpa using hcheck.bind hf

theorem times_consumes {walk : Walk Unit} {xs : List β} {ss : List Segment}
    (h : List.Forall₂ (fun _ s => Consumes limit walk s ()) xs ss) :
    Consumes limit (times xs.length walk) (.join ss) () := by
  induction h with
  | nil => exact .pure ()
  | cons hs _ ih => exact hs.bind ih

theorem collect_consumes {walk : Walk α} {xs : List α} {ss : List Segment}
    (h : List.Forall₂ (fun x s => Consumes limit walk s x) xs ss) :
    Consumes limit (collect xs.length walk) (.join ss) xs := by
  induction h with
  | nil => exact .pure []
  | cons hs _ ih => exact hs.bind (ih.map _)

theorem ensureExhausted_ok {bs : List Band} {c : Cursor}
    (h : ∀ b ∈ bs, c.position.get b = (c.bands.get b).length) : ensureExhausted bs c = .ok () c := by
  induction bs with
  | nil => rfl
  | cons b bs ih =>
    obtain ⟨hb, hbs⟩ := List.forall_mem_cons.1 h
    exact (if_pos hb).trans (ih hbs)

theorem ensureExhausted_error {bs : List Band} {b : Band} (more : List Band) {c : Cursor}
    (h : ∀ b ∈ bs, c.position.get b = (c.bands.get b).length) (hb : c.position.get b ≠ (c.bands.get b).length) :
    ensureExhausted (bs ++ b :: more) c = .error (.desync b (c.position.get b) (c.bands.get b).length) c := by
  induction bs with
  | nil => exact if_neg hb
  | cons b bs ih =>
    obtain ⟨hb', hbs⟩ := List.forall_mem_cons.1 h
    exact (if_pos hb').trans (ih hbs)

end Steps

/-! ## Passing over trees -/

section Skip

variable {M : Operand → Int → Prop} {limit : Option Nat}

theorem skipEach_consumes {xs : List (CaseBand × Operand)} {s : Segment} (h : Flat.Operands M xs s) :
    Consumes limit (skipEach ((xs.map Prod.fst).map CaseBand.band)) s () := by
  induction xs generalizing s with
  | nil =>
    obtain rfl : s = .empty := h
    exact .pure ()
  | cons x xs ih =>
    obtain ⟨i, t, -, ht, rfl⟩ := h
    exact (next_consumes _ i).bind (ih ht)

/-- The number of values in a band of one of the segments is at most that in
all of them. -/
theorem length_le_join {ss : List Segment} {s : Segment} (h : s ∈ ss) (b : Band) :
    (s.bands.get b).length ≤ ((Segment.join ss).bands.get b).length := by
  obtain ⟨before, behind, rfl⟩ := List.append_of_mem h
  simp only [Segment.join_append, Segment.join_cons, Segment.get_append, List.length_append]
  omega

/-- The tag of an array pays for the level of its elements. -/
theorem length_tags_element {n fuel : Nat} {ss : List Segment} {t : Segment}
    (hfuel : ((Segment.single .tags Tag.array.code ++ (Segment.single .arrayCounts n ++ (Segment.ofCalls n ++
      Segment.join ss))).bands.get .tags).length ≤ fuel + 1) (ht : t ∈ ss) : (t.bands.get .tags).length ≤ fuel := by
  have := length_le_join ht .tags
  simp at hfuel
  omega

/-- The tag of a nested annotation pays for the level of its pairs. -/
theorem length_tags_pair {n fuel : Nat} {i j : Int} {ss : List Segment} {t : Segment}
    (hfuel : ((Segment.single .tags Tag.nested.code ++ (Segment.single .nestTypes i ++
      (Segment.single .nestPairCounts n ++ (Segment.ofCalls n ++ Segment.join ss)))).bands.get .tags).length ≤ fuel + 1)
    (ht : Segment.single .nestNames j ++ t ∈ ss) : (t.bands.get .tags).length ≤ fuel := by
  have := length_le_join ht .tags
  simp at hfuel this
  omega

/-- A value has a tag of its own, which pays for one level of the recursion. -/
theorem exists_succ_of_value {v : ElementValue} {s : Segment} {fuel : Nat} (h : Flat.Value M v s)
    (hfuel : (s.bands.get .tags).length ≤ fuel) : ∃ n, fuel = n + 1 := by
  have htags : 0 < (s.bands.get .tags).length := by
    cases v using ElementValue.induct with
    | literal v hv =>
      obtain ⟨t, -, rfl⟩ := (Flat.value_literal hv s).1 h
      simp
    | array items =>
      obtain ⟨ss, -, rfl⟩ := Flat.value_array.1 h
      simp
    | nested descriptor pairs =>
      obtain ⟨i, ss, -, -, rfl⟩ := Flat.value_nested.1 h
      simp
  exact Nat.exists_eq_succ_of_ne_zero (by omega)

/-- Passing over a flattened value, with enough tags ahead to bound the
recursion. -/
theorem skipValueWithin_consumes {v : ElementValue} {s : Segment} {fuel depth : Nat} (h : Flat.Value M v s)
    (hfuel : (s.bands.get .tags).length ≤ fuel) (hdepth : Within limit (depth + v.depth - 1)) :
    Consumes limit (skipValueWithin fuel depth) s () := by
  induction v using ElementValue.induct generalizing s fuel depth with
  | literal v hv =>
    obtain ⟨fuel, rfl⟩ := exists_succ_of_value h hfuel
    obtain ⟨t, ht, rfl⟩ := (Flat.value_literal hv s).1 h
    rw [ElementValue.depth_literal hv] at hdepth
    refine .check (hdepth.mono (by omega)) ((nextTag_consumes v.tag).bind ?_)
    have hskip : Consumes limit _ t () := skipEach_consumes ht
    rw [ElementValue.cases_zip_operands] at hskip
    simpa only [hv] using hskip
  | array items ih =>
    obtain ⟨fuel, rfl⟩ := exists_succ_of_value h hfuel
    obtain ⟨ss, hs, rfl⟩ := Flat.value_array.1 h
    simp only [ElementValue.depth] at hdepth
    refine .check (hdepth.mono (by omega)) ((nextTag_consumes .array).bind
      ((nextCount_consumes .arrayCounts items.length).bind ((addCalls_consumes _).bind (times_consumes ?_))))
    refine forall₂_imp_mem hs fun v hv s hs' hvs => ih v hv hvs (length_tags_element hfuel hs') (hdepth.mono ?_)
    have := ElementValue.depthOfItems_le.1 (Nat.le_refl _) v hv
    omega
  | nested descriptor pairs ih =>
    obtain ⟨fuel, rfl⟩ := exists_succ_of_value h hfuel
    obtain ⟨i, ss, -, hs, rfl⟩ := Flat.value_nested.1 h
    simp only [ElementValue.depth] at hdepth
    refine .check (hdepth.mono (by omega)) ((nextTag_consumes .nested).bind ((next_consumes .nestTypes i).bind
      ((nextCount_consumes .nestPairCounts pairs.length).bind ((addCalls_consumes _).bind (times_consumes ?_)))))
    refine forall₂_imp_mem hs ?_
    rintro p hp _ hs' ⟨j, t, -, ht, rfl⟩
    refine (next_consumes .nestNames j).bind (ih p hp ht (length_tags_pair hfuel hs') (hdepth.mono ?_))
    have := ElementValue.depthOfPairs_le.1 (Nat.le_refl _) p hp
    omega

theorem skipValue_consumes {v : ElementValue} {s : Segment} (h : Flat.Value M v s) (hdepth : Within limit v.depth) :
    Consumes limit skipValue s () := fun c hc hs =>
  skipValueWithin_consumes h (hs.length_le .tags) (by simpa using hdepth) c hc hs

theorem skipRoot_consumes {a : Annotation} {s : Segment} (h : Flat.Root M a s) (hdepth : Within limit a.depth) :
    Consumes limit skipRoot s () := by
  obtain ⟨i, ss, -, hs, rfl⟩ := Flat.root_iff.1 h
  refine (next_consumes .types i).bind ((nextCount_consumes .pairCounts a.pairs.length).bind (times_consumes ?_))
  refine forall₂_imp_mem hs ?_
  rintro p hp _ - ⟨j, t, -, ht, rfl⟩
  exact (next_consumes .names j).bind
    (skipValue_consumes ht (hdepth.mono (ElementValue.depthOfPairs_le.1 (Nat.le_refl _) p hp)))

end Skip

end Walk

/-! ## Reading trees back -/

/-- With the pool, an index refers to the literal. -/
def Operand.IsAt {L : Type} [Resolver L] (pool : L) (x : Operand) (i : Int) : Prop :=
  match x with
  | .constant c => Resolver.constant pool c.pool i = .ok c
  | .descriptor d => Resolver.descriptor pool i = .ok d
  | .utf8 s => Resolver.utf8 pool i = .ok s

theorem CaseBand.resolve_of_isAt {L : Type} [Resolver L] {pool : L} {case : CaseBand} {x : Operand} {i : Int}
    (hx : x.IsAt pool i) (hp : x.pool = case.pool) : case.resolve pool i = .ok x := by
  cases x with
  | constant c => cases c <;> cases case <;> first | exact congrArg (Operand.constant <$> ·) hx | cases hp
  | descriptor d => cases case <;> first | exact congrArg (Operand.descriptor <$> ·) hx | cases hp
  | utf8 s => cases case <;> first | exact congrArg (Operand.utf8 <$> ·) hx | cases hp

namespace Walk

variable {L : Type} [Resolver L] {pool : L} {limit : Option Nat}

theorem readDescriptor_consumes {b : Band} {d : String} {i : Int} (h : Operand.IsAt pool (.descriptor d) i) :
    Consumes limit (readDescriptor pool b) (.single b i) d := by
  rw [← Segment.append_empty (.single _ _)]
  refine (next_consumes b i).bind ?_
  rw [show Resolver.descriptor pool i = .ok d from h]
  exact .pure d

theorem readUtf8_consumes {b : Band} {u : String} {i : Int} (h : Operand.IsAt pool (.utf8 u) i) :
    Consumes limit (readUtf8 pool b) (.single b i) u := by
  rw [← Segment.append_empty (.single _ _)]
  refine (next_consumes b i).bind ?_
  rw [show Resolver.utf8 pool i = .ok u from h]
  exact .pure u

theorem readOperand_consumes {case : CaseBand} {x : Operand} {i : Int} (hi : x.IsAt pool i) (hx : x.pool = case.pool) :
    Consumes limit (readOperand pool case) (.single case.band i) x := by
  rw [← Segment.append_empty (.single _ _)]
  refine (next_consumes _ i).bind ?_
  rw [CaseBand.resolve_of_isAt hi hx]
  exact .pure x

theorem readOperands_consumes {xs : List (CaseBand × Operand)} {s : Segment}
    (h : Flat.Operands (Operand.IsAt pool) xs s) (hp : ∀ x ∈ xs, x.2.pool = x.1.pool) :
    Consumes limit (forEach (readOperand pool) (xs.map Prod.fst)) s (xs.map Prod.snd) := by
  induction xs generalizing s with
  | nil =>
    obtain rfl : s = .empty := h
    exact .pure []
  | cons x xs ih =>
    obtain ⟨i, t, hi, ht, rfl⟩ := h
    obtain ⟨hx, hxs⟩ := List.forall_mem_cons.1 hp
    exact (readOperand_consumes hi hx).bind ((ih ht hxs).map _)

/-- Reading a flattened value, with enough tags ahead to bound the recursion. -/
theorem readValueWithin_consumes {v : ElementValue} {s : Segment} {fuel depth : Nat}
    (h : Flat.Value (Operand.IsAt pool) v s) (hfuel : (s.bands.get .tags).length ≤ fuel)
    (hdepth : Within limit (depth + v.depth - 1)) : Consumes limit (readValueWithin pool fuel depth) s v := by
  induction v using ElementValue.induct generalizing s fuel depth with
  | literal v hv =>
    obtain ⟨fuel, rfl⟩ := exists_succ_of_value h hfuel
    obtain ⟨t, ht, rfl⟩ := (Flat.value_literal hv s).1 h
    rw [ElementValue.depth_literal hv] at hdepth
    refine .check (hdepth.mono (by omega)) ((nextTag_consumes v.tag).bind ?_)
    have hread : Consumes limit _ t _ := readOperands_consumes ht v.pool_of_mem_zip
    rw [ElementValue.cases_zip_operands, ElementValue.operands_zip_cases] at hread
    simp only [hv]
    rw [← Segment.append_empty t]
    refine hread.bind ?_
    rw [ElementValue.ofOperands_operands hv]
    exact .pure v
  | array items ih =>
    obtain ⟨fuel, rfl⟩ := exists_succ_of_value h hfuel
    obtain ⟨ss, hs, rfl⟩ := Flat.value_array.1 h
    simp only [ElementValue.depth] at hdepth
    refine .check (hdepth.mono (by omega)) ((nextTag_consumes .array).bind ((nextCount_consumes .arrayCounts
      items.length).bind ((addCalls_consumes _).bind ((collect_consumes ?_).map _))))
    refine forall₂_imp_mem hs fun v hv s hs' hvs => ih v hv hvs (length_tags_element hfuel hs') (hdepth.mono ?_)
    have := ElementValue.depthOfItems_le.1 (Nat.le_refl _) v hv
    omega
  | nested descriptor pairs ih =>
    obtain ⟨fuel, rfl⟩ := exists_succ_of_value h hfuel
    obtain ⟨i, ss, hi, hs, rfl⟩ := Flat.value_nested.1 h
    simp only [ElementValue.depth] at hdepth
    refine .check (hdepth.mono (by omega)) ((nextTag_consumes .nested).bind ((readDescriptor_consumes hi).bind
      ((nextCount_consumes .nestPairCounts pairs.length).bind ((addCalls_consumes _).bind
        ((collect_consumes ?_).map _)))))
    refine forall₂_imp_mem hs ?_
    rintro p hp _ hs' ⟨j, t, hj, ht, rfl⟩
    refine (readUtf8_consumes hj).bind ((ih p hp ht (length_tags_pair hfuel hs') (hdepth.mono ?_)).map _)
    have := ElementValue.depthOfPairs_le.1 (Nat.le_refl _) p hp
    omega

theorem readValue_consumes {v : ElementValue} {s : Segment} (h : Flat.Value (Operand.IsAt pool) v s)
    (hdepth : Within limit v.depth) : Consumes limit (readValue pool) s v := fun c hc hs =>
  readValueWithin_consumes h (hs.length_le .tags) (by simpa using hdepth) c hc hs

theorem readRoot_consumes {a : Annotation} {s : Segment} (h : Flat.Root (Operand.IsAt pool) a s)
    (hdepth : Within limit a.depth) : Consumes limit (readRoot pool) s a := by
  obtain ⟨i, ss, hi, hs, rfl⟩ := Flat.root_iff.1 h
  refine (readDescriptor_consumes hi).bind ((nextCount_consumes .pairCounts a.pairs.length).bind
    ((collect_consumes ?_).map _))
  refine forall₂_imp_mem hs ?_
  rintro p hp _ - ⟨j, t, hj, ht, rfl⟩
  exact (readUtf8_consumes hj).bind
    ((readValue_consumes ht (hdepth.mono (ElementValue.depthOfPairs_le.1 (Nat.le_refl _) p hp))).map _)

end Walk

end AnnotationBands
