import Mathlib
import AnnotationBands.Segment
/-!
# Flattened trees

`Flat.Value`, `Flat.Root` and their companions say which segments a tree may be
flattened to, whatever the pool: each reference has to stand for its literal,
in a relation `M` between literals and indices. A pool gives such a relation
(`References`), which interning extends. Main statements: flattening a tree
gives one of its segments, or fails because the tree is too deep
(`Flatten.value_yields`, `Flatten.roots_yields`).
-/

namespace AnnotationBands

/-- Elements that a relation pairs are members of their lists. -/
theorem forall₂_imp_mem {α β : Type} {R S : α → β → Prop} {xs : List α} {ys : List β} (h : List.Forall₂ R xs ys)
    (hS : ∀ x ∈ xs, ∀ y ∈ ys, R x y → S x y) : List.Forall₂ S xs ys := by
  induction h with
  | nil => exact .nil
  | cons hxy _ ih =>
    refine .cons (hS _ List.mem_cons_self _ List.mem_cons_self hxy) (ih fun x hx y hy => ?_)
    exact hS x (List.mem_cons_of_mem _ hx) y (List.mem_cons_of_mem _ hy)

/-! ## Segments one behind the other -/

namespace Segment

theorem ext_get {s t : Segment} (h : ∀ b, s.bands.get b = t.bands.get b) (hc : s.calls = t.calls) : s = t := by
  cases s; cases t
  obtain rfl := PerBand.ext_get h
  obtain rfl : _ = _ := hc
  rfl

@[simp] theorem get_append (s t : Segment) (b : Band) : (s ++ t).bands.get b = s.bands.get b ++ t.bands.get b :=
  Bands.get_append _ _ _

@[simp] theorem calls_append (s t : Segment) : (s ++ t).calls = s.calls + t.calls := rfl

@[simp] theorem get_empty (b : Band) : empty.bands.get b = [] := Bands.get_empty b

@[simp] theorem calls_empty : empty.calls = 0 := rfl

@[simp] theorem get_single (b b' : Band) (v : Int) : (single b v).bands.get b' = if b' = b then [v] else [] :=
  Bands.get_single _ _ _

@[simp] theorem calls_single (b : Band) (v : Int) : (single b v).calls = 0 := rfl

@[simp] theorem get_ofCalls (n : Nat) (b : Band) : (ofCalls n).bands.get b = [] := Bands.get_empty b

@[simp] theorem calls_ofCalls (n : Nat) : (ofCalls n).calls = n := rfl

@[simp] theorem empty_append (s : Segment) : empty ++ s = s := ext_get (by simp) (by simp)

@[simp] theorem append_empty (s : Segment) : s ++ empty = s := ext_get (by simp) (by simp)

theorem append_assoc (s t u : Segment) : s ++ t ++ u = s ++ (t ++ u) :=
  ext_get (by simp) (by simp [Nat.add_assoc])

/-- Some values in one band. -/
def values (b : Band) (vs : List Int) : Segment := ⟨PerBand.ofFn fun b' => if b' = b then vs else [], 0⟩

@[simp] theorem get_values (b b' : Band) (vs : List Int) :
    (values b vs).bands.get b' = if b' = b then vs else [] := PerBand.get_ofFn _ _

@[simp] theorem calls_values (b : Band) (vs : List Int) : (values b vs).calls = 0 := rfl

theorem values_nil (b : Band) : values b [] = empty := ext_get (by simp) rfl

theorem values_cons (b : Band) (v : Int) (vs : List Int) : values b (v :: vs) = single b v ++ values b vs := by
  refine ext_get (fun b' => ?_) rfl
  by_cases h : b' = b <;> simp [h]

/-- Segments that share no band can stand in either order. -/
theorem append_comm_of_disjoint {s t : Segment} (h : ∀ b, s.bands.get b = [] ∨ t.bands.get b = []) :
    s ++ t = t ++ s := by
  refine ext_get (fun b => ?_) (Nat.add_comm _ _)
  rcases h b with hb | hb <;> simp [hb]

/-- Segments one behind the other. -/
def join : List Segment → Segment
  | [] => empty
  | s :: more => s ++ join more

@[simp] theorem join_nil : join [] = empty := rfl

@[simp] theorem join_cons (s : Segment) (more : List Segment) : join (s :: more) = s ++ join more := rfl

@[simp] theorem join_append (ss ts : List Segment) : join (ss ++ ts) = join ss ++ join ts := by
  induction ss with
  | nil => simp
  | cons s ss ih => simp [ih, append_assoc]

theorem calls_join (ss : List Segment) : (join ss).calls = (ss.map calls).sum := by
  induction ss with
  | nil => rfl
  | cons s ss ih => simp [ih]

end Segment

/-! ## Value trees -/

namespace ElementValue

/-- Induction over values: literals, arrays by their elements, nested
annotations by the values of their pairs. -/
@[elab_as_elim]
theorem induct {motive : ElementValue → Prop}
    (literal : ∀ v : ElementValue, v.tag.dispatch = .literal v.tag.cases → motive v)
    (array : ∀ items, (∀ v ∈ items, motive v) → motive (.array items))
    (nested : ∀ descriptor pairs, (∀ p ∈ pairs, motive p.2) → motive (.nested descriptor pairs))
    (v : ElementValue) : motive v :=
  @ElementValue.rec motive (fun items => ∀ v ∈ items, motive v) (fun pairs => ∀ p ∈ pairs, motive p.2)
    (fun p => motive p.2)
    (fun _ => literal _ rfl) (fun _ => literal _ rfl) (fun _ => literal _ rfl) (fun _ => literal _ rfl)
    (fun _ => literal _ rfl) (fun _ => literal _ rfl) (fun _ => literal _ rfl) (fun _ => literal _ rfl)
    (fun _ => literal _ rfl) (fun _ _ => literal _ rfl) (fun _ => literal _ rfl)
    array nested
    (by simp) (fun _ _ hv hvs => List.forall_mem_cons.2 ⟨hv, hvs⟩)
    (by simp) (fun _ _ hp hps => List.forall_mem_cons.2 ⟨hp, hps⟩)
    (fun _ _ hv => hv) v

theorem depth_literal {v : ElementValue} (h : v.tag.dispatch = .literal v.tag.cases) : v.depth = 1 := by
  cases v <;> first | rfl | cases h

theorem backwardCalls_literal {v : ElementValue} (h : v.tag.dispatch = .literal v.tag.cases) :
    v.backwardCalls = 0 := by
  cases v <;> first | rfl | cases h

theorem length_operands (v : ElementValue) : v.operands.length = v.tag.cases.length := by
  simpa using congrArg List.length v.operands_pool

theorem cases_zip_operands (v : ElementValue) : (v.tag.cases.zip v.operands).map Prod.fst = v.tag.cases :=
  List.map_fst_zip (Nat.le_of_eq v.length_operands.symm)

theorem operands_zip_cases (v : ElementValue) : (v.tag.cases.zip v.operands).map Prod.snd = v.operands :=
  List.map_snd_zip (Nat.le_of_eq v.length_operands)

theorem pool_of_mem_zip (v : ElementValue) : ∀ x ∈ v.tag.cases.zip v.operands, x.2.pool = x.1.pool := by
  cases v <;> simp [tag, operands, Tag.cases, Tag.dispatch, Operand.pool, CaseBand.pool, Constant.pool]

theorem ofOperands_operands {v : ElementValue} (h : v.tag.dispatch = .literal v.tag.cases) :
    ofOperands v.tag v.operands = .ok v := by
  cases v with
  | byte v => simp [ofOperands, ofOperands?, tag, operands]
  | char v => simp [ofOperands, ofOperands?, tag, operands]
  | short v => simp [ofOperands, ofOperands?, tag, operands]
  | boolean v => cases v <;> rfl
  | array _ | nested _ _ => cases h
  | _ => rfl

theorem depthOfItems_le {items : List ElementValue} {n : Nat} :
    depthOfItems items ≤ n ↔ ∀ v ∈ items, v.depth ≤ n := by
  induction items with
  | nil => simp [depthOfItems]
  | cons v vs ih => rw [depthOfItems, Nat.max_le, ih, List.forall_mem_cons]

theorem depthOfPairs_le {pairs : List (String × ElementValue)} {n : Nat} :
    depthOfPairs pairs ≤ n ↔ ∀ p ∈ pairs, p.2.depth ≤ n := by
  induction pairs with
  | nil => simp [depthOfPairs]
  | cons p ps ih => rw [depthOfPairs, Nat.max_le, ih, List.forall_mem_cons]

theorem add_depth_literal_le {v : ElementValue} (h : v.tag.dispatch = .literal v.tag.cases) {depth limit : Nat} :
    depth + v.depth ≤ limit + 1 ↔ depth ≤ limit ∧ True := by
  rw [depth_literal h, Nat.add_le_add_iff_right, and_true]

/-- An array fits a limit on depth when it lies within the limit itself and its
elements fit one level below. -/
theorem add_depth_array_le {items : List ElementValue} {depth limit : Nat} :
    depth + (array items).depth ≤ limit + 1 ↔ depth ≤ limit ∧ ∀ v ∈ items, depth + 1 + v.depth ≤ limit + 1 := by
  have hitems := @depthOfItems_le items (limit - depth)
  simp only [ElementValue.depth]
  constructor
  · intro h
    refine ⟨by omega, fun v hv => ?_⟩
    have := hitems.1 (by omega) v hv
    omega
  · rintro ⟨h, hv⟩
    have := hitems.2 fun v hmem => by have := hv v hmem; omega
    omega

/-- A nested annotation fits a limit on depth when it lies within the limit
itself and the values of its pairs fit one level below. -/
theorem add_depth_nested_le {descriptor : String} {pairs : List (String × ElementValue)} {depth limit : Nat} :
    depth + (nested descriptor pairs).depth ≤ limit + 1 ↔
      depth ≤ limit ∧ ∀ p ∈ pairs, depth + 1 + p.2.depth ≤ limit + 1 := by
  have hpairs := @depthOfPairs_le pairs (limit - depth)
  simp only [ElementValue.depth]
  constructor
  · intro h
    refine ⟨by omega, fun p hp => ?_⟩
    have := hpairs.1 (by omega) p hp
    omega
  · rintro ⟨h, hp⟩
    have := hpairs.2 fun p hmem => by have := hp p hmem; omega
    omega

end ElementValue

/-! ## The segments of a tree -/

namespace Flat

variable (M : Operand → Int → Prop)

/-- References to literals, each in its case band. -/
def Operands : List (CaseBand × Operand) → Segment → Prop
  | [], s => s = Segment.empty
  | (case, x) :: more, s => ∃ i t, M x i ∧ Operands more t ∧ s = Segment.single case.band i ++ t

mutual

/-- The segments that a value may be flattened to. -/
def Value : ElementValue → Segment → Prop
  | .array elements, s => ∃ t, Items elements t ∧ s = Segment.single .tags Tag.array.code ++
      Segment.single .arrayCounts elements.length ++ Segment.ofCalls elements.length ++ t
  | .nested descriptor named, s => ∃ i t, M (.descriptor descriptor) i ∧ Pairs .nestNames named t ∧
      s = Segment.single .tags Tag.nested.code ++ Segment.single .nestTypes i ++
        Segment.single .nestPairCounts named.length ++ Segment.ofCalls named.length ++ t
  | literal, s => ∃ t, Operands M (literal.tag.cases.zip literal.operands) t ∧
      s = Segment.single .tags literal.tag.code ++ t

/-- The segments of values one after the other. -/
def Items : List ElementValue → Segment → Prop
  | [], s => s = Segment.empty
  | v :: vs, s => ∃ t u, Value v t ∧ Items vs u ∧ s = t ++ u

/-- The segments of named values one after the other, the names in the given
band. -/
def Pairs (nameBand : Band) : List (String × ElementValue) → Segment → Prop
  | [], s => s = Segment.empty
  | (name, v) :: more, s => ∃ i t u, M (.utf8 name) i ∧ Value v t ∧ Pairs nameBand more u ∧
      s = Segment.single nameBand i ++ t ++ u

end

/-- The segments of one named value. -/
def Pair (nameBand : Band) (p : String × ElementValue) (s : Segment) : Prop :=
  ∃ i t, M (.utf8 p.1) i ∧ Value M p.2 t ∧ s = Segment.single nameBand i ++ t

/-- The segments of an annotation that is not nested in another. -/
def Root (a : Annotation) (s : Segment) : Prop :=
  ∃ i t, M (.descriptor a.descriptor) i ∧ Pairs M .names a.pairs t ∧
    s = Segment.single .types i ++ Segment.single .pairCounts a.pairs.length ++ t

variable {M}

theorem value_literal {v : ElementValue} (h : v.tag.dispatch = .literal v.tag.cases) (s : Segment) :
    Value M v s ↔ ∃ t, Operands M (v.tag.cases.zip v.operands) t ∧ s = Segment.single .tags v.tag.code ++ t := by
  cases v <;> first | exact Iff.rfl | cases h

theorem items_iff {vs : List ElementValue} {s : Segment} :
    Items M vs s ↔ ∃ ss, List.Forall₂ (Value M) vs ss ∧ s = Segment.join ss := by
  induction vs generalizing s with
  | nil => simp [Items]
  | cons v vs ih =>
    simp only [Items, ih, List.forall₂_cons_left_iff]
    constructor
    · rintro ⟨t, _, hv, ⟨ss, hs, rfl⟩, rfl⟩
      exact ⟨t :: ss, ⟨t, ss, hv, hs, rfl⟩, rfl⟩
    · rintro ⟨_, ⟨t, ss, hv, hs, rfl⟩, rfl⟩
      exact ⟨t, _, hv, ⟨ss, hs, rfl⟩, rfl⟩

theorem pairs_iff {nameBand : Band} {ps : List (String × ElementValue)} {s : Segment} :
    Pairs M nameBand ps s ↔ ∃ ss, List.Forall₂ (Pair M nameBand) ps ss ∧ s = Segment.join ss := by
  induction ps generalizing s with
  | nil => simp [Pairs]
  | cons p ps ih =>
    simp only [Pairs, ih, List.forall₂_cons_left_iff]
    constructor
    · rintro ⟨i, t, _, hi, hv, ⟨ss, hs, rfl⟩, rfl⟩
      exact ⟨_ :: ss, ⟨_, ss, ⟨i, t, hi, hv, rfl⟩, hs, rfl⟩, rfl⟩
    · rintro ⟨_, ⟨_, ss, ⟨i, t, hi, hv, rfl⟩, hs, rfl⟩, rfl⟩
      exact ⟨i, t, _, hi, hv, ⟨ss, hs, rfl⟩, rfl⟩

/-- An array's segment is its tag, its count and the segments of its elements. -/
theorem value_array {items : List ElementValue} {s : Segment} :
    Value M (.array items) s ↔ ∃ ss, List.Forall₂ (Value M) items ss ∧
      s = Segment.single .tags Tag.array.code ++ (Segment.single .arrayCounts items.length ++
        (Segment.ofCalls items.length ++ Segment.join ss)) := by
  simp only [Value, items_iff, Segment.append_assoc]
  constructor
  · rintro ⟨_, ⟨ss, hs, rfl⟩, rfl⟩
    exact ⟨ss, hs, rfl⟩
  · rintro ⟨ss, hs, rfl⟩
    exact ⟨_, ⟨ss, hs, rfl⟩, rfl⟩

/-- A nested annotation's segment is its tag, its type, its count and the
segments of its pairs. -/
theorem value_nested {descriptor : String} {pairs : List (String × ElementValue)} {s : Segment} :
    Value M (.nested descriptor pairs) s ↔ ∃ i ss, M (.descriptor descriptor) i ∧
      List.Forall₂ (Pair M .nestNames) pairs ss ∧
      s = Segment.single .tags Tag.nested.code ++ (Segment.single .nestTypes i ++
        (Segment.single .nestPairCounts pairs.length ++ (Segment.ofCalls pairs.length ++ Segment.join ss))) := by
  simp only [Value, pairs_iff, Segment.append_assoc]
  constructor
  · rintro ⟨i, _, hi, ⟨ss, hs, rfl⟩, rfl⟩
    exact ⟨i, ss, hi, hs, rfl⟩
  · rintro ⟨i, ss, hi, hs, rfl⟩
    exact ⟨i, _, hi, ⟨ss, hs, rfl⟩, rfl⟩

/-- An annotation's segment is its type, its count and the segments of its
pairs. -/
theorem root_iff {a : Annotation} {s : Segment} :
    Root M a s ↔ ∃ i ss, M (.descriptor a.descriptor) i ∧ List.Forall₂ (Pair M .names) a.pairs ss ∧
      s = Segment.single .types i ++ (Segment.single .pairCounts a.pairs.length ++ Segment.join ss) := by
  simp only [Root, pairs_iff, Segment.append_assoc]
  constructor
  · rintro ⟨i, _, hi, ⟨ss, hs, rfl⟩, rfl⟩
    exact ⟨i, ss, hi, hs, rfl⟩
  · rintro ⟨i, ss, hi, hs, rfl⟩
    exact ⟨i, _, hi, ⟨ss, hs, rfl⟩, rfl⟩

/-! ### A relation that holds of more pairs allows more segments -/

variable {M' : Operand → Int → Prop} (hM : ∀ x i, M x i → M' x i)
include hM

theorem Operands.mono {xs : List (CaseBand × Operand)} {s : Segment} (h : Operands M xs s) : Operands M' xs s := by
  induction xs generalizing s with
  | nil => exact h
  | cons x xs ih =>
    obtain ⟨i, t, hi, ht, rfl⟩ := h
    exact ⟨i, t, hM _ _ hi, ih ht, rfl⟩

theorem Value.mono {v : ElementValue} {s : Segment} (h : Value M v s) : Value M' v s := by
  induction v using ElementValue.induct generalizing s with
  | literal v hv =>
    obtain ⟨t, ht, rfl⟩ := (value_literal hv s).1 h
    exact (value_literal hv _).2 ⟨t, ht.mono hM, rfl⟩
  | array items ih =>
    obtain ⟨ss, hs, rfl⟩ := value_array.1 h
    exact value_array.2 ⟨ss, forall₂_imp_mem hs fun v hv _ _ => ih v hv, rfl⟩
  | nested descriptor pairs ih =>
    obtain ⟨i, ss, hi, hs, rfl⟩ := value_nested.1 h
    refine value_nested.2 ⟨i, ss, hM _ _ hi, forall₂_imp_mem hs ?_, rfl⟩
    rintro p hp _ - ⟨j, t, hj, ht, rfl⟩
    exact ⟨j, t, hM _ _ hj, ih p hp ht, rfl⟩

theorem Items.mono {vs : List ElementValue} {s : Segment} (h : Items M vs s) : Items M' vs s := by
  obtain ⟨ss, hs, rfl⟩ := items_iff.1 h
  exact items_iff.2 ⟨ss, hs.imp fun _ _ => Value.mono hM, rfl⟩

theorem Pairs.mono {nameBand : Band} {ps : List (String × ElementValue)} {s : Segment} (h : Pairs M nameBand ps s) :
    Pairs M' nameBand ps s := by
  obtain ⟨ss, hs, rfl⟩ := pairs_iff.1 h
  refine pairs_iff.2 ⟨ss, hs.imp ?_, rfl⟩
  rintro p _ ⟨i, t, hi, ht, rfl⟩
  exact ⟨i, t, hM _ _ hi, ht.mono hM, rfl⟩

theorem Root.mono {a : Annotation} {s : Segment} (h : Root M a s) : Root M' a s := by
  obtain ⟨i, t, hi, ht, rfl⟩ := h
  exact ⟨i, t, hM _ _ hi, ht.mono hM, rfl⟩

end Flat

end AnnotationBands
