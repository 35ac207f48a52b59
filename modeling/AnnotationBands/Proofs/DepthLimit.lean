import AnnotationBands.Proofs.Accounting
import AnnotationBands.Proofs.InPlace
import AnnotationBands.Proofs.Narrowing
/-!
# One limit on depth

The depth of a tree is counted four times: by a recursion over the tree, by the
counter that adding carries down, and by those of the two walks over bands. They
agree. Adding fails exactly when one of the trees is deeper than the limit
(`InPlace.change_keepsTo`), and a walk over the bands of a tree exactly when the
tree is deeper than the limit of the walk, which may be another one
(`Walk.skipTree_keeps`, `Walk.readTree_keeps`). Either way it is the limit that
the error names. Main statement: `InPlace.depth_limit`.
-/

namespace AnnotationBands

/-- The outcome is an error exactly when something does not fit a limit on
depth, and the error names that limit. -/
def KeepsTo {σ α : Type} (limit : Nat) (fits : Prop) : EStateM.Result BandError σ α → Prop
  | .ok _ _ => fits
  | .error e _ => e = .nestingTooDeep limit ∧ ¬ fits

namespace KeepsTo

variable {σ α : Type} {limit : Nat} {fits : Prop} {r : EStateM.Result BandError σ α}

theorem exists_ok (h : KeepsTo limit fits r) (hfits : fits) : ∃ a s, r = .ok a s := by
  cases r with
  | ok a s => exact ⟨a, s, rfl⟩
  | error e s => exact absurd hfits h.2

theorem exists_error (h : KeepsTo limit fits r) (hfits : ¬ fits) : ∃ s, r = .error (.nestingTooDeep limit) s := by
  cases r with
  | ok a s => exact absurd h hfits
  | error e s => exact ⟨s, congrArg (EStateM.Result.error · s) h.1⟩

end KeepsTo

/-! ## Adding -/

namespace Flatten

variable {P : Type} [Interner P] {R : References P} {limit : Nat} {α β : Type} {fits : Prop}
  {Q : (Operand → Int → Prop) → α → Prop}

/-- Flattening is followed by a step that forms the result. -/
theorem Yields.finish {x : Flatten P α} (hx : Yields R limit fits Q x) (f : α → β) :
    Yields R limit fits (fun _ _ => True) (x >>= fun a => Pure.pure (f a)) := by
  have hx' : Yields R limit fits (fun _ _ => True) x := hx.imp Iff.rfl fun _ _ _ => trivial
  exact (hx'.bind persists_true fun a => Yields.pure (f a)).imp (by simp) fun _ _ _ => trivial

theorem Yields.keepsTo {x : Flatten P α} (hx : Yields R limit fits Q x) (p : P) : KeepsTo limit fits (x p) := by
  cases h : x p with
  | ok a q => exact (hx.ok h).2.1
  | error e q => exact (hx.error h).2

end Flatten

theorem Tree.forall_depth_map_root {as : List Annotation} {limit : Nat} :
    (∀ t ∈ as.map Tree.root, t.depth ≤ limit) ↔ ∀ a ∈ as, a.depth ≤ limit := List.forall_mem_map

namespace Group

/-- The trees that an operation adds. -/
def Change.trees : Change → List Tree
  | .addOne a => [.root a]
  | .addMember as => as.map .root
  | .addParameters ps => ps.flatten.map .root
  | .addDefault v => [.value v]
  | _ => []

/-- The operation adds trees to groups of a kind, those of no more parameters
than one entry can count. -/
def Change.AddsTo (kind : Kind) : Change → Prop
  | .addOne _ | .addMember _ => kind.isMember = true
  | .addParameters ps => kind.isParameter = true ∧ ps.length ≤ maxParameters
  | .addDefault _ => kind.hasDescriptors = false
  | _ => False

variable {P : Type} [Interner P]

theorem change_yields (R : References P) {g : Group} {c : Change} (hc : c.AddsTo g.kind) :
    Flatten.Yields R g.config.maxNestingDepth (∀ t ∈ c.trees, t.depth ≤ g.config.maxNestingDepth) (fun _ _ => True)
      (g.change c) := by
  have hallowed {allowed : Bool} (h : allowed = true) (operation : Operation) (f : Unit → Flatten P Group) :
      g.require allowed operation >>= f = f () := by
    subst h
    rfl
  cases c with
  | addOne a =>
    rw [Group.change, addOne, hallowed hc]
    exact ((Flatten.root_yields R _ a).finish g.attach).imp (by simp [Change.trees, Tree.depth]) fun _ _ h => h
  | addMember as =>
    rw [Group.change, addMember, hallowed hc]
    cases hempty : as.isEmpty with
    | true =>
      obtain rfl := List.isEmpty_iff.1 hempty
      exact (Flatten.Yields.pure g).imp (by simp [Change.trees]) fun _ _ _ => trivial
    | false =>
      exact ((Flatten.roots_yields R _ as).finish _).imp Tree.forall_depth_map_root.symm fun _ _ h => h
  | addParameters ps =>
    rw [Group.change, addParameters, hallowed hc.1, if_neg (Nat.not_lt.2 hc.2)]
    exact ((Flatten.roots_yields R _ ps.flatten).finish _).imp Tree.forall_depth_map_root.symm fun _ _ h => h
  | addDefault v =>
    have hdefault : (!g.kind.hasDescriptors) = true := congrArg _ hc
    rw [Group.change, addDefault, hallowed hdefault]
    have hfits : 1 + v.depth ≤ g.config.maxNestingDepth + 1 ↔
        ∀ t ∈ (Change.addDefault v).trees, t.depth ≤ g.config.maxNestingDepth := by
      simp [Change.trees, Tree.depth, Nat.add_comm 1]
    exact ((Flatten.value_yields R _ v 1).finish g.attach).imp hfits fun _ _ h => h
  | openEntry | extendEntry | removeLatest => cases hc

end Group

/-- Pushing fails when flattening does. -/
theorem InPlace.Follows.keepsTo {P : Type} [Interner P] {α : Type} {limit : Nat} {fits : Prop} {x : InPlace P Unit}
    {y : Flatten P α} {Q : α → Group → Group → Prop} (hx : Follows limit x y Q) (hy : ∀ p, KeepsTo limit fits (y p))
    {g : Group} (hg : g.config.maxNestingDepth = limit) (p : P) : KeepsTo limit fits (x (g, p)) := by
  have hkeeps := hy p
  cases h : y p with
  | ok a q =>
    obtain ⟨-, k, hxk, -⟩ := hx.ok hg h
    rw [h] at hkeeps
    rw [hxk]
    exact hkeeps
  | error e q =>
    obtain ⟨-, k, hxk, -⟩ := hx.error hg h
    rw [h] at hkeeps
    rw [hxk]
    exact hkeeps

/-- An operation in place that adds trees to a group of its kind fails exactly
when one of them is too deep for the group. -/
theorem InPlace.change_keepsTo {P : Type} [Interner P] {g : Group} {c : Group.Change} (hc : c.AddsTo g.kind) (p : P) :
    KeepsTo g.config.maxNestingDepth (∀ t ∈ c.trees, t.depth ≤ g.config.maxNestingDepth) (change c (g, p)) := by
  have hkeeps := (Group.change_yields References.word hc).keepsTo p
  have hagrees := change_agrees g c p
  cases h : g.change c p with
  | ok h' q =>
    rw [h] at hkeeps hagrees
    rw [hagrees.2]
    exact hkeeps
  | error e q =>
    rw [h] at hkeeps hagrees
    rw [hagrees.2]
    exact hkeeps

/-! ## Steps of walks -/

namespace Walk

variable {limit : Nat} {α β : Type} {fits fits' : Prop} {s t : Segment}

/-- From every cursor with the limit right before the segment, the walk gets
right behind it, or it stops at the limit, because something does not fit. -/
def Keeps (limit : Nat) (fits : Prop) (walk : Walk α) (s : Segment) : Prop :=
  ∀ c : Cursor, c.maxDepth = some limit → c.Before s →
    KeepsTo limit fits (walk c) ∧ ∀ x c', walk c = .ok x c' → c' = c.past s

theorem Keeps.imp {walk : Walk α} (h : Keeps limit fits walk s) (hfits : fits ↔ fits') : Keeps limit fits' walk s := by
  rwa [← propext hfits]

theorem Consumes.keeps {walk : Walk α} {x : α} (h : Consumes (some limit) walk s x) : Keeps limit True walk s := by
  intro c hc hs
  rw [h c hc hs]
  refine ⟨trivial, ?_⟩
  rintro _ _ ⟨⟩
  rfl

theorem Keeps.bind {walk : Walk α} {f : α → Walk β} (h : Keeps limit fits walk s)
    (hf : ∀ x, Keeps limit fits' (f x) t) : Keeps limit (fits ∧ fits') (walk >>= f) (s ++ t) := by
  intro c hc hs
  obtain ⟨hkeeps, hpast⟩ := h c hc hs.left
  cases hr : walk c with
  | error e c' =>
    rw [hr] at hkeeps
    rw [bind_of_error hr]
    exact ⟨⟨hkeeps.1, fun hfits => hkeeps.2 hfits.1⟩, fun _ _ h => by cases h⟩
  | ok x c' =>
    obtain rfl := hpast x c' hr
    rw [hr] at hkeeps
    obtain ⟨hkeeps', hpast'⟩ := hf x (c.past s) hc hs.right
    rw [bind_of_ok hr, Cursor.past_append]
    refine ⟨?_, hpast'⟩
    cases hr' : f x (c.past s) with
    | error e c' =>
      rw [hr'] at hkeeps'
      exact ⟨hkeeps'.1, fun hfits => hkeeps'.2 hfits.2⟩
    | ok y c' =>
      rw [hr'] at hkeeps'
      exact ⟨hkeeps, hkeeps'⟩

/-- A step ahead that does not depend on the limit. -/
theorem Consumes.before {walk : Walk α} {f : α → Walk β} {x : α} (h : Consumes (some limit) walk s x)
    (hf : Keeps limit fits (f x) t) : Keeps limit fits (walk >>= f) (s ++ t) := by
  intro c hc hs
  rw [bind_of_ok (h c hc hs.left), Cursor.past_append]
  exact hf (c.past s) hc hs.right

/-- A last step that forms the result. -/
theorem Keeps.finish {walk : Walk α} (h : Keeps limit fits walk s) (f : α → β) :
    Keeps limit fits (walk >>= fun x => pure (f x)) s := by
  have hpure (x : α) : Keeps limit True (pure (f x)) .empty := (Consumes.pure (f x)).keeps
  rw [← Segment.append_empty s]
  exact (h.bind hpure).imp (by simp)

theorem Keeps.check {depth : Nat} {f : Unit → Walk α} (hf : Keeps limit fits (f ()) s) :
    Keeps limit (depth ≤ limit ∧ fits) (checkDepth depth >>= f) s := by
  intro c hc hs
  rcases Nat.lt_or_ge limit depth with hlt | hle
  · have hcheck : checkDepth depth c = .error (.nestingTooDeep limit) c := by
      simp only [checkDepth, hc, if_pos hlt]
    rw [bind_of_error hcheck]
    exact ⟨⟨rfl, fun hfits => Nat.not_le.2 hlt hfits.1⟩, fun _ _ h => by cases h⟩
  · have hcheck : checkDepth depth c = .ok () c := by
      simp only [checkDepth, hc, if_neg (Nat.not_lt.2 hle)]
    rw [bind_of_ok hcheck]
    exact (hf.imp (by simp [hle])) c hc hs

section Loops

variable {γ : Type} {fitting : γ → Prop} {xs : List γ} {ss : List Segment}

theorem times_keeps {walk : Walk Unit} (h : List.Forall₂ (fun x s => Keeps limit (fitting x) walk s) xs ss) :
    Keeps limit (∀ x ∈ xs, fitting x) (times xs.length walk) (.join ss) := by
  induction h with
  | nil => exact (Consumes.pure ()).keeps.imp (by simp)
  | cons hs _ ih => exact (hs.bind fun _ => ih).imp List.forall_mem_cons.symm

theorem collect_keeps {walk : Walk α} (h : List.Forall₂ (fun x s => Keeps limit (fitting x) walk s) xs ss) :
    Keeps limit (∀ x ∈ xs, fitting x) (collect xs.length walk) (.join ss) := by
  induction h with
  | nil => exact (Consumes.pure []).keeps.imp (by simp)
  | cons hs _ ih => exact (hs.bind fun x => ih.finish (x :: ·)).imp List.forall_mem_cons.symm

end Loops

/-! ## Passing over trees -/

section Skip

variable {M : Operand → Int → Prop}

/-- With enough tags ahead to bound the recursion, by induction on the value. -/
theorem skipValueWithin_keeps {v : ElementValue} {fuel depth : Nat} (h : Flat.Value M v s)
    (hfuel : (s.bands.get .tags).length ≤ fuel) :
    Keeps limit (depth + v.depth ≤ limit + 1) (skipValueWithin fuel depth) s := by
  induction v using ElementValue.induct generalizing s fuel depth with
  | literal v hv =>
    obtain ⟨fuel, rfl⟩ := exists_succ_of_value h hfuel
    obtain ⟨t, ht, rfl⟩ := (Flat.value_literal hv s).1 h
    have hskip : Consumes (some limit) _ t () := skipEach_consumes ht
    rw [ElementValue.cases_zip_operands] at hskip
    refine (Keeps.check ((nextTag_consumes v.tag).before ?_)).imp (ElementValue.add_depth_literal_le hv).symm
    rw [hv]
    exact hskip.keeps
  | array items ih =>
    obtain ⟨fuel, rfl⟩ := exists_succ_of_value h hfuel
    obtain ⟨ss, hs, rfl⟩ := Flat.value_array.1 h
    refine (Keeps.check ((nextTag_consumes .array).before ((nextCount_consumes .arrayCounts items.length).before
      ((addCalls_consumes _).before (times_keeps ?_))))).imp ElementValue.add_depth_array_le.symm
    exact forall₂_imp_mem hs fun v hv s hs' hvs => ih v hv hvs (length_tags_element hfuel hs')
  | nested descriptor pairs ih =>
    obtain ⟨fuel, rfl⟩ := exists_succ_of_value h hfuel
    obtain ⟨i, ss, -, hs, rfl⟩ := Flat.value_nested.1 h
    refine (Keeps.check ((nextTag_consumes .nested).before ((next_consumes .nestTypes i).before
      ((nextCount_consumes .nestPairCounts pairs.length).before ((addCalls_consumes _).before
        (times_keeps ?_)))))).imp ElementValue.add_depth_nested_le.symm
    refine forall₂_imp_mem hs ?_
    rintro p hp _ hs' ⟨j, t, -, ht, rfl⟩
    exact (next_consumes .nestNames j).before (ih p hp ht (length_tags_pair hfuel hs'))

theorem skipValue_keeps {v : ElementValue} (h : Flat.Value M v s) : Keeps limit (v.depth ≤ limit) skipValue s := by
  intro c hc hs
  have hkeeps : Keeps limit (1 + v.depth ≤ limit + 1) (skipValueWithin (c.remaining .tags) 1) s :=
    skipValueWithin_keeps h (hs.length_le .tags)
  exact hkeeps.imp (by omega) c hc hs

theorem skipRoot_keeps {a : Annotation} (h : Flat.Root M a s) : Keeps limit (a.depth ≤ limit) skipRoot s := by
  obtain ⟨i, ss, -, hs, rfl⟩ := Flat.root_iff.1 h
  refine ((next_consumes .types i).before ((nextCount_consumes .pairCounts a.pairs.length).before
    (times_keeps ?_))).imp ElementValue.depthOfPairs_le.symm
  refine hs.imp ?_
  rintro p _ ⟨j, t, -, ht, rfl⟩
  exact (next_consumes .names j).before (skipValue_keeps ht)

end Skip

end Walk

/-! ## Reading trees -/

/-- With the pool, an index refers to some literal of the same index space as
the given one. -/
def Operand.IsAmong {L : Type} [Resolver L] (pool : L) (x : Operand) (i : Int) : Prop :=
  ∃ y : Operand, y.pool = x.pool ∧ y.IsAt pool i

namespace Walk

variable {L : Type} [Resolver L] {pool : L} {limit : Nat} {s : Segment}

theorem readDescriptor_among {b : Band} {d : String} {i : Int} (h : Operand.IsAmong pool (.descriptor d) i) :
    ∃ d', Consumes (some limit) (readDescriptor pool b) (.single b i) d' := by
  obtain ⟨y, hy, hat⟩ := h
  cases y with
  | descriptor d' => exact ⟨d', readDescriptor_consumes hat⟩
  | utf8 u => cases hy
  | constant c => cases c <;> cases hy

theorem readUtf8_among {b : Band} {u : String} {i : Int} (h : Operand.IsAmong pool (.utf8 u) i) :
    ∃ u', Consumes (some limit) (readUtf8 pool b) (.single b i) u' := by
  obtain ⟨y, hy, hat⟩ := h
  cases y with
  | utf8 u' => exact ⟨u', readUtf8_consumes hat⟩
  | descriptor d => cases hy
  | constant c => cases c <;> cases hy

theorem readOperands_among (limit : Nat) {xs : List (CaseBand × Operand)}
    (h : Flat.Operands (Operand.IsAmong pool) xs s) (hp : ∀ x ∈ xs, x.2.pool = x.1.pool) :
    ∃ ops, Consumes (some limit) (forEach (readOperand pool) (xs.map Prod.fst)) s ops ∧
      ops.map Operand.pool = (xs.map Prod.fst).map CaseBand.pool := by
  induction xs generalizing s with
  | nil =>
    obtain rfl : s = .empty := h
    exact ⟨[], .pure [], rfl⟩
  | cons x xs ih =>
    obtain ⟨i, t, ⟨y, hy, hi⟩, ht, rfl⟩ := h
    obtain ⟨hx, hxs⟩ := List.forall_mem_cons.1 hp
    obtain ⟨ops, hread, hops⟩ := ih ht hxs
    refine ⟨y :: ops, (readOperand_consumes hi (hy.trans hx)).bind (hread.map _), ?_⟩
    rw [List.map_cons, List.map_cons, List.map_cons, hops, hy, hx]

/-- The operands of a literal are read, and make some literal of the same tag. -/
theorem readLiteral_among {v : ElementValue} (hv : v.tag.dispatch = .literal v.tag.cases)
    (h : Flat.Operands (Operand.IsAmong pool) (v.tag.cases.zip v.operands) s) :
    ∃ w, Consumes (some limit) (do
      let operands ← forEach (readOperand pool) v.tag.cases
      BandError.orThrow (ElementValue.ofOperands v.tag operands)) s w := by
  obtain ⟨ops, hread, hops⟩ := readOperands_among limit h v.pool_of_mem_zip
  rw [v.cases_zip_operands] at hread hops
  obtain ⟨w, hw⟩ := ElementValue.ofOperands?_of_pool hv hops
  refine ⟨w, ?_⟩
  rw [← Segment.append_empty s]
  refine hread.bind ?_
  rw [ElementValue.ofOperands_eq_ok.2 hw]
  exact .pure w

/-- With enough tags ahead to bound the recursion, by induction on the value. -/
theorem readValueWithin_keeps {v : ElementValue} {fuel depth : Nat} (h : Flat.Value (Operand.IsAmong pool) v s)
    (hfuel : (s.bands.get .tags).length ≤ fuel) :
    Keeps limit (depth + v.depth ≤ limit + 1) (readValueWithin pool fuel depth) s := by
  induction v using ElementValue.induct generalizing s fuel depth with
  | literal v hv =>
    obtain ⟨fuel, rfl⟩ := exists_succ_of_value h hfuel
    obtain ⟨t, ht, rfl⟩ := (Flat.value_literal hv s).1 h
    obtain ⟨w, hread⟩ := readLiteral_among hv ht
    refine (Keeps.check ((nextTag_consumes v.tag).before ?_)).imp (ElementValue.add_depth_literal_le hv).symm
    rw [hv]
    exact hread.keeps
  | array items ih =>
    obtain ⟨fuel, rfl⟩ := exists_succ_of_value h hfuel
    obtain ⟨ss, hs, rfl⟩ := Flat.value_array.1 h
    refine (Keeps.check ((nextTag_consumes .array).before ((nextCount_consumes .arrayCounts items.length).before
      ((addCalls_consumes _).before ((collect_keeps ?_).finish _))))).imp ElementValue.add_depth_array_le.symm
    exact forall₂_imp_mem hs fun v hv s hs' hvs => ih v hv hvs (length_tags_element hfuel hs')
  | nested descriptor pairs ih =>
    obtain ⟨fuel, rfl⟩ := exists_succ_of_value h hfuel
    obtain ⟨i, ss, hi, hs, rfl⟩ := Flat.value_nested.1 h
    obtain ⟨d, hd⟩ := readDescriptor_among hi
    refine (Keeps.check ((nextTag_consumes .nested).before (hd.before
      ((nextCount_consumes .nestPairCounts pairs.length).before ((addCalls_consumes _).before
        ((collect_keeps ?_).finish _)))))).imp ElementValue.add_depth_nested_le.symm
    refine forall₂_imp_mem hs ?_
    rintro p hp _ hs' ⟨j, t, hj, ht, rfl⟩
    obtain ⟨u, hu⟩ := readUtf8_among hj
    exact hu.before ((ih p hp ht (length_tags_pair hfuel hs')).finish _)

theorem readValue_keeps {v : ElementValue} (h : Flat.Value (Operand.IsAmong pool) v s) :
    Keeps limit (v.depth ≤ limit) (readValue pool) s := by
  intro c hc hs
  have hkeeps : Keeps limit (1 + v.depth ≤ limit + 1) (readValueWithin pool (c.remaining .tags) 1) s :=
    readValueWithin_keeps h (hs.length_le .tags)
  exact hkeeps.imp (by omega) c hc hs

theorem readRoot_keeps {a : Annotation} (h : Flat.Root (Operand.IsAmong pool) a s) :
    Keeps limit (a.depth ≤ limit) (readRoot pool) s := by
  obtain ⟨i, ss, hi, hs, rfl⟩ := Flat.root_iff.1 h
  obtain ⟨d, hd⟩ := readDescriptor_among hi
  refine (hd.before ((nextCount_consumes .pairCounts a.pairs.length).before
    ((collect_keeps ?_).finish _))).imp ElementValue.depthOfPairs_le.symm
  refine hs.imp ?_
  rintro p _ ⟨j, t, hj, ht, rfl⟩
  obtain ⟨u, hu⟩ := readUtf8_among hj
  exact hu.before ((readValue_keeps ht).finish _)

end Walk

/-! ## References that interning hands out -/

namespace Pool

theorem pool_of_mem_literals {p : Pool} {k : PoolKind} {x : Operand} (h : x ∈ p.literals k) : x.pool = k := by
  cases k <;> obtain ⟨v, -, rfl⟩ := List.mem_map.1 h <;> rfl

theorem isAmong_of_lt {p : Pool} {x : Operand} {n : Nat} (h : n < (p.literals x.pool).length) : x.IsAmong p n := by
  have hpool := pool_of_mem_literals (List.getElem_mem h)
  refine ⟨(p.literals x.pool)[n], hpool, isAt_iff.2 ⟨n, rfl, ?_⟩⟩
  rw [hpool]
  exact List.getElem?_eq_getElem h

end Pool

/-- An index that a pool hands out refers to a literal of the index space, even
when there are more literals than indices. -/
def References.among : References Pool where
  Means p x i := x.IsAmong p i
  intern p x := by
    apply Pool.isAmong_of_lt
    obtain ⟨hlt, -⟩ := List.getElem?_eq_some_iff.1 (Pool.getElem?_literals_intern x p)
    rw [Pool.index_intern, Nat.toUInt32_eq, UInt32.toNat_ofNat']
    exact Nat.lt_of_le_of_lt (Nat.mod_le _ _) hlt
  mono p x _ _ h := by
    obtain ⟨y, hy, hat⟩ := h
    exact ⟨y, hy, Pool.isAt_intern_of_isAt x hat⟩

/-! ## Main theorem -/

namespace Walk

variable {limit : Nat} {t : Tree} {s : Segment} {kind : Kind}

theorem skipTree_keeps {M : Operand → Int → Prop} (h : Flat.Whole M t s) (hkind : t.isRoot = kind.hasDescriptors) :
    Keeps limit (t.depth ≤ limit) (skipTree kind) s := by
  rw [skipTree, ← hkind]
  cases t with
  | root a => exact skipRoot_keeps h
  | value v => exact skipValue_keeps h

theorem readTree_keeps {L : Type} [Resolver L] {pool : L} (h : Flat.Whole (Operand.IsAmong pool) t s)
    (hkind : t.isRoot = kind.hasDescriptors) : Keeps limit (t.depth ≤ limit) (readTree pool kind) s := by
  rw [readTree, ← hkind]
  cases t with
  | root a => exact (readRoot_keeps h).finish Tree.root
  | value v => exact (readValue_keeps h).finish Tree.value

end Walk

namespace InPlace

open Interner (Adds)

variable {P : Type} [Interner P]

/-- Pushes a tree; a value lies at the given depth. -/
def pushTree (depth : Nat) : Tree → InPlace P Unit
  | .root a => pushRoot a
  | .value v => pushValue depth v

/-- A tree is pushed unless it is too deep for the group. -/
theorem pushTree_keepsTo (g : Group) (p : P) (t : Tree) :
    KeepsTo g.config.maxNestingDepth (t.depth ≤ g.config.maxNestingDepth) (pushTree 1 t (g, p)) := by
  cases t with
  | root a => exact (pushRoot_follows a).keepsTo (Flatten.root_yields References.word _ a).keepsTo rfl p
  | value v =>
    have hvalue := (Flatten.value_yields (P := P) References.word g.config.maxNestingDepth v 1).imp
      (show _ ↔ v.depth ≤ g.config.maxNestingDepth by omega) fun _ _ hs => hs
    exact (pushValue_follows v 1).keepsTo hvalue.keepsTo rfl p

/-- A tree that was pushed stands ahead of a cursor at the mark from before,
whatever has come behind it. -/
theorem before_of_pushTree (R : References P) {g h : Group} {p q : P} {depth : Nat} {t : Tree}
    (hpush : pushTree depth t (g, p) = .ok () (h, q)) :
    ∃ s, Flat.Whole (R.Means q) t s ∧
      ∀ after limit, (Cursor.ofMark (h.bands ++ after) g.bands.mark limit).Before s := by
  obtain ⟨s, hs, hbands⟩ : ∃ s, Flat.Whole (R.Means q) t s ∧ h.bands = g.bands ++ s.bands := by
    cases t with
    | root a =>
      obtain ⟨s, hs, rfl⟩ := (pushRoot_follows a).eq_ok rfl hpush
      exact ⟨s, ((Flatten.root_yields R _ a).ok hs).2.2, rfl⟩
    | value v =>
      obtain ⟨s, hs, rfl⟩ := (pushValue_follows v depth).eq_ok rfl hpush
      exact ⟨s, ((Flatten.value_yields R _ v depth).ok hs).2.2, rfl⟩
  refine ⟨s, hs, fun after limit b => ?_⟩
  simp [Cursor.ofMark, hbands, Bands.get_append, Bands.get_mark]

/-- There is one limit on depth, for adding and for walks. An operation that
adds trees to a group of its kind fails exactly when one of them is deeper than
the limit of the group. Passing over a tree that was pushed, or reading it with
the pool, fails exactly when it is deeper than the limit of the walk, whatever
limit it was pushed with and whatever stands around it. The error is always that
of the limit. -/
theorem depth_limit :
    (∀ {P : Type} [Interner P] (g : Group) (p : P) (c : Group.Change), c.AddsTo g.kind →
      let fits := ∀ t ∈ c.trees, t.depth ≤ g.config.maxNestingDepth
      KeepsTo g.config.maxNestingDepth fits (change c (g, p)) ∧ KeepsTo g.config.maxNestingDepth fits (g.change c p)) ∧
    (∀ {P : Type} [Interner P] (g h : Group) (p q : P) (depth : Nat) (t : Tree),
      pushTree depth t (g, p) = .ok () (h, q) → ∀ kind : Kind, t.isRoot = kind.hasDescriptors →
        ∀ (after : Bands) (limit : Nat),
          KeepsTo limit (t.depth ≤ limit)
            (Walk.skipTree kind (Cursor.ofMark (h.bands ++ after) g.bands.mark (some limit)))) ∧
    ∀ (g h : Group) (p q : Pool) (depth : Nat) (t : Tree),
      pushTree depth t (g, p) = .ok () (h, q) → ∀ kind : Kind, t.isRoot = kind.hasDescriptors →
        ∀ later, Adds q later → ∀ (after : Bands) (limit : Nat),
          KeepsTo limit (t.depth ≤ limit)
            (Walk.readTree later kind (Cursor.ofMark (h.bands ++ after) g.bands.mark (some limit))) := by
  refine ⟨?_, ?_, ?_⟩
  · intro P _ g p c hc
    exact ⟨change_keepsTo hc p, (Group.change_yields References.word hc).keepsTo p⟩
  · intro P _ g h p q depth t hpush kind hkind after limit
    obtain ⟨s, hs, hbefore⟩ := before_of_pushTree References.word hpush
    exact (Walk.skipTree_keeps hs hkind _ rfl (hbefore after _)).1
  · intro g h p q depth t hpush kind hkind later hlater after limit
    obtain ⟨s, hs, hbefore⟩ := before_of_pushTree References.among hpush
    exact (Walk.readTree_keeps (hs.mono hlater.means) hkind _ rfl (hbefore after _)).1

/-- An annotation with an array and a nested annotation without pairs is two
levels deep: too deep for a group with limit 1, and for walks with that limit
over the bands of a group with a higher one. -/
theorem depth_limit_two_levels :
    let a : Annotation := ⟨"LA;", [("x", .array [.int 1]), ("y", .nested "LB;" [])]⟩
    let shallow := Group.empty .visible .method { maxNestingDepth := 1 }
    let g := Group.empty .visible .method .default
    (∃ s, change (.addMember [⟨"LC;", []⟩, a]) (shallow, Pool.empty) = .error (.nestingTooDeep 1) s) ∧
      ∃ h q, pushTree 1 (.root a) (g, Pool.empty) = .ok () (h, q) ∧
        (∃ c, Walk.skipTree .visible (Cursor.ofMark (h.bands ++ h.bands) g.bands.mark (some 1)) =
          .error (.nestingTooDeep 1) c) ∧
        (∃ u c, Walk.skipTree .visible (Cursor.ofMark (h.bands ++ h.bands) g.bands.mark (some 2)) = .ok u c) ∧
        (∃ c, Walk.readTree q .visible (Cursor.ofMark (h.bands ++ h.bands) g.bands.mark (some 1)) =
          .error (.nestingTooDeep 1) c) ∧
        ∃ t c, Walk.readTree q .visible (Cursor.ofMark (h.bands ++ h.bands) g.bands.mark (some 2)) = .ok t c := by
  intro a shallow g
  have hdepth : (Tree.root a).depth = 2 := by decide
  obtain ⟨hadd, hskip, hread⟩ := depth_limit
  have hmember : Group.Change.AddsTo shallow.kind (.addMember [⟨"LC;", []⟩, a]) := rfl
  refine ⟨(hadd shallow Pool.empty _ hmember).1.exists_error ?_, ?_⟩
  · intro hfits
    have hle := hfits (.root a) (by simp [Group.Change.trees])
    exact absurd (hdepth ▸ hle) (by decide)
  obtain ⟨_, ⟨h, q⟩, hpush⟩ := (pushTree_keepsTo g Pool.empty (.root a)).exists_ok (by decide)
  have hskip' := hskip g h Pool.empty q 1 (.root a) hpush .visible rfl h.bands
  have hread' := hread g h Pool.empty q 1 (.root a) hpush .visible rfl q (.refl q) h.bands
  rw [hdepth] at hskip' hread'
  exact ⟨h, q, hpush, (hskip' 1).exists_error (by decide), (hskip' 2).exists_ok (by decide),
    (hread' 1).exists_error (by decide), (hread' 2).exists_ok (by decide)⟩

end InPlace

end AnnotationBands
