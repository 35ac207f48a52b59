import AnnotationBands.Pool
import AnnotationBands.Proofs.Flatten
import AnnotationBands.Proofs.Traversal
/-!
# References into a pool

A pool is a list of distinct literals for each index space (`Pool.literals`),
and interning adds a literal at the end of its list unless it is there
(`literals_intern`). As long as no list has more literals than there are
indices (`Pool.Fits`), an index that the pool hands out refers to its literal,
in that pool and in every pool that it grows into (`References.pool`).
-/

namespace AnnotationBands

/-! ## Tables -/

namespace Table

variable {α : Type}

theorem entries_intern [DecidableEq α] (x : α) (t : Table α) :
    (t.intern x).2.entries = if x ∈ t.entries then t.entries else t.entries ++ [x] := by
  unfold intern
  split <;> rfl

theorem resolve_eq_ok {pool : PoolKind} {t : Table α} {i : Int} {x : α} :
    t.resolve pool i = .ok x ↔ ∃ n : Nat, i = n ∧ t.entries[n]? = some x := by
  cases i with
  | ofNat n =>
    have : t.resolve pool n = .ok x ↔ t.entries[n]? = some x := by
      simp only [resolve]
      split <;> simp_all
    refine this.trans ⟨fun h => ⟨n, rfl, h⟩, ?_⟩
    rintro ⟨m, hm, h⟩
    rwa [Int.ofNat.inj hm]
  | negSucc n =>
    simp only [resolve, reduceCtorEq, false_iff]
    rintro ⟨m, hm, -⟩
    omega

/-- Interning, seen through an injective function. -/
theorem map_entries_intern {β : Type} [DecidableEq α] [DecidableEq β] {f : α → β} (hf : Function.Injective f)
    (t : Table α) (x : α) :
    (t.intern x).2.entries.map f =
      if f x ∈ t.entries.map f then t.entries.map f else t.entries.map f ++ [f x] := by
  have hmem : f x ∈ t.entries.map f ↔ x ∈ t.entries := List.mem_map_of_injective hf
  rw [entries_intern]
  by_cases h : x ∈ t.entries
  · rw [if_pos h, if_pos (hmem.2 h)]
  · rw [if_neg h, if_neg (mt hmem.1 h), List.map_append, List.map_singleton]

theorem index_intern {β : Type} [DecidableEq α] [DecidableEq β] {f : α → β} (hf : Function.Injective f)
    (t : Table α) (x : α) : (t.intern x).1 = ((t.entries.map f).idxOf (f x)).toUInt32 := by
  have (l : List α) : (l.map f).idxOf (f x) = l.idxOf x := by
    induction l with
    | nil => rfl
    | cons y l ih => rw [List.map_cons, List.idxOf_cons, List.idxOf_cons, ih, hf.beq_eq]
  rw [this]
  rfl

end Table

/-! ## Pools as lists of literals -/

theorem Operand.injective_constant {α : Type} {f : α → Constant} (hf : Function.Injective f) :
    Function.Injective fun v => Operand.constant (f v) := fun _ _ h => hf (Operand.constant.inj h)

namespace Pool

/-- The literals of an index space, in the order of their indices. -/
def literals (p : Pool) : PoolKind → List Operand
  | .utf8 => p.utf8s.entries.map .utf8
  | .signature => p.signatures.entries.map .descriptor
  | .int => p.ints.entries.map fun v => .constant (.int v)
  | .float => p.floats.entries.map fun v => .constant (.float v)
  | .long => p.longs.entries.map fun v => .constant (.long v)
  | .double => p.doubles.entries.map fun v => .constant (.double v)

theorem length_literals (p : Pool) (k : PoolKind) : (p.literals k).length = p.size k := by
  cases k <;> simp [literals, size, Table.size]

theorem nodup_literals (p : Pool) (k : PoolKind) : (p.literals k).Nodup := by
  cases k with
  | utf8 => exact p.utf8s.nodup.map fun _ _ => Operand.utf8.inj
  | signature => exact p.signatures.nodup.map fun _ _ => Operand.descriptor.inj
  | int => exact p.ints.nodup.map (Operand.injective_constant fun _ _ => Constant.int.inj)
  | float => exact p.floats.nodup.map (Operand.injective_constant fun _ _ => Constant.float.inj)
  | long => exact p.longs.nodup.map (Operand.injective_constant fun _ _ => Constant.long.inj)
  | double => exact p.doubles.nodup.map (Operand.injective_constant fun _ _ => Constant.double.inj)

/-- An index refers to the literal that stands at it. -/
theorem isAt_iff {p : Pool} {x : Operand} {i : Int} :
    x.IsAt p i ↔ ∃ n : Nat, i = n ∧ (p.literals x.pool)[n]? = some x := by
  have map_ok {α : Type} (r : Except BandError α) (f : α → Constant) (hf : ∀ u v, f u = f v → u = v) (v : α) :
      f <$> r = .ok (f v) ↔ r = .ok v := by
    cases r with
    | error e => simp [Functor.map, Except.map]
    | ok u => simp only [Functor.map, Except.map, Except.ok.injEq]; exact ⟨hf u v, congrArg f⟩
  cases x with
  | utf8 s =>
    simp only [Operand.IsAt, Resolver.utf8, Table.resolve_eq_ok, Operand.pool, literals]
    simp
  | descriptor d =>
    simp only [Operand.IsAt, Resolver.descriptor, Table.resolve_eq_ok, Operand.pool, literals]
    simp
  | constant c =>
    cases c <;> simp only [Operand.IsAt, Resolver.constant, Pool.constant, Constant.pool, Operand.pool, literals] <;>
      rw [map_ok _ _ (by simp), Table.resolve_eq_ok] <;> simp

/-- Within an index space, an index refers to one literal, and a literal has one
index. -/
theorem isAt_inj {p : Pool} {x y : Operand} {i j : Int} (hx : x.IsAt p i) (hy : y.IsAt p j) (hpool : x.pool = y.pool) :
    i = j ↔ x = y := by
  obtain ⟨m, rfl, hm⟩ := isAt_iff.1 hx
  obtain ⟨n, rfl, hn⟩ := isAt_iff.1 hy
  rw [← hpool] at hn
  constructor
  · intro h
    rw [Int.ofNat_inj.1 h, hn] at hm
    exact (Option.some.inj hm).symm
  · rintro rfl
    obtain ⟨hlt, -⟩ := List.getElem?_eq_some_iff.1 hm
    rw [(List.getElem?_inj hlt (p.nodup_literals x.pool)).1 (hm.trans hn.symm)]

theorem literals_intern_of_ne {x : Operand} {k : PoolKind} (p : Pool) (h : k ≠ x.pool) :
    (x.intern p).2.literals k = p.literals k := by
  cases x with
  | constant c => cases c <;> cases k <;> first | rfl | exact absurd rfl h
  | descriptor d => cases k <;> first | rfl | exact absurd rfl h
  | utf8 s => cases k <;> first | rfl | exact absurd rfl h

/-- Interning adds a literal at the end of its index space, unless it is there. -/
theorem literals_intern_self (x : Operand) (p : Pool) :
    (x.intern p).2.literals x.pool =
      if x ∈ p.literals x.pool then p.literals x.pool else p.literals x.pool ++ [x] := by
  cases x with
  | utf8 s => exact p.utf8s.map_entries_intern (fun _ _ => Operand.utf8.inj) s
  | descriptor d => exact p.signatures.map_entries_intern (fun _ _ => Operand.descriptor.inj) d
  | constant c =>
    cases c with
    | int v => exact p.ints.map_entries_intern (Operand.injective_constant fun _ _ => Constant.int.inj) v
    | float v => exact p.floats.map_entries_intern (Operand.injective_constant fun _ _ => Constant.float.inj) v
    | long v => exact p.longs.map_entries_intern (Operand.injective_constant fun _ _ => Constant.long.inj) v
    | double v => exact p.doubles.map_entries_intern (Operand.injective_constant fun _ _ => Constant.double.inj) v

/-- The index of a literal is its position in its index space. -/
theorem index_intern (x : Operand) (p : Pool) : (x.intern p).1 = ((p.literals x.pool).idxOf x).toUInt32 := by
  cases x with
  | utf8 s => exact p.utf8s.index_intern (fun _ _ => Operand.utf8.inj) s
  | descriptor d => exact p.signatures.index_intern (fun _ _ => Operand.descriptor.inj) d
  | constant c =>
    cases c with
    | int v => exact p.ints.index_intern (Operand.injective_constant fun _ _ => Constant.int.inj) v
    | float v => exact p.floats.index_intern (Operand.injective_constant fun _ _ => Constant.float.inj) v
    | long v => exact p.longs.index_intern (Operand.injective_constant fun _ _ => Constant.long.inj) v
    | double v => exact p.doubles.index_intern (Operand.injective_constant fun _ _ => Constant.double.inj) v

/-! ## Growing pools -/

theorem prefix_intern (x : Operand) (p : Pool) (k : PoolKind) : p.literals k <+: (x.intern p).2.literals k := by
  by_cases h : k = x.pool
  · subst h
    rw [literals_intern_self]
    split
    · exact List.prefix_rfl
    · exact List.prefix_append _ _
  · simp only [literals_intern_of_ne p h, List.prefix_rfl]

theorem size_le_intern (x : Operand) (p : Pool) (k : PoolKind) : p.size k ≤ (x.intern p).2.size k := by
  simpa only [length_literals] using (prefix_intern x p k).length_le

/-- No table has more literals than there are indices. -/
def Fits (p : Pool) : Prop := ∀ k, p.size k ≤ 2 ^ 32

/-- Interning keeps what every index refers to. -/
theorem isAt_intern_of_isAt {p : Pool} {y : Operand} {i : Int} (x : Operand) (h : y.IsAt p i) :
    y.IsAt (x.intern p).2 i := by
  obtain ⟨n, rfl, hn⟩ := isAt_iff.1 h
  refine isAt_iff.2 ⟨n, rfl, ?_⟩
  rw [← hn]
  exact (List.prefix_iff_getElem?.1 (prefix_intern x p y.pool)) n (List.getElem?_eq_some_iff.1 hn).1 ▸ by simp

/-- A literal stands where it was, or at the end. -/
theorem getElem?_literals_intern (x : Operand) (p : Pool) :
    ((x.intern p).2.literals x.pool)[(p.literals x.pool).idxOf x]? = some x := by
  rw [literals_intern_self]
  by_cases hx : x ∈ p.literals x.pool
  · rw [if_pos hx]
    exact List.getElem?_idxOf hx
  · rw [if_neg hx, List.idxOf_eq_length hx]
    simp

/-- The index of a literal refers to it, unless there are more literals than
indices. -/
theorem isAt_intern (x : Operand) (p : Pool) (h : (x.intern p).2.Fits) :
    x.IsAt (x.intern p).2 (x.intern p).1.toNat := by
  have hx := getElem?_literals_intern x p
  have hlt : (p.literals x.pool).idxOf x < 2 ^ 32 := by
    have := (List.getElem?_eq_some_iff.1 hx).1
    rw [length_literals] at this
    exact Nat.lt_of_lt_of_le this (h x.pool)
  refine isAt_iff.2 ⟨_, ?_, hx⟩
  rw [index_intern, Nat.toUInt32_eq, UInt32.toNat_ofNat', Nat.mod_eq_of_lt hlt]

end Pool

/-- An index that a pool hands out is a word, and refers to its literal as long
as the pool has an index for each. -/
def References.pool : References Pool where
  Means p x i := x.IsWord i ∧ (p.Fits → x.IsAt p i)
  intern p x := ⟨References.word.intern p x, p.isAt_intern x⟩
  mono p x _ _ h := ⟨h.1, fun hfits => Pool.isAt_intern_of_isAt x
    (h.2 fun k => Nat.le_trans (Pool.size_le_intern x p k) (hfits k))⟩

end AnnotationBands
