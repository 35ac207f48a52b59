import AnnotationBands.Proofs.PoolReferences
/-!
# Interning literals one after the other

The distinct literals of an index space, in the order in which they are first
seen (`firstSeen`), say all about a pool that literals were interned into
(`Interned`): their positions are the indices, their number is the size, and
they are what lookups find. This holds of the pool kept in memory, from a new
pool on (`Pool.interned_internAll`), as long as there is an index for each
literal.
-/

namespace AnnotationBands

/-- Interns literals one after the other; their indices and the last pool. -/
def internAll {P : Type} [Interner P] : List Operand → P → List UInt32 × P
  | [], p => ([], p)
  | x :: xs, p =>
    let first := x.intern p
    let rest := internAll xs first.2
    (first.1 :: rest.1, rest.2)

theorem internAll_append {P : Type} [Interner P] (xs ys : List Operand) (p : P) : internAll (xs ++ ys) p =
    let first := internAll xs p
    let rest := internAll ys first.2
    (first.1 ++ rest.1, rest.2) := by
  induction xs generalizing p with
  | nil => rfl
  | cons x xs ih => simp only [List.cons_append, internAll, ih]

/-! ## Distinct literals in first-seen order -/

/-- The distinct literals of an index space, in the order in which they are
first seen. -/
def firstSeen (k : PoolKind) (xs : List Operand) : List Operand := (xs.filter (·.pool = k)).eraseDups

theorem mem_firstSeen {k : PoolKind} {xs : List Operand} {x : Operand} : x ∈ firstSeen k xs ↔ x ∈ xs ∧ x.pool = k := by
  simp [firstSeen]

/-- A literal that was not seen before comes last in its index space. -/
theorem firstSeen_concat (xs : List Operand) (x : Operand) :
    firstSeen x.pool (xs ++ [x]) =
      if x ∈ firstSeen x.pool xs then firstSeen x.pool xs else firstSeen x.pool xs ++ [x] := by
  have hself : [x].filter (fun y => y.pool = x.pool) = [x] := List.filter_eq_self.2 (by simp)
  unfold firstSeen
  rw [List.filter_append, hself, List.eraseDups_append]
  generalize xs.filter (fun y => y.pool = x.pool) = seen
  by_cases h : x ∈ seen
  · rw [if_pos (List.mem_eraseDups.2 h)]
    simp [List.removeAll, h]
  · rw [if_neg (mt List.mem_eraseDups.1 h)]
    simp [List.removeAll, h, List.eraseDups_cons]

theorem firstSeen_concat_of_ne {k : PoolKind} {x : Operand} (h : k ≠ x.pool) (xs : List Operand) :
    firstSeen k (xs ++ [x]) = firstSeen k xs := by
  simp [firstSeen, List.filter_append, Ne.symm h]

/-! ## Lookups -/

/-- The index spaces of text hold no constants. -/
def PoolKind.isText : PoolKind → Bool
  | .utf8 | .signature => true
  | _ => false

/-- The literal at an index of an index space. -/
def PoolKind.resolve {L : Type} [Resolver L] (k : PoolKind) (pool : L) (i : Int) : Except BandError Operand :=
  match k with
  | .signature => Operand.descriptor <$> Resolver.descriptor pool i
  | .utf8 => Operand.utf8 <$> Resolver.utf8 pool i
  | kind => Operand.constant <$> Resolver.constant pool kind i

theorem PoolKind.resolve_constant {L : Type} [Resolver L] {k : PoolKind} (hk : k.isText = false) (pool : L) (i : Int) :
    k.resolve pool i = Operand.constant <$> Resolver.constant pool k i := by
  cases k <;> first | rfl | cases hk

/-- The literal at an index, when these are the literals of the index space. -/
def PoolKind.lookup (k : PoolKind) (literals : List Operand) (i : Int) : Except BandError Operand :=
  match i.toNat?.bind (literals[·]?) with
  | some x => .ok x
  | none => .error (.unresolvedReference k i)

namespace PoolKind

theorem lookup_of_lt (k : PoolKind) {literals : List Operand} {i : Int} (hi : 0 ≤ i) (hlt : i < literals.length) :
    ∃ x ∈ literals, literals[i.toNat]? = some x ∧ k.lookup literals i = .ok x := by
  obtain ⟨n, rfl⟩ := Int.eq_ofNat_of_zero_le hi
  have hn : n < literals.length := Int.ofNat_lt.1 hlt
  have hget : literals[n]? = some literals[n] := List.getElem?_eq_getElem hn
  refine ⟨literals[n], List.getElem_mem hn, hget, ?_⟩
  simp [lookup, Int.toNat?, hget]

theorem lookup_of_not_lt (k : PoolKind) {literals : List Operand} {i : Int} (h : ¬(0 ≤ i ∧ i < literals.length)) :
    k.lookup literals i = .error (.unresolvedReference k i) := by
  cases i with
  | ofNat n =>
    have hn : literals[n]? = none := List.getElem?_eq_none (by simp at h; omega)
    simp [lookup, Int.toNat?, hn]
  | negSucc n => rfl

end PoolKind

theorem Operand.isAt_iff_resolve {L : Type} [Resolver L] {pool : L} {x : Operand} {i : Int} :
    x.IsAt pool i ↔ x.pool.resolve pool i = .ok x := by
  have map_ok {α : Type} (f : α → Operand) (hf : Function.Injective f) (r : Except BandError α) (v : α) :
      r = .ok v ↔ f <$> r = .ok (f v) := by
    rw [map_eq_ok]
    exact ⟨fun h => ⟨v, h, rfl⟩, fun ⟨w, h, hw⟩ => hf hw ▸ h⟩
  cases x with
  | utf8 s => exact map_ok Operand.utf8 (fun _ _ => Operand.utf8.inj) _ s
  | descriptor d => exact map_ok Operand.descriptor (fun _ _ => Operand.descriptor.inj) _ d
  | constant c => cases c <;> exact map_ok Operand.constant (fun _ _ => Operand.constant.inj) _ _

/-! ## What interning leads to -/

/-- After the literals were interned into a new pool: their indices, and what
the pool holds. -/
structure Interned {P : Type} [Interner P] [Resolver P] (size : P → PoolKind → Nat) (xs : List Operand)
    (indices : List UInt32) (pool : P) : Prop where
  /-- An index is the position among the distinct literals of the index space. -/
  position : indices.map UInt32.toNat = xs.map fun x => (firstSeen x.pool xs).idxOf x
  /-- Indices into one index space are equal exactly when the literals are. -/
  identity : ∀ x y i j, (x, i) ∈ xs.zip indices → (y, j) ∈ xs.zip indices → x.pool = y.pool → (i = j ↔ x = y)
  /-- An index still leads to its literal. -/
  stable : ∀ x i, (x, i) ∈ xs.zip indices → x.IsAt pool i.toNat
  length : ∀ k, size pool k = (firstSeen k xs).length
  found : ∀ (k : PoolKind) (i : Int), 0 ≤ i → i < size pool k →
    ∃ x, x.pool = k ∧ (firstSeen k xs)[i.toNat]? = some x ∧ k.resolve pool i = .ok x
  missing : ∀ (k : PoolKind) (i : Int), ¬(0 ≤ i ∧ i < size pool k) →
    k.resolve pool i = .error (.unresolvedReference k i)
  /-- Text is not looked up as a constant. -/
  sort : ∀ (k : PoolKind) (i : Int), k.isText = true → Resolver.constant pool k i = .error (.unresolvedReference k i)
  variant : ∀ (k : PoolKind) (i : Int) (c : Constant), Resolver.constant pool k i = .ok c → c.pool = k
  /-- Another literal leaves the other index spaces alone. -/
  others : ∀ (x : Operand) (k : PoolKind), k ≠ x.pool → size (x.intern pool).2 k = size pool k ∧
    ∀ i, k.resolve (x.intern pool).2 i = k.resolve pool i

section Transfer

variable {P Q : Type} [Resolver P] [Resolver Q] {size : P → PoolKind → Nat} {size' : Q → PoolKind → Nat}

/-- The pools have the same sizes and answer lookups alike. -/
structure SameContents (size : P → PoolKind → Nat) (size' : Q → PoolKind → Nat) (p : P) (q : Q) : Prop where
  size : ∀ k, size' q k = size p k
  descriptor : ∀ i, Resolver.descriptor q i = Resolver.descriptor p i
  utf8 : ∀ i, Resolver.utf8 q i = Resolver.utf8 p i
  constant : ∀ k i, Resolver.constant q k i = Resolver.constant p k i

theorem SameContents.resolve {p : P} {q : Q} (h : SameContents size size' p q) (k : PoolKind) (i : Int) :
    k.resolve q i = k.resolve p i := by
  simp only [PoolKind.resolve, h.utf8, h.descriptor, h.constant]

theorem Interned.transfer [Interner P] [Interner Q] {xs : List Operand} {indices : List UInt32} {p : P} {q : Q}
    (h : Interned size xs indices p) (hsame : SameContents size size' p q)
    (hnext : ∀ x : Operand, SameContents size size' (x.intern p).2 (x.intern q).2) : Interned size' xs indices q where
  position := h.position
  identity := h.identity
  stable x i hx := by
    rw [Operand.isAt_iff_resolve, hsame.resolve]
    exact Operand.isAt_iff_resolve.1 (h.stable x i hx)
  length k := by rw [hsame.size, h.length]
  found k i := by
    rw [hsame.size, hsame.resolve]
    exact h.found k i
  missing k i := by
    rw [hsame.size, hsame.resolve]
    exact h.missing k i
  sort k i := by
    rw [hsame.constant]
    exact h.sort k i
  variant k i := by
    rw [hsame.constant]
    exact h.variant k i
  others x k hk := by
    obtain ⟨hsize, hresolve⟩ := h.others x k hk
    refine ⟨by rw [(hnext x).size, hsame.size, hsize], fun i => ?_⟩
    rw [(hnext x).resolve, hsame.resolve, hresolve]

end Transfer

/-! ## The pool kept in memory -/

/-- A lookup, seen through a function. -/
theorem Table.map_resolve {α : Type} (f : α → Operand) (k : PoolKind) (t : Table α) (i : Int) :
    f <$> t.resolve k i = k.lookup (t.entries.map f) i := by
  cases i with
  | ofNat n =>
    simp only [Table.resolve, PoolKind.lookup, Int.toNat?, Option.bind_some, List.getElem?_map]
    cases t.entries[n]? <;> rfl
  | negSucc n => rfl

namespace Pool

theorem resolve_eq (p : Pool) (k : PoolKind) (i : Int) : k.resolve p i = k.lookup (p.literals k) i := by
  have constant_map {α : Type} (f : α → Constant) (t : Table α) :
      Operand.constant <$> f <$> t.resolve k i = k.lookup (t.entries.map fun v => .constant (f v)) i := by
    rw [← Table.map_resolve]
    cases t.resolve k i <;> rfl
  cases k with
  | utf8 => exact p.utf8s.map_resolve .utf8 .utf8 i
  | signature => exact p.signatures.map_resolve .descriptor .signature i
  | int => exact constant_map .int p.ints
  | float => exact constant_map .float p.floats
  | long => exact constant_map .long p.longs
  | double => exact constant_map .double p.doubles

theorem pool_of_constant {p : Pool} {k : PoolKind} {i : Int} {c : Constant} (h : Resolver.constant p k i = .ok c) :
    c.pool = k := by
  cases k with
  | utf8 => cases h
  | signature => cases h
  | _ =>
    obtain ⟨v, -, rfl⟩ := map_eq_ok.1 h
    rfl

/-- Literals that are interned later come last, so the position of one that is
there stays. -/
theorem idxOf_literals_internAll (xs : List Operand) {p : Pool} {x : Operand} (hx : x ∈ p.literals x.pool) :
    ((internAll xs p).2.literals x.pool).idxOf x = (p.literals x.pool).idxOf x := by
  induction xs generalizing p with
  | nil => rfl
  | cons y ys ih =>
    obtain ⟨more, hmore⟩ := prefix_intern y p x.pool
    have hy : x ∈ (y.intern p).2.literals x.pool := hmore ▸ List.mem_append_left more hx
    exact (ih hy).trans (hmore ▸ List.idxOf_append_of_mem hx)

theorem idxOf_literals_intern (x : Operand) (p : Pool) :
    ((x.intern p).2.literals x.pool).idxOf x = (p.literals x.pool).idxOf x := by
  rw [literals_intern_self]
  split
  · rfl
  · rename_i hx
    rw [List.idxOf_append, if_neg hx, List.idxOf_eq_length hx, List.idxOf_cons_self, Nat.zero_add]

/-- The indices of literals are where they stand in the end. -/
theorem indices_internAll (xs : List Operand) (p : Pool) : (internAll xs p).1 =
    xs.map fun x => (((internAll xs p).2.literals x.pool).idxOf x).toUInt32 := by
  induction xs generalizing p with
  | nil => rfl
  | cons x xs ih =>
    -- the first literal stays where it is while the others are interned
    have hhead := idxOf_literals_internAll xs (List.mem_of_getElem? (getElem?_literals_intern x p))
    rw [idxOf_literals_intern] at hhead
    simp only [internAll, List.map_cons, hhead, index_intern]
    exact congrArg _ (ih _)

theorem literals_internAll (xs : List Operand) (k : PoolKind) : (internAll xs empty).2.literals k = firstSeen k xs := by
  -- the literal that is interned last is the one that comes last
  induction xs using List.reverseRecOn with
  | nil => cases k <;> rfl
  | append_singleton xs x ih =>
    rw [internAll_append]
    change (x.intern (internAll xs empty).2).2.literals k = _
    by_cases h : k = x.pool
    · subst h
      rw [literals_intern_self, ih, firstSeen_concat]
    · rw [literals_intern_of_ne _ h, ih, firstSeen_concat_of_ne h]

/-- Interning literals into a new pool gives them their positions in first-seen
order, for good. -/
theorem interned_internAll (xs : List Operand) (hfits : ∀ k, (firstSeen k xs).length ≤ 2 ^ 32) :
    Interned size xs (internAll xs empty).1 (internAll xs empty).2 := by
  have hsize (k : PoolKind) : (internAll xs empty).2.size k = (firstSeen k xs).length := by
    rw [← length_literals, literals_internAll]
  have hresolve (k : PoolKind) (i : Int) : k.resolve (internAll xs empty).2 i = k.lookup (firstSeen k xs) i := by
    rw [resolve_eq, literals_internAll]
  have hindices := indices_internAll xs empty
  simp only [literals_internAll] at hindices
  -- no position is too large for an index
  have hposition {x : Operand} (hx : x ∈ xs) :
      ((firstSeen x.pool xs).idxOf x).toUInt32.toNat = (firstSeen x.pool xs).idxOf x := by
    have hlt := List.idxOf_lt_length_of_mem (mem_firstSeen.2 ⟨hx, rfl⟩)
    rw [Nat.toUInt32_eq, UInt32.toNat_ofNat', Nat.mod_eq_of_lt (Nat.lt_of_lt_of_le hlt (hfits x.pool))]
  have hstable (x : Operand) (i : UInt32) (h : (x, i) ∈ xs.zip (internAll xs empty).1) :
      x.IsAt (internAll xs empty).2 i.toNat := by
    rw [hindices, ← List.map_prod_left_eq_zip] at h
    obtain ⟨y, hy, hi⟩ := List.mem_map.1 h
    cases hi
    rw [hposition hy]
    refine isAt_iff.2 ⟨_, rfl, ?_⟩
    rw [literals_internAll]
    exact List.getElem?_idxOf (mem_firstSeen.2 ⟨hy, rfl⟩)
  constructor
  case position =>
    rw [hindices, List.map_map]
    exact List.map_congr_left fun x hx => hposition hx
  case identity =>
    intro x y i j hx hy hpool
    rw [← isAt_inj (hstable x i hx) (hstable y j hy) hpool, Int.ofNat_inj, UInt32.toNat_inj]
  case stable => exact hstable
  case length => exact hsize
  case found =>
    intro k i hi hlt
    rw [hsize] at hlt
    obtain ⟨x, hx, hget, hok⟩ := k.lookup_of_lt hi hlt
    exact ⟨x, (mem_firstSeen.1 hx).2, hget, (hresolve k i).trans hok⟩
  case missing =>
    intro k i h
    rw [hsize] at h
    rw [hresolve, k.lookup_of_not_lt h]
  case sort =>
    intro k i hk
    cases k <;> first | rfl | cases hk
  case variant => exact fun k i c h => pool_of_constant h
  case others =>
    intro x k hk
    have hliterals := literals_intern_of_ne (internAll xs empty).2 hk
    refine ⟨by rw [← length_literals, hliterals, length_literals], fun i => ?_⟩
    rw [resolve_eq, resolve_eq, hliterals]

end Pool

end AnnotationBands
