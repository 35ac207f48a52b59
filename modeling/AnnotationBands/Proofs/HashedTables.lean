import AnnotationBands.HashedPool
import AnnotationBands.Proofs.Interning
/-!
# Hashed tables

A hashed table leads from each of its literals to the position at which it
stands, and from nothing else (`HashedTable.Stores`). Interning keeps it so,
since a literal is added only when the map does not have it. The pool of such
tables therefore hands out the indices of the pool kept in memory and answers
every lookup alike (`HashedPool.Mirrors`). Main statement: whatever is interned
into a new pool, in whichever way its tables are kept, the indices are the
positions in first-seen order (`HashedPool.internAll_firstSeen`).
-/

namespace AnnotationBands

/-! ## One table -/

namespace HashedTable

section Contents

variable {α : Type} [BEq α] [Hashable α] {f : α → Operand} {t : HashedTable α} {l : List Operand}

/-- The table holds the literals in order, and its map has the position of each
and nothing else. -/
structure Stores (f : α → Operand) (t : HashedTable α) (l : List Operand) : Prop where
  entries : t.entries.toList.map f = l
  index : ∀ x, t.index[x]? = if f x ∈ l then some (l.idxOf (f x)).toUInt32 else none

theorem Stores.empty (f : α → Operand) : Stores f .empty [] := ⟨rfl, fun _ => Std.HashMap.getElem?_empty⟩

theorem Stores.size (h : Stores f t l) : t.entries.size = l.length := by
  rw [← h.entries, List.length_map, Array.length_toList]

theorem Stores.resolve (h : Stores f t l) (k : PoolKind) (i : Int) : f <$> t.resolve k i = k.lookup l i := by
  unfold HashedTable.resolve PoolKind.lookup
  rw [← h.entries]
  cases i.toNat? with
  | none => rfl
  | some n =>
    simp only [Option.bind_some, List.getElem?_map, Array.getElem?_toList]
    cases t.entries[n]? <;> rfl

end Contents

/-- A literal is added at the end when the map does not have it. -/
theorem Stores.intern {α : Type} [BEq α] [Hashable α] [LawfulBEq α] {f : α → Operand} {t : HashedTable α}
    {l : List Operand} (hf : Function.Injective f) (h : Stores f t l) (x : α) :
    (t.intern x).1 = (l.idxOf (f x)).toUInt32 ∧ Stores f (t.intern x).2 (if f x ∈ l then l else l ++ [f x]) := by
  unfold HashedTable.intern
  rw [h.index]
  by_cases hx : f x ∈ l
  · rw [if_pos hx, if_pos hx]
    exact ⟨rfl, h⟩
  · -- the new literal gets the number of those ahead of it
    rw [if_neg hx, if_neg hx, List.idxOf_eq_length hx, ← h.size]
    refine ⟨rfl, ?_, fun y => ?_⟩
    · rw [Array.toList_push, List.map_append, h.entries]
      rfl
    · rw [Std.HashMap.getElem?_insert, List.idxOf_append]
      by_cases hy : y = x
      · subst hy
        simp [hx, h.size]
      · have hne : f y ≠ f x := fun e => hy (hf e)
        rw [if_neg (by simpa using Ne.symm hy), h.index]
        by_cases hmem : f y ∈ l
        · rw [if_pos hmem, if_pos hmem, if_pos (List.mem_append_left _ hmem)]
        · have hnot : f y ∉ l ++ [f x] := by simp [hmem, hne]
          rw [if_neg hmem, if_neg hnot]

end HashedTable

/-! ## Pools of such tables -/

theorem map_injective {ε α β : Type} {f : α → β} (hf : Function.Injective f) :
    Function.Injective fun r : Except ε α => f <$> r := by
  intro r s h
  cases r with
  | ok x =>
    obtain ⟨y, hs, hy⟩ := map_eq_ok.1 h.symm
    rw [hs, hf hy]
  | error e => exact (map_eq_error.1 h.symm).symm

namespace HashedPool

open HashedTable (Stores)

/-- The tables hold what the pool kept in memory does; a table of constants that
is not there yet holds nothing. -/
structure Mirrors (h : HashedPool) (p : Pool) : Prop where
  utf8s : Stores .utf8 h.utf8s (p.literals .utf8)
  signatures : Stores .descriptor h.signatures (p.literals .signature)
  constants : ∀ k : PoolKind, k.isText = false →
    Stores (fun c => .constant c.constant) (h.constants.getD k .empty) (p.literals k)

variable {h : HashedPool} {p : Pool}

theorem mirrors_empty : Mirrors .empty .empty := by
  refine ⟨.empty _, .empty _, fun k hk => ?_⟩
  rw [show HashedPool.empty.constants = ∅ from rfl, Std.HashMap.getD_empty]
  cases k <;> exact .empty _

theorem injective_key : Function.Injective fun c : ConstantKey => Operand.constant c.constant := by
  rintro ⟨a⟩ ⟨b⟩ hab
  exact congrArg _ (Operand.constant.inj hab)

theorem Mirrors.intern (hp : Mirrors h p) (x : Operand) :
    (x.intern h).1 = (x.intern p).1 ∧ Mirrors (x.intern h).2 (x.intern p).2 := by
  have hself := p.literals_intern_self x
  have hother {k : PoolKind} (hk : k ≠ x.pool) := p.literals_intern_of_ne hk
  rw [p.index_intern]
  cases x with
  | utf8 s =>
    obtain ⟨hindex, htable⟩ := hp.utf8s.intern (fun _ _ => Operand.utf8.inj) s
    refine ⟨hindex, hself ▸ htable, ?_, fun k hk => ?_⟩
    · rw [hother (by simp [Operand.pool])]
      exact hp.signatures
    · rw [hother fun e => by rw [e] at hk; cases hk]
      exact hp.constants k hk
  | descriptor d =>
    obtain ⟨hindex, htable⟩ := hp.signatures.intern (fun _ _ => Operand.descriptor.inj) d
    refine ⟨hindex, ?_, hself ▸ htable, fun k hk => ?_⟩
    · rw [hother (by simp [Operand.pool])]
      exact hp.utf8s
    · rw [hother fun e => by rw [e] at hk; cases hk]
      exact hp.constants k hk
  | constant c =>
    have hc : c.pool.isText = false := by cases c <;> rfl
    have hne {k : PoolKind} (hk : k.isText = true) : k ≠ c.pool := by
      rintro rfl
      rw [hc] at hk
      cases hk
    obtain ⟨hindex, htable⟩ := (hp.constants c.pool hc).intern injective_key ⟨c⟩
    refine ⟨hindex, ?_, ?_, fun k hk => ?_⟩
    · rw [hother (hne rfl)]
      exact hp.utf8s
    · rw [hother (hne rfl)]
      exact hp.signatures
    · -- the table of the constant is put back, the others stay
      change Stores _ (Std.HashMap.getD (h.constants.insert c.pool _) k .empty) _
      rw [Std.HashMap.getD_insert]
      by_cases heq : k = c.pool
      · subst heq
        rw [if_pos (beq_self_eq_true _)]
        exact hself ▸ htable
      · rw [if_neg (by simpa using Ne.symm heq), hother heq]
        exact hp.constants k hk

/-- An index space without a table is as one with an empty table. -/
theorem size_eq (h : HashedPool) {k : PoolKind} (hk : k.isText = false) :
    h.size k = (h.constants.getD k .empty).entries.size := by
  have hsize : h.size k = (h.constants[k]?.map (·.entries.size)).getD 0 := by
    cases k <;> first | rfl | cases hk
  rw [hsize, Std.HashMap.getD_eq_getD_getElem?]
  cases h.constants[k]? <;> rfl

theorem constant_eq (h : HashedPool) {k : PoolKind} (hk : k.isText = false) (i : Int) :
    h.constant k i = ConstantKey.constant <$> (h.constants.getD k .empty).resolve k i := by
  rw [Std.HashMap.getD_eq_getD_getElem?]
  cases hget : h.constants[k]? with
  | some table => cases k <;> first | exact absurd hk (by decide) | simp only [constant, hget, Option.getD_some]
  | none =>
    have hnone : (HashedTable.empty (α := ConstantKey)).resolve k i = .error (.unresolvedReference k i) := by
      cases i <;> rfl
    rw [Option.getD_none, hnone]
    cases k <;> first | exact absurd hk (by decide) | simp only [constant, hget, Functor.map, Except.map]

theorem Mirrors.sameContents (hp : Mirrors h p) : SameContents Pool.size HashedPool.size p h := by
  constructor
  case size =>
    intro k
    rw [← Pool.length_literals]
    by_cases hk : k.isText = true
    · cases k <;> first | exact hp.utf8s.size | exact hp.signatures.size | cases hk
    · have hk : k.isText = false := by simpa using hk
      rw [h.size_eq hk, (hp.constants k hk).size]
  case descriptor =>
    intro i
    apply map_injective fun _ _ => Operand.descriptor.inj
    exact (hp.signatures.resolve .signature i).trans (p.resolve_eq .signature i).symm
  case utf8 =>
    intro i
    apply map_injective fun _ _ => Operand.utf8.inj
    exact (hp.utf8s.resolve .utf8 i).trans (p.resolve_eq .utf8 i).symm
  case constant =>
    intro k i
    by_cases hk : k.isText = true
    · cases k <;> first | rfl | cases hk
    · have hk : k.isText = false := by simpa using hk
      have hfound := (hp.constants k hk).resolve k i
      rw [← p.resolve_eq, PoolKind.resolve_constant hk] at hfound
      apply map_injective fun _ _ => Operand.constant.inj
      change Operand.constant <$> h.constant k i = Operand.constant <$> Resolver.constant p k i
      rw [h.constant_eq hk, ← hfound]
      cases (h.constants.getD k .empty).resolve k i <;> rfl

theorem Mirrors.internAll (hp : Mirrors h p) (xs : List Operand) :
    (internAll xs h).1 = (internAll xs p).1 ∧ Mirrors (internAll xs h).2 (internAll xs p).2 := by
  induction xs generalizing h p with
  | nil => exact ⟨rfl, hp⟩
  | cons x xs ih =>
    obtain ⟨hfirst, hp'⟩ := hp.intern x
    obtain ⟨hrest, hlast⟩ := ih hp'
    exact ⟨congrArg₂ _ hfirst hrest, hlast⟩

/-- Whatever is interned into a new pool, in whichever way its tables are kept,
the indices are the positions in first-seen order, and lookups find the
literals at them. -/
theorem internAll_firstSeen (xs : List Operand) (hfits : ∀ k, (firstSeen k xs).length ≤ 2 ^ 32) :
    let plain := internAll xs Pool.empty
    let hashed := internAll xs HashedPool.empty
    hashed.1 = plain.1 ∧ Interned Pool.size xs plain.1 plain.2 ∧ Interned HashedPool.size xs hashed.1 hashed.2 := by
  intro plain hashed
  obtain ⟨hindices, hlast⟩ := mirrors_empty.internAll xs
  have hplain := Pool.interned_internAll xs hfits
  refine ⟨hindices, hplain, ?_⟩
  rw [show hashed.1 = plain.1 from hindices]
  exact hplain.transfer hlast.sameContents fun x => (hlast.intern x).2.sameContents

/-- One text in two index spaces, one number in two more, and floating-point
constants that differ only in their bit patterns. -/
theorem internAll_firstSeen_bits :
    let double (bits : UInt64) := Operand.constant (.double ⟨bits⟩)
    let xs := [Operand.utf8 "a", .descriptor "a", double 0, double 0x8000000000000000, double 0x7ff8000000000000,
      .constant (.int 7), .constant (.long 7), double 0x8000000000000000, .utf8 "a", double 0x7ff8000000000000]
    let hashed := internAll xs HashedPool.empty
    (∀ k, (firstSeen k xs).length ≤ 2 ^ 32) ∧ hashed.1 = [0, 0, 0, 1, 2, 0, 0, 1, 0, 2] ∧
      Interned HashedPool.size xs hashed.1 hashed.2 := by
  intro double xs hashed
  have hfits : ∀ k, (firstSeen k xs).length ≤ 2 ^ 32 := fun k => by cases k <;> decide
  obtain ⟨hindices, -, hinterned⟩ := internAll_firstSeen xs hfits
  have hplain : (internAll xs Pool.empty).1 = [0, 0, 0, 1, 2, 0, 0, 1, 0, 2] := by decide
  exact ⟨hfits, hindices.trans hplain, hinterned⟩

end HashedPool

end AnnotationBands
