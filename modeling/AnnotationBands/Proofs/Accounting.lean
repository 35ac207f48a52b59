import AnnotationBands.Proofs.Session
/-!
# Four counts of the values below others

A group keeps a number of calls, the array elements and the pairs of nested
annotations below its trees, and nothing in its bytes says this number again.
It is what the counts in its bands add up to, what a recursion over its trees
gives, and what a walk over its bands from their start counts, whether the walk
passes over the trees or reads them (`Group.Accounts`). Every group that holds a
ledger is like this (`Group.Holds.accounts`). Main statement:
`Session.run_accounts`.
-/

namespace AnnotationBands

/-! ## Trees -/

namespace ElementValue

theorem callsOfPairs_eq (ps : List (String × ElementValue)) :
    callsOfPairs ps = ((ps.map Prod.snd).map backwardCalls).sum := by
  induction ps with
  | nil => rfl
  | cons p ps ih =>
    obtain ⟨name, v⟩ := p
    rw [callsOfPairs, ih]
    rfl

end ElementValue

namespace Tree

/-- The values that are not nested in another: those of an annotation's pairs,
or the default value itself. -/
def values : Tree → List ElementValue
  | root a => a.pairs.map Prod.snd
  | value v => [v]

theorem backwardCalls_eq (t : Tree) : t.backwardCalls = (t.values.map ElementValue.backwardCalls).sum := by
  cases t with
  | root a => exact ElementValue.callsOfPairs_eq a.pairs
  | value v => exact (List.sum_singleton).symm

end Tree

/-- The default values, or the values of all pairs of all annotations that are
not nested in another. -/
def Ledger.outermost (l : Ledger) : List ElementValue := l.trees.flatMap Tree.values

theorem Ledger.calls_eq (l : Ledger) : l.calls = (l.outermost.map ElementValue.backwardCalls).sum := by
  unfold calls outermost
  induction l.trees with
  | nil => rfl
  | cons t ts ih =>
    rw [List.map_cons, List.sum_cons, ih, Tree.backwardCalls_eq, List.flatMap_cons, List.map_append, List.sum_append]

/-! ## Walks over all trees -/

namespace Walk

/-- Passes over the next annotation or default value, as the kind has it. -/
def skipTree (kind : Kind) : Walk Unit := if kind.hasDescriptors then skipRoot else skipValue

/-- Reads the next annotation or default value, as the kind has it. -/
def readTree {L : Type} [Resolver L] (pool : L) (kind : Kind) : Walk Tree :=
  if kind.hasDescriptors then do
    let a ← readRoot pool
    return .root a
  else do
    let v ← readValue pool
    return .value v

theorem within_none (depth : Nat) : Within none depth := by
  intro m hm
  cases hm

section Trees

variable {kind : Kind} {limit : Option Nat} {t : Tree} {s : Segment}

theorem skipTree_consumes {M : Operand → Int → Prop} (h : Flat.Whole M t s) (hkind : t.isRoot = kind.hasDescriptors)
    (hd : Within limit t.depth) : Consumes limit (skipTree kind) s () := by
  rw [skipTree, ← hkind]
  cases t with
  | root a => exact skipRoot_consumes h hd
  | value v => exact skipValue_consumes h hd

theorem readTree_consumes {L : Type} [Resolver L] {pool : L} (h : Flat.Whole (Operand.IsAt pool) t s)
    (hkind : t.isRoot = kind.hasDescriptors) (hd : Within limit t.depth) : Consumes limit (readTree pool kind) s t := by
  rw [readTree, ← hkind]
  cases t with
  | root a => exact (readRoot_consumes h hd).map Tree.root
  | value v => exact (readValue_consumes h hd).map Tree.value

end Trees

end Walk

namespace Group

namespace Layout

variable {M : Operand → Int → Prop} {g : Group} {params annos : List Int} {trees : List Tree} {segs : List Segment}

/-- All trees stand ahead of a cursor at the start of the bands. -/
theorem before_start (h : Layout M g params annos trees segs) (limit : Option Nat) :
    (Cursor.start g.bands limit).Before (Segment.join segs) := by
  intro b
  by_cases hb : b.isEntryCount = true
  · rw [get_join_entryCount h.flat hb]
    exact List.nil_prefix
  · simp [Cursor.start, h.get_content (b := b) (by simpa using hb)]

/-- Each tree of a group is read back, as the group's kind has it. -/
theorem read_each {L : Type} [Resolver L] {pool : L} (h : Layout (Operand.IsAt pool) g params annos trees segs)
    {limit : Option Nat} (hd : ∀ t ∈ trees, Walk.Within limit t.depth) :
    List.Forall₂ (fun t s => Walk.Consumes limit (Walk.readTree pool g.kind) s t) trees segs :=
  forall₂_imp_mem h.flat fun t ht _ _ hs => Walk.readTree_consumes hs (h.shape t ht) (hd t ht)

end Layout

/-- All ways to count the values below others give the number that the group
keeps. -/
structure Accounts (g : Group) (l : Ledger) (pool : Pool) : Prop where
  bands : (g.calls : Int) = (g.bands.get .arrayCounts).sum + (g.bands.get .nestPairCounts).sum
  trees : g.calls = (l.outermost.map ElementValue.backwardCalls).sum
  skip : ∃ c, Walk.times l.trees.length (Walk.skipTree g.kind) (Cursor.start g.bands none) = .ok () c ∧
    c.calls = g.calls
  /-- Reading needs an index for every literal. -/
  read : pool.Fits → ∃ c,
    Walk.collect l.trees.length (Walk.readTree pool g.kind) (Cursor.start g.bands none) = .ok l.trees c ∧
      c.calls = g.calls

theorem Holds.accounts {pool : Pool} {g : Group} {l : Ledger} (h : g.Holds (References.pool.Means pool) l) :
    g.Accounts l pool := by
  obtain ⟨segs, hl⟩ := h.layout
  have hpast : ((Cursor.start g.bands none).past (Segment.join segs)).calls = g.calls := by
    rw [Cursor.calls_past, hl.calls]
    exact Nat.zero_add _
  constructor
  case bands =>
    rw [hl.calls, Layout.calls_join hl.flat, hl.get_content rfl, hl.get_content rfl]
  case trees => rw [h.calls, Ledger.calls_eq]
  case skip =>
    have hskip := Walk.times_consumes (hl.skip_each fun t _ => Walk.within_none t.depth)
    exact ⟨_, hskip _ rfl (hl.before_start none), hpast⟩
  case read =>
    intro hfits
    have hl' := hl.mono fun x i hx => hx.2 hfits
    have hread := Walk.collect_consumes (hl'.read_each fun t _ => Walk.within_none t.depth)
    exact ⟨_, hread _ rfl (hl.before_start none), hpast⟩

end Group

namespace Session

variable {ι : Type} [DecidableEq ι]

/-- Whatever calls are made on groups that share a pool, failed ones included,
the number of calls that each group keeps is the sum of two of its bands, the
number of values below those of its annotations' pairs or default values, and
what a walk over its bands counts that passes over all its trees or reads them. -/
theorem run_accounts (kind : ι → Kind) (context : ι → Context) (config : ι → Config) (pool : Pool)
    (calls : List (ι × Group.Change)) (i : ι) :
    let run := (start kind context config pool).run calls
    let own := ((Ledger.empty (kind i)).run (kind i) (config i).maxNestingDepth (only i calls)).2
    (run.2.groups i).Accounts own run.2.pool := by
  intro run own
  have hstart : (start kind context config pool).Holds References.pool fun i => .empty (kind i) :=
    start_holds kind context config pool
  obtain ⟨-, -, hholds⟩ := run_holds hstart calls i
  exact hholds.accounts

/-- An annotation with three values below its pairs, after an annotation that is
nested too deep and one that is removed again. -/
theorem run_accounts_after_undo :
    let kept : Annotation := ⟨"LA;", [("x", .array [.int 1, .int 2]), ("y", .nested "LB;" [("z", .string "s")])]⟩
    let calls : List (Unit × Group.Change) := [((), .addMember [kept]),
      ((), .addMember [⟨"LC;", [("x", .array [.array [.int 3]])]⟩]),
      ((), .addMember [⟨"LD;", [("x", .array [.int 4])]⟩]), ((), .removeLatest)]
    let run :=
      (start (fun _ : Unit => .visible) (fun _ => .method) (fun _ => { maxNestingDepth := 2 }) Pool.empty).run calls
    let group := run.2.groups ()
    run.2.pool.Fits ∧ group.calls = 3 ∧
      (group.bands.get .arrayCounts).sum + (group.bands.get .nestPairCounts).sum = 3 ∧
      (∃ c, Walk.times 1 (Walk.skipTree .visible) (Cursor.start group.bands none) = .ok () c ∧ c.calls = 3) ∧
      ∃ c, Walk.collect 1 (Walk.readTree run.2.pool .visible) (Cursor.start group.bands none) = .ok [.root kept] c ∧
        c.calls = 3 := by
  intro kept calls run group
  have hfits : run.2.pool.Fits := fun k => by cases k <;> decide +kernel
  let own := ((Ledger.empty .visible).run .visible 2 (only () calls)).2
  have h : group.Accounts own run.2.pool :=
    run_accounts (fun _ : Unit => .visible) (fun _ => .method) (fun _ => { maxNestingDepth := 2 }) Pool.empty calls ()
  have hown : own.trees = [.root kept] := by cbv
  have hcalls : group.calls = 3 := by decide +kernel
  have hkind : group.kind = .visible := by decide +kernel
  obtain ⟨hbands, -, hskip, hread⟩ := h
  rw [hown, hkind, hcalls] at hskip
  replace hread := hread hfits
  rw [hown, hkind, hcalls] at hread
  rw [hcalls] at hbands
  exact ⟨hfits, hcalls, hbands.symm, hskip, hread⟩

end Session

end AnnotationBands
