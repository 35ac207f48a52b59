import AnnotationBands.Proofs.Histories
import AnnotationBands.Proofs.PoolReferences
/-!
# A group does not depend on the pool

A tree that is flattened through two pools gives two segments that differ at
most in the indices, and where one has the index of a literal, the other has
an index of the same literal (`Flat.Value.twins`, `Flat.Root.twins`). So two
groups that hold the same ledger agree in everything but the values of their
references (`Group.Holds.alike`), and these are equal in one exactly where they
are in the other, since within an index space an index and its literal
determine each other (`Group.Holds.sameReferences`). Main statement: the
results of a history, the shape of the group and the pattern of its references
depend on the changes alone, whatever is in the pool at first and whatever
others intern (`Group.run_alike`).
-/

namespace AnnotationBands

/-- Two relations to the same list relate its images to each other. -/
theorem forall₂_of_common {α β γ : Type} {R : α → β → Prop} {S : α → γ → Prop} {Q : β → γ → Prop} {xs : List α}
    {ys : List β} {zs : List γ} (hy : List.Forall₂ R xs ys) (hz : List.Forall₂ S xs zs)
    (hQ : ∀ x ∈ xs, ∀ y z, R x y → S x z → Q y z) : List.Forall₂ Q ys zs := by
  induction hy generalizing zs with
  | nil =>
    cases hz
    exact .nil
  | cons hxy _ ih =>
    cases hz with
    | cons hxz hz =>
      refine .cons (hQ _ List.mem_cons_self _ _ hxy hxz) (ih hz fun x hx => ?_)
      exact hQ x (List.mem_cons_of_mem _ hx)

/-! ## One tree in two pools -/

namespace Segment

/-- The segments differ at most in their references, and these refer to the same
literals, by `M` in the first segment and by `N` in the second. -/
structure Twins (M N : Operand → Int → Prop) (s t : Segment) : Prop where
  calls : s.calls = t.calls
  plain : ∀ b : Band, b.pool? = none → s.bands.get b = t.bands.get b
  references : ∀ (b : Band) (k : PoolKind), b.pool? = some k →
    List.Forall₂ (fun i j => ∃ x : Operand, x.pool = k ∧ M x i ∧ N x j) (s.bands.get b) (t.bands.get b)

namespace Twins

variable {M N : Operand → Int → Prop} {s t u v : Segment}

theorem refl (h : ∀ b : Band, b.pool?.isSome → s.bands.get b = []) : Twins M N s s := by
  refine ⟨rfl, fun _ _ => rfl, fun b k hk => ?_⟩
  rw [h b (by rw [hk]; rfl)]
  exact .nil

theorem empty : Twins M N .empty .empty := refl fun _ _ => Segment.get_empty _

theorem calls_only (n : Nat) : Twins M N (.ofCalls n) (.ofCalls n) := refl fun _ _ => Segment.get_ofCalls _ _

/-- A count or a tag. -/
theorem single {b : Band} (hb : b.pool? = none) (n : Int) : Twins M N (.single b n) (.single b n) := by
  refine refl fun b' hb' => ?_
  rw [Segment.get_single, if_neg]
  rintro rfl
  rw [hb] at hb'
  cases hb'

/-- A reference to one literal. -/
theorem reference {b : Band} {x : Operand} {i j : Int} (hb : b.pool? = some x.pool) (hi : M x i) (hj : N x j) :
    Twins M N (.single b i) (.single b j) := by
  refine ⟨rfl, fun b' hb' => ?_, fun b' k hk => ?_⟩
  · have hne : b' ≠ b := by
      rintro rfl
      rw [hb] at hb'
      cases hb'
    rw [Segment.get_single, Segment.get_single, if_neg hne, if_neg hne]
  · rw [Segment.get_single, Segment.get_single]
    by_cases h : b' = b
    · subst h
      rw [if_pos rfl, if_pos rfl]
      exact .cons ⟨x, Option.some.inj (hb.symm.trans hk), hi, hj⟩ .nil
    · rw [if_neg h, if_neg h]
      exact .nil

theorem append (h : Twins M N s t) (h' : Twins M N u v) : Twins M N (s ++ u) (t ++ v) := by
  refine ⟨?_, fun b hb => ?_, fun b k hk => ?_⟩
  · rw [calls_append, calls_append, h.calls, h'.calls]
  · rw [get_append, get_append, h.plain b hb, h'.plain b hb]
  · rw [get_append, get_append]
    exact List.rel_append (h.references b k hk) (h'.references b k hk)

theorem join {ss ts : List Segment} (h : List.Forall₂ (Twins M N) ss ts) : Twins M N (.join ss) (.join ts) := by
  induction h with
  | nil => exact empty
  | cons h _ ih => exact h.append ih

theorem length_get (h : Twins M N s t) (b : Band) : (s.bands.get b).length = (t.bands.get b).length := by
  cases hb : b.pool? with
  | none => rw [h.plain b hb]
  | some k => exact (h.references b k hb).length_eq

end Twins

end Segment

namespace Flat

open Segment (Twins)

variable {M N : Operand → Int → Prop} {s t : Segment}

theorem Operands.twins {xs : List (CaseBand × Operand)} (hp : ∀ x ∈ xs, x.2.pool = x.1.pool) (hs : Operands M xs s)
    (ht : Operands N xs t) : Twins M N s t := by
  induction xs generalizing s t with
  | nil =>
    rw [show s = .empty from hs, show t = .empty from ht]
    exact .empty
  | cons x xs ih =>
    obtain ⟨hx, hxs⟩ := List.forall_mem_cons.1 hp
    obtain ⟨i, s, hi, hs, rfl⟩ := hs
    obtain ⟨j, t, hj, ht, rfl⟩ := ht
    have hband : x.1.band.pool? = some x.2.pool := by rw [Band.pool?_band, hx]
    exact (Twins.reference hband hi hj).append (ih hxs hs ht)

theorem Value.twins {v : ElementValue} (hs : Value M v s) (ht : Value N v t) : Twins M N s t := by
  induction v using ElementValue.induct generalizing s t with
  | literal v hv =>
    obtain ⟨s, hops, rfl⟩ := (value_literal hv s).1 hs
    obtain ⟨t, hopt, rfl⟩ := (value_literal hv t).1 ht
    exact (Twins.single rfl _).append (hops.twins v.pool_of_mem_zip hopt)
  | array items ih =>
    obtain ⟨ss, hss, rfl⟩ := value_array.1 hs
    obtain ⟨ts, hts, rfl⟩ := value_array.1 ht
    have hitems := forall₂_of_common hss hts fun v hv s t hs ht => ih v hv hs ht
    exact (Twins.single rfl _).append ((Twins.single rfl _).append ((Twins.calls_only _).append (.join hitems)))
  | nested descriptor pairs ih =>
    obtain ⟨i, ss, hi, hss, rfl⟩ := value_nested.1 hs
    obtain ⟨j, ts, hj, hts, rfl⟩ := value_nested.1 ht
    have hpairs : List.Forall₂ (Twins M N) ss ts := by
      refine forall₂_of_common hss hts ?_
      rintro p hp _ _ ⟨m, s, hm, hs, rfl⟩ ⟨n, t, hn, ht, rfl⟩
      exact (Twins.reference rfl hm hn).append (ih p hp hs ht)
    exact (Twins.single rfl _).append ((Twins.reference rfl hi hj).append ((Twins.single rfl _).append
      ((Twins.calls_only _).append (.join hpairs))))

theorem Root.twins {a : Annotation} (hs : Root M a s) (ht : Root N a t) : Twins M N s t := by
  obtain ⟨i, ss, hi, hss, rfl⟩ := root_iff.1 hs
  obtain ⟨j, ts, hj, hts, rfl⟩ := root_iff.1 ht
  have hpairs : List.Forall₂ (Twins M N) ss ts := by
    refine forall₂_of_common hss hts ?_
    rintro p _ _ _ ⟨m, s, hm, hs, rfl⟩ ⟨n, t, hn, ht, rfl⟩
    exact (Twins.reference rfl hm hn).append (hs.twins ht)
  exact (Twins.reference rfl hi hj).append ((Twins.single rfl _).append (.join hpairs))

theorem Whole.twins {tree : Tree} (hs : Whole M tree s) (ht : Whole N tree t) : Twins M N s t := by
  cases tree with
  | root a => exact Root.twins hs ht
  | value v => exact Value.twins hs ht

end Flat

/-! ## Groups that hold the same ledger -/

namespace Group

/-- The groups agree in everything but the values of their references. -/
structure Alike (g h : Group) : Prop where
  calls : g.calls = h.calls
  entryCount : g.entryCount = h.entryCount
  hasContent : g.hasContent = h.hasContent
  plain : ∀ b : Band, b.pool? = none → g.bands.get b = h.bands.get b
  length : ∀ b, (g.bands.get b).length = (h.bands.get b).length

/-- Two references of the first group into one index space are equal exactly
where those of the second group are. -/
def SameReferences (g h : Group) : Prop :=
  ∀ (b b' : Band) (k : PoolKind), b.pool? = some k → b'.pool? = some k →
    ∀ m n : Nat, m < (g.bands.get b).length → n < (g.bands.get b').length →
      ((g.bands.get b)[m]? = (g.bands.get b')[n]? ↔ (h.bands.get b)[m]? = (h.bands.get b')[n]?)

variable {M N : Operand → Int → Prop} {g h : Group} {l : Ledger}

/-- The content of groups that hold the same trees, as two segments. -/
theorem Holds.twins (hg : g.Holds M l) (hh : h.Holds N l) : ∃ s t : Segment, s.Twins M N t ∧
    ∀ b : Band, b.isEntryCount = false → g.bands.get b = s.bands.get b ∧ h.bands.get b = t.bands.get b := by
  obtain ⟨ss, hs⟩ := hg.layout
  obtain ⟨ts, ht⟩ := hh.layout
  have htwins := forall₂_of_common hs.flat ht.flat fun tree _ s t hs ht => Flat.Whole.twins hs ht
  exact ⟨_, _, .join htwins, fun b hb => ⟨hs.get_content hb, ht.get_content hb⟩⟩

theorem Holds.alike (hg : g.Holds M l) (hh : h.Holds N l) : g.Alike h := by
  obtain ⟨s, t, htwins, hget⟩ := hg.twins hh
  have hcounts (b : Band) (hb : b.isEntryCount = true) : g.bands.get b = h.bands.get b := by
    cases b with
    | paramCounts => exact hg.bands_paramCounts.trans hh.bands_paramCounts.symm
    | annoCounts => exact hg.bands_annoCounts.trans hh.bands_annoCounts.symm
    | _ => cases hb
  constructor
  case calls => exact hg.calls.trans hh.calls.symm
  case entryCount => exact hg.entryCount.trans hh.entryCount.symm
  case hasContent => exact hg.hasContent.trans hh.hasContent.symm
  case plain =>
    intro b hb
    by_cases hentry : b.isEntryCount = true
    · exact hcounts b hentry
    · obtain ⟨hgb, hhb⟩ := hget b (by simpa using hentry)
      rw [hgb, hhb, htwins.plain b hb]
  case length =>
    intro b
    by_cases hentry : b.isEntryCount = true
    · rw [hcounts b hentry]
    · obtain ⟨hgb, hhb⟩ := hget b (by simpa using hentry)
      rw [hgb, hhb, htwins.length_get]

/-- With pools in which indices and literals determine each other, references
are equal exactly when the literals that they stand for are. -/
theorem Holds.sameReferences (hg : g.Holds M l) (hh : h.Holds N l)
    (hM : ∀ {x y i j}, M x i → M y j → x.pool = y.pool → (i = j ↔ x = y))
    (hN : ∀ {x y i j}, N x i → N y j → x.pool = y.pool → (i = j ↔ x = y)) : g.SameReferences h := by
  obtain ⟨s, t, htwins, hget⟩ := hg.twins hh
  -- at each position both groups refer to one literal
  have hliteral (b : Band) (k : PoolKind) (hb : b.pool? = some k) (m : Nat) (hm : m < (g.bands.get b).length) :
      ∃ x i j, (g.bands.get b)[m]? = some i ∧ (h.bands.get b)[m]? = some j ∧ x.pool = k ∧ M x i ∧ N x j := by
    have hentry : b.isEntryCount = false := by cases b <;> first | rfl | cases hb
    obtain ⟨hgb, hhb⟩ := hget b hentry
    have hrel := htwins.references b k hb
    rw [hgb] at hm ⊢
    have hm' : m < (t.bands.get b).length := hrel.length_eq ▸ hm
    obtain ⟨x, hx, hi, hj⟩ := hrel.get hm hm'
    refine ⟨x, _, _, List.getElem?_eq_getElem hm, ?_, hx, hi, hj⟩
    rw [hhb]
    exact List.getElem?_eq_getElem hm'
  intro b b' k hb hb' m n hm hn
  obtain ⟨x, i, j, hi, hj, hx, hMx, hNx⟩ := hliteral b k hb m hm
  obtain ⟨y, i', j', hi', hj', hy, hMy, hNy⟩ := hliteral b' k hb' n hn
  rw [hi, hj, hi', hj', Option.some.injEq, Option.some.injEq]
  have hpool := hx.trans hy.symm
  exact (hM hMx hMy hpool).trans (hN hNx hNy hpool).symm

theorem Holds.sameReferences_of_fits {p q : Pool} (hg : g.Holds (References.pool.Means p) l)
    (hh : h.Holds (References.pool.Means q) l) (hp : p.Fits) (hq : q.Fits) : g.SameReferences h := by
  apply hg.sameReferences hh
  · exact fun hx hy => Pool.isAt_inj (hx.2 hp) (hy.2 hp)
  · exact fun hx hy => Pool.isAt_inj (hx.2 hq) (hy.2 hq)

/-! ## Main theorem -/

/-- Whatever is in the pool at first and whatever others intern, the results of
a history, the shape of the group and the pattern of its references depend on
the changes alone. -/
theorem run_alike (kind : Kind) (context : Context) (config : Config) (p q : Pool) (es fs : List Event)
    (hchanges : changes es = changes fs) :
    let left := (Group.empty kind context config).run p es
    let right := (Group.empty kind context config).run q fs
    left.results = right.results ∧ left.group.Alike right.group ∧
      (left.pool.Fits → right.pool.Fits → left.group.SameReferences right.group) := by
  intro left right
  have hstart (p : Pool) : (Group.empty kind context config).Holds (References.pool.Means p) (.empty kind) :=
    Holds.empty kind context config
  obtain ⟨hleft, -, hlholds⟩ := (hstart p).run es
  obtain ⟨hright, -, hrholds⟩ := (hstart q).run fs
  -- both groups hold the ledger of the same changes
  rw [← hchanges] at hright hrholds
  exact ⟨hleft.trans hright.symm, hlholds.alike hrholds, hlholds.sameReferences_of_fits hrholds⟩

/-- The same changes through a new pool and through one that others use before
and in between, after an annotation that is refused and leaves literals. -/
theorem run_alike_crowded_pool :
    let deep := Change.addOne ⟨"LA;", [("y", .array [.string "x"])]⟩
    let added := Change.addMember [⟨"LB;", [("x", .classLiteral "LB;")]⟩]
    let es := [Event.change deep, .change added]
    let fs := [Event.change deep, .intern (.utf8 "z"), .change added]
    let used := ((Operand.descriptor "LC;").intern Pool.empty).2
    let left := (Group.empty .visible .method { maxNestingDepth := 1 }).run Pool.empty es
    let right := (Group.empty .visible .method { maxNestingDepth := 1 }).run used fs
    changes es = changes fs ∧ left.pool.Fits ∧ right.pool.Fits ∧ left.results = right.results ∧
      left.group.Alike right.group ∧ left.group.SameReferences right.group ∧
      left.group.bands.types ≠ right.group.bands.types := by
  intro deep added es fs used left right
  have hleft : left.pool.Fits := fun k => by cases k <;> decide
  have hright : right.pool.Fits := fun k => by cases k <;> decide
  obtain ⟨hresults, halike, hreferences⟩ :=
    run_alike .visible .method { maxNestingDepth := 1 } Pool.empty used es fs rfl
  exact ⟨rfl, hleft, hright, hresults, halike, hreferences hleft hright, by decide⟩

end Group

end AnnotationBands
