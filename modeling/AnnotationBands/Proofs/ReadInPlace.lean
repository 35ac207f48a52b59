import AnnotationBands.Proofs.Accounting
import AnnotationBands.Proofs.InPlace
import AnnotationBands.Proofs.Undo
/-!
# Trees are read where they stand

Adding puts further values behind those of a content band, and removing cuts
the band back to a mark. So the content that a group has at some point stays
where it is until one of the trees that the group had then is removed
(`Group.Retains`): each change keeps it (`Retains.step`), and so does a run
(`Session.run_retains`). Whoever has noted the lengths of the bands ahead of a
tree can therefore go back to it later and read it, or pass over it, whatever
has been added ahead of it and behind it. Main statement:
`Session.read_in_place`.
-/

namespace AnnotationBands

namespace Tree

/-- The operation that adds the tree and nothing else. -/
def addition : Tree → Group.Change
  | root a => .addOne a
  | value v => .addDefault v

end Tree

namespace Group

/-! ## Content that stays -/

/-- The group still has the content and the trees that it had earlier, and the
trees added since then start behind that content. -/
structure Retains (earlier g : Group) : Prop where
  trees : earlier.marks.length ≤ g.marks.length
  content : ∀ b : Band, b.isEntryCount = false → earlier.bands.get b <+: g.bands.get b
  behind : ∀ k, earlier.marks.length ≤ k → ∀ m, g.marks[k]? = some m → ∀ b : Band, b.isEntryCount = false →
    (earlier.bands.get b).length ≤ m.get b

namespace Retains

variable {earlier g g' : Group}

theorem refl (g : Group) : g.Retains g where
  trees := Nat.le_refl _
  content _ _ := List.prefix_rfl
  behind k hk m hm := by
    rw [List.getElem?_eq_none hk] at hm
    cases hm

/-- Counts of entries are no content. -/
theorem of_content (h : earlier.Retains g) (hmarks : g'.marks = g.marks)
    (hbands : ∀ b : Band, b.isEntryCount = false → g'.bands.get b = g.bands.get b) : earlier.Retains g' where
  trees := by rw [hmarks]; exact h.trees
  content b hb := by rw [hbands b hb]; exact h.content b hb
  behind := by rw [hmarks]; exact h.behind

theorem push (h : earlier.Retains g) {b : Band} (hb : b.isEntryCount = true) (v : Int) : earlier.Retains (g.push b v) := by
  refine h.of_content rfl fun b' hb' => ?_
  have hne : b' ≠ b := by
    rintro rfl
    exact Bool.noConfusion (hb.symm.trans hb')
  rw [Group.push, Bands.get_push, if_neg hne]

theorem foldl_push {α : Type} (h : earlier.Retains g) {b : Band} (hb : b.isEntryCount = true) (f : α → Int)
    (xs : List α) : earlier.Retains (xs.foldl (fun g x => g.push b (f x)) g) := by
  induction xs generalizing g with
  | nil => exact h
  | cons x xs ih => exact ih (h.push hb (f x))

/-- The mark of a new tree is behind everything that the group has. -/
theorem attach (h : earlier.Retains g) (s : Segment) : earlier.Retains (g.attach s) where
  trees := by
    rw [Group.attach, List.length_append]
    exact Nat.le_trans h.trees (Nat.le_add_right _ _)
  content b hb := by
    rw [Group.attach, Bands.get_append]
    exact (h.content b hb).trans (List.prefix_append _ _)
  behind k hk m hm b hb := by
    rw [Group.attach, List.getElem?_append] at hm
    by_cases hold : k < g.marks.length
    · rw [if_pos hold] at hm
      exact h.behind k hk m hm b hb
    · rw [if_neg hold, List.getElem?_singleton] at hm
      obtain rfl : g.bands.mark = m := by
        split at hm
        · exact Option.some.inj hm
        · cases hm
      rw [Bands.get_mark]
      exact (h.content b hb).length_le

theorem foldl_attach (h : earlier.Retains g) (ss : List Segment) : earlier.Retains (ss.foldl Group.attach g) := by
  induction ss generalizing g with
  | nil => exact h
  | cons s ss ih => exact ih (h.attach s)

/-- What is cut off starts at a mark behind the content from earlier, as long as
the trees from earlier stay. -/
theorem dropLatest (h : earlier.Retains g) {latest : LatestEntry} (calls : Nat)
    (htrees : earlier.marks.length ≤ g.marks.length - latest.trees) : earlier.Retains (g.dropLatest latest calls) where
  trees := by
    rw [Group.dropLatest, List.length_take]
    exact Nat.le_min.2 ⟨htrees, h.trees⟩
  content b hb := by
    have hdrop : (dropCounts g.bands latest).get b = g.bands.get b := by cases b <;> first | rfl | cases hb
    have hstart : (earlier.bands.get b).length ≤ (g.startOf latest.trees).get b := by
      rw [startOf]
      cases hm : g.marks[g.marks.length - latest.trees]? with
      | none =>
        rw [Option.getD_none, Bands.get_mark]
        exact (h.content b hb).length_le
      | some m => exact h.behind _ htrees m hm b hb
    rw [Group.dropLatest, Bands.get_truncateContent, if_neg (by simp [hb]), hdrop]
    exact List.prefix_take_iff.2 ⟨h.content b hb, hstart⟩
  behind k hk m hm b hb := by
    rw [Group.dropLatest, List.getElem?_take] at hm
    split at hm
    · exact h.behind k hk m hm b hb
    · cases hm

theorem removeLatest (h : earlier.Retains g) (hg' : g.removeLatest = .ok g')
    (htrees : earlier.marks.length ≤ g'.marks.length) : earlier.Retains g' := by
  cases hlatest : g.latestEntry with
  | error e => cases (removeLatest_of_error hlatest).symm.trans hg'
  | ok latest =>
    by_cases hlt : g.marks.length < latest.trees
    · cases (removeLatest_of_desync hlatest hlt).symm.trans hg'
    · rw [removeLatest_of_ok hlatest (Nat.le_of_not_lt hlt)] at hg'
      obtain ⟨calls, -, rfl⟩ := map_eq_ok.1 hg'
      refine h.dropLatest calls (Nat.le_trans htrees ?_)
      rw [Group.dropLatest, List.length_take]
      exact Nat.min_le_left ..

variable {P : Type} [Interner P] {p q : P}

/-- Every change keeps the content from earlier, unless it removes a tree from
earlier. -/
theorem change (h : earlier.Retains g) {c : Change} (hg' : g.change c p = .ok g' q)
    (htrees : earlier.marks.length ≤ g'.marks.length) : earlier.Retains g' := by
  cases c with
  | openEntry =>
    obtain ⟨-, ⟨⟩⟩ := require_eq_ok hg'
    exact h.push rfl 1
  | extendEntry =>
    obtain ⟨-, hg'⟩ := require_eq_ok hg'
    cases hlast : g.bands.annoCounts.getLast? with
    | none =>
      rw [hlast] at hg'
      cases hg'
    | some n =>
      rw [hlast] at hg'
      cases hg'
      exact h.of_content rfl fun b hb => by cases b <;> first | rfl | cases hb
  | addOne a =>
    obtain ⟨-, hg'⟩ := require_eq_ok hg'
    obtain ⟨s, _, -, ⟨⟩⟩ := bind_eq_ok.1 hg'
    exact h.attach s
  | addMember as =>
    obtain ⟨-, hg'⟩ := require_eq_ok hg'
    split at hg'
    · cases hg'
      exact h
    · obtain ⟨ss, _, -, ⟨⟩⟩ := bind_eq_ok.1 hg'
      exact (h.foldl_attach ss).push rfl _
  | addParameters ps =>
    obtain ⟨-, hg'⟩ := require_eq_ok hg'
    split at hg'
    · cases hg'
    · obtain ⟨ss, _, -, ⟨⟩⟩ := bind_eq_ok.1 hg'
      exact ((h.push rfl _).foldl_push rfl _ ps).foldl_attach ss
  | addDefault v =>
    obtain ⟨-, hg'⟩ := require_eq_ok hg'
    obtain ⟨s, _, -, ⟨⟩⟩ := bind_eq_ok.1 hg'
    exact h.attach s
  | removeLatest =>
    obtain ⟨hg', -⟩ := orThrow_eq_ok.1 hg'
    exact h.removeLatest hg' htrees

theorem step (h : earlier.Retains g) (c : Change) (p : P) (htrees : earlier.marks.length ≤ (g.step c p).2.1.marks.length) :
    earlier.Retains (g.step c p).2.1 := by
  unfold Group.step at htrees ⊢
  cases hc : g.change c p with
  | ok g' q =>
    rw [hc] at htrees
    exact h.change hc htrees
  | error e q => exact h

end Retains

/-! ## Reading what stays -/

/-- Adding a tree to a group that takes such trees puts one segment of it behind
the bands. -/
theorem step_addition {P : Type} [Interner P] (R : References P) {g : Group} {t : Tree} {p : P}
    (h : (g.step t.addition p).1 = .ok ()) :
    t.isRoot = g.kind.hasDescriptors ∧
      ∃ s, (g.step t.addition p).2.1 = g.attach s ∧ Flat.Whole (R.Means (g.step t.addition p).2.2) t s := by
  unfold Group.step at h ⊢
  cases hc : g.change t.addition p with
  | error e q =>
    rw [hc] at h
    cases h
  | ok g' q =>
    cases t with
    | root a =>
      obtain ⟨hkind, hc⟩ := require_eq_ok hc
      obtain ⟨s, _, hs, ⟨⟩⟩ := bind_eq_ok.1 hc
      exact ⟨(Kind.hasDescriptors_of_isMember hkind).symm, s, rfl, ((Flatten.root_yields R _ a).ok hs).2.2⟩
    | value v =>
      obtain ⟨hkind, hc⟩ := require_eq_ok hc
      obtain ⟨s, _, hs, ⟨⟩⟩ := bind_eq_ok.1 hc
      have hdesc : g.kind.hasDescriptors = false := by simpa using hkind
      exact ⟨hdesc.symm, s, rfl, ((Flatten.value_yields R _ v 1).ok hs).2.2⟩

/-- The mark ahead of a tree is right before its segment, as long as the tree
stays. -/
theorem Retains.before {M : Operand → Int → Prop} {g g' : Group} {t : Tree} {s : Segment} (h : (g.attach s).Retains g')
    (hs : Flat.Whole M t s) : (Cursor.ofMark g'.bands g.bands.mark none).Before s := by
  intro b
  by_cases hb : b.isEntryCount = true
  · rw [hs.get_entryCount hb]
    exact List.nil_prefix
  · obtain ⟨rest, hrest⟩ := h.content b (by simpa using hb)
    rw [Group.attach, Bands.get_append, List.append_assoc] at hrest
    simp only [Cursor.ofMark, Bands.get_mark, ← hrest, List.drop_left]
    exact List.prefix_append _ _

/-- Behind the segment of a tree, a cursor has the lengths from right after the
tree was added. -/
theorem past_attach {M : Operand → Int → Prop} {g : Group} {bands : Bands} {t : Tree} {s : Segment}
    (hs : Flat.Whole M t s) :
    (Cursor.ofMark bands g.bands.mark none).past s = ⟨bands, none, (g.attach s).bands.mark, t.backwardCalls⟩ := by
  refine Cursor.ext_get rfl rfl (fun b => ?_) ?_
  · simp [Cursor.ofMark, Group.attach, Bands.get_mark, Bands.get_append]
  · simp [Cursor.ofMark, hs.calls_eq]

end Group

namespace Session

variable {ι P : Type} [DecidableEq ι] [Interner P]

/-- A run on groups that share a pool keeps the content that one of them had,
as long as at no point a tree from then is removed. -/
theorem run_retains {s : Session ι P} {i : ι} {earlier : Group} (h : earlier.Retains (s.groups i))
    (calls : List (ι × Group.Change))
    (hstay : ∀ done, done <+: calls → earlier.marks.length ≤ ((s.run done).2.groups i).marks.length) :
    earlier.Retains ((s.run calls).2.groups i) := by
  induction calls generalizing s with
  | nil => exact h
  | cons call calls ih =>
    obtain ⟨j, c⟩ := call
    refine ih (s := (s.step j c).2) ?_ fun done hdone => hstay ((j, c) :: done) (List.cons_prefix_cons.2 ⟨rfl, hdone⟩)
    have hfirst : earlier.marks.length ≤ ((s.step j c).2.groups i).marks.length :=
      hstay [(j, c)] (List.cons_prefix_cons.2 ⟨rfl, List.nil_prefix⟩)
    by_cases hj : j = i
    · subst hj
      simp only [Session.step, Function.update_self] at hfirst ⊢
      exact h.step c s.pool hfirst
    · simpa only [Session.step, Function.update_of_ne (Ne.symm hj)] using h

/-- A run only ever adds to the pool. -/
theorem run_adds (s : Session ι P) (calls : List (ι × Group.Change)) : Interner.Adds s.pool (s.run calls).2.pool := by
  induction calls generalizing s with
  | nil => exact .refl _
  | cons call calls ih =>
    obtain ⟨j, c⟩ := call
    exact (InPlace.step_eq (s.groups j) c s.pool).2.trans (ih (s.step j c).2)

end Session

/-- An annotation or default value that was added to a group stays where it is.
Whatever the group was like, and whatever is then done to it and to other groups
that share the pool without removing the tree, a walk that starts at the lengths
from right before it was added gives the tree back, and ends at the lengths from
right after with the tree's own calls counted. Passing over it ends there too. -/
theorem Session.read_in_place {ι : Type} [DecidableEq ι] (s : Session ι Pool) (i : ι) (t : Tree)
    (hadded : (s.step i t.addition).1 = .ok ()) (later : List (ι × Group.Change))
    (hstays : ∀ done, done <+: later →
      (s.groups i).marks.length < (((s.step i t.addition).2.run done).2.groups i).marks.length)
    (hfits : ((s.step i t.addition).2.run later).2.pool.Fits) :
    let added := (s.step i t.addition).2
    let last := (added.run later).2
    let start := Cursor.ofMark (last.groups i).bands (s.groups i).bands.mark none
    let behind : Cursor := ⟨(last.groups i).bands, none, (added.groups i).bands.mark, t.backwardCalls⟩
    Walk.readTree last.pool (s.groups i).kind start = .ok t behind ∧
      Walk.skipTree (s.groups i).kind start = .ok () behind := by
  intro added last start behind
  obtain ⟨hkind, seg, hattach, hflat⟩ := Group.step_addition References.pool hadded
  have hgroup : added.groups i = (s.groups i).attach seg := by
    simpa only [added, Session.step, Function.update_self] using hattach
  -- later changes leave the segment where it is and its references what they are
  have hretains : ((s.groups i).attach seg).Retains (last.groups i) := by
    refine run_retains (hgroup ▸ Group.Retains.refl _) later fun done hdone => ?_
    rw [Group.attach, List.length_append]
    exact hstays done hdone
  have hflat : Flat.Whole (Operand.IsAt last.pool) t seg := by
    refine hflat.mono fun x j hx => ?_
    exact ((added.run_adds later).means x j hx).2 hfits
  have hbehind : start.past seg = behind := by
    simp only [behind, hgroup]
    exact Group.past_attach hflat
  have hbefore := hretains.before hflat
  rw [← hbehind]
  exact ⟨Walk.readTree_consumes hflat hkind (Walk.within_none _) start rfl hbefore,
    Walk.skipTree_consumes hflat hkind (Walk.within_none _) start rfl hbefore⟩

/-- An annotation behind another one. It is read after another group has taken a
default value and an entry was added behind it and removed again. -/
theorem Session.read_in_place_nested :
    let s := ((Session.start (fun i : Bool => if i then .visible else .annotationDefault) (fun _ => .method)
      (fun _ => .default) Pool.empty).run [(true, .addMember [⟨"LC;", [("c", .int 9)]⟩]),
        (false, .addDefault (.int 7))]).2
    let t : Tree := .root ⟨"LA;", [("x", .array [.double ⟨0x7ff8000000000001⟩, .int 7]),
      ("y", .nested "LB;" [("z", .string "LA;")])]⟩
    let later : List (Bool × Group.Change) := [(false, .addDefault (.string "z")),
      (true, .addMember [⟨"LD;", [("d", .array [.int 8])]⟩]), (true, .removeLatest)]
    let last := ((s.step true t.addition).2.run later).2
    let start := Cursor.ofMark (last.groups true).bands (s.groups true).bands.mark none
    ∃ c, Walk.readTree last.pool (s.groups true).kind start = .ok t c ∧
      Walk.skipTree (s.groups true).kind start = .ok () c ∧ c.calls = 3 := by
  intro s t later last start
  have hadded : (s.step true t.addition).1 = .ok () := by decide +kernel
  have hstays : ∀ done, done <+: later →
      (s.groups true).marks.length < (((s.step true t.addition).2.run done).2.groups true).marks.length := by
    have hall : ∀ done ∈ later.inits,
        (s.groups true).marks.length < (((s.step true t.addition).2.run done).2.groups true).marks.length := by
      decide +kernel
    exact fun done hdone => hall done ((List.mem_inits done later).2 hdone)
  have hfits : last.pool.Fits := fun k => by cases k <;> decide +kernel
  have hcalls : t.backwardCalls = 3 := by decide
  obtain ⟨hread, hskip⟩ := Session.read_in_place s true t hadded later hstays hfits
  exact ⟨_, hread, hskip, hcalls⟩

end AnnotationBands
