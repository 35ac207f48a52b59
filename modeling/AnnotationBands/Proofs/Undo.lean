import AnnotationBands.Proofs.Simulation
/-!
# Undoing an entry

Removing the latest entry right after adding it gives back the group as it was,
band by band and mark by mark, whatever the group went through before: a member
may have trees that no entry counts, or counts of trees that are missing
(`Reachable.removeLatest_of_add`).
-/

namespace AnnotationBands.Group

/-- The operation adds one whole entry. -/
def Change.AddsEntry : Change → Prop
  | .addMember as => as ≠ []
  | .addParameters _ | .addDefault _ => True
  | _ => False

/-! ## Marks -/

theorem marks_foldl_attach (g : Group) (ss : List Segment) :
    ∃ more, (ss.foldl attach g).marks = g.marks ++ more := by
  induction ss generalizing g with
  | nil => exact ⟨[], (List.append_nil _).symm⟩
  | cons s ss ih =>
    obtain ⟨more, hmore⟩ := ih (g.attach s)
    exact ⟨g.bands.mark :: more, by rw [List.foldl_cons, hmore, attach, List.append_assoc, List.singleton_append]⟩

theorem marks_foldl_push {α : Type} (g : Group) (b : Band) (f : α → Int) (xs : List α) :
    (xs.foldl (fun g x => g.push b (f x)) g).marks = g.marks := by
  induction xs generalizing g with
  | nil => rfl
  | cons x xs ih => exact ih _

/-! ## The latest entry of a layout -/

namespace Layout

variable {M : Operand → Int → Prop} {g : Group} {params annos : List Int} {trees : List Tree} {segs : List Segment}

theorem latestEntry_member {n : Nat} (h : Layout M g params (annos ++ [(n : Int)]) trees segs)
    (hkind : g.kind.isMember = true) : g.latestEntry = .ok ⟨0, 1, n⟩ := by
  have hp : g.kind.isParameter = false := by cases hk : g.kind <;> simp_all [Kind.isMember, Kind.isParameter]
  simp [latestEntry, hp, Kind.hasDescriptors_of_isMember hkind, h.bands_annoCounts]

theorem latestEntry_parameters {ps : List (List Annotation)}
    (h : Layout M g (params ++ [(ps.length : Int)]) (annos ++ ps.map fun as => (as.length : Int)) trees segs)
    (hkind : g.kind.isParameter = true) : g.latestEntry = .ok ⟨1, ps.length, ps.flatten.length⟩ := by
  simp [latestEntry, hkind, h.bands_paramCounts, h.bands_annoCounts, Function.comp_def]
  exact List.sum_eq_foldr.symm

theorem latestEntry_default (h : Layout M g params annos trees segs) (hkind : g.kind.hasDescriptors = false)
    (hne : trees ≠ []) : g.latestEntry = .ok ⟨0, 0, 1⟩ := by
  have hp : g.kind.isParameter = false := by cases hk : g.kind <;> simp_all [Kind.isParameter, Kind.hasDescriptors]
  have hmarks : g.marks ≠ [] := by
    rw [← List.length_pos_iff, ← h.length_trees]
    exact List.length_pos_iff.2 hne
  simp [latestEntry, hp, hkind, hmarks]

/-- What was added behind a layout as one entry is removed, down to the group
before. -/
theorem removeLatest_of_added {g' : Group} (params' annos' : List Int) (ts : List Tree) {ss : List Segment}
    (h : Layout M g params annos trees segs)
    (h' : Layout M g' (params ++ params') (annos ++ annos') (trees ++ ts) (segs ++ ss))
    (hlatest : g'.latestEntry = .ok ⟨params'.length, annos'.length, ts.length⟩) (hblank : g'.blank = g.blank)
    (hmarks : ∃ more, g'.marks = g.marks ++ more) : g'.removeLatest = .ok g := by
  obtain ⟨g'', hg'', hlayout, hblank', hmarks'⟩ := h'.removeLatest hlatest (by simp)
  have hadded : ts.length = ss.length := by
    have hlen := h'.flat.length_eq
    rw [List.length_append, List.length_append, h.flat.length_eq] at hlen
    omega
  simp only [List.length_append, Nat.add_sub_cancel, List.take_left] at hlayout
  rw [hadded, Nat.add_sub_cancel, List.take_left] at hlayout
  obtain ⟨more, hmore⟩ := hmarks
  have hkept : g'.marks.length - ts.length = g.marks.length := by
    rw [← h'.length_trees, ← h.length_trees, List.length_append, Nat.add_sub_cancel]
  rw [hkept, hmore, List.take_left] at hmarks'
  rw [hg'', hlayout.ext h (hblank'.trans hblank) hmarks']

end Layout

/-! ## Main theorem -/

theorem require_eq_ok {P α : Type} {g : Group} {allowed : Bool} {operation : Operation} {f : Unit → Flatten P α}
    {p q : P} {a : α} (h : (g.require allowed operation >>= f) p = .ok a q) : allowed = true ∧ f () p = .ok a q := by
  cases allowed with
  | true => exact ⟨rfl, h⟩
  | false => cases h

variable {P : Type} [Interner P]

/-- Removing the latest entry undoes an operation that added one, in every
group that operations lead to. -/
theorem Reachable.removeLatest_of_add {g g' : Group} {p q : P} {c : Change} (hg : g.Reachable) (hc : c.AddsEntry)
    (h : g.change c p = .ok g' q) : g'.removeLatest = .ok g := by
  obtain ⟨l, hholds⟩ := hg.holds
  obtain ⟨segs, hl⟩ := hholds.layout
  cases c with
  | addMember as =>
    obtain ⟨hkind, h⟩ := require_eq_ok h
    rw [if_neg (by simpa [Change.AddsEntry] using hc)] at h
    obtain ⟨ss, t, hss, ⟨⟩⟩ := bind_eq_ok.1 h
    obtain ⟨-, hd, hflat⟩ := (Flatten.roots_yields References.word _ as).ok hss
    have hadded := hl.add_member (Kind.hasDescriptors_of_isMember hkind) hflat hd
    have hblank : ((ss.foldl attach g).push .annoCounts as.length).blank = g.blank := by simp
    have hlatest := hadded.latestEntry_member (kind_eq_of_blank hblank ▸ hkind)
    rw [← List.append_nil l.paramCounts] at hadded
    refine hl.removeLatest_of_added [] [(as.length : Int)] (as.map .root) hadded ?_ hblank ?_
    · simpa using hlatest
    · exact marks_foldl_attach g ss
  | addParameters ps =>
    obtain ⟨hkind, h⟩ := require_eq_ok h
    by_cases hmany : maxParameters < ps.length
    · rw [if_pos hmany] at h
      cases h
    rw [if_neg hmany] at h
    obtain ⟨ss, t, hss, ⟨⟩⟩ := bind_eq_ok.1 h
    obtain ⟨-, hd, hflat⟩ := (Flatten.roots_yields References.word _ ps.flatten).ok hss
    have hadded := hl.add_parameters (Kind.hasDescriptors_of_isParameter hkind) hflat hd
    have hblank : (ss.foldl attach (ps.foldl (fun g as => g.push .annoCounts as.length)
        (g.push .paramCounts ps.length))).blank = g.blank := by
      rw [blank_foldl_attach, blank_foldl_push, blank_push]
    have hlatest := hadded.latestEntry_parameters (kind_eq_of_blank hblank ▸ hkind)
    refine hl.removeLatest_of_added [(ps.length : Int)] _ _ hadded ?_ hblank ?_
    · rw [hlatest, List.length_map, List.length_map]
      rfl
    -- the counts go in ahead of the trees and leave no mark
    obtain ⟨more, hmore⟩ := marks_foldl_attach (ps.foldl (fun g as => g.push .annoCounts as.length)
      (g.push .paramCounts ps.length)) ss
    exact ⟨more, by rw [hmore, marks_foldl_push]; rfl⟩
  | addDefault v =>
    obtain ⟨hkind, h⟩ := require_eq_ok h
    obtain ⟨s, t, hs, ⟨⟩⟩ := bind_eq_ok.1 h
    obtain ⟨-, hd, hflat⟩ := (Flatten.value_yields References.word _ v 1).ok hs
    have hdesc : g.kind.hasDescriptors = false := by simpa using hkind
    have hadded := hl.attach (t := .value v) hflat hdesc.symm (show v.depth ≤ _ by omega)
    have hlatest := hadded.latestEntry_default hdesc (by simp)
    exact hl.removeLatest_of_added [] [] [.value v] (by simpa using hadded) hlatest rfl ⟨[g.bands.mark], rfl⟩
  | _ => cases hc

/-- A member that counts an annotation which is missing takes an entry and
gives it up again. -/
theorem Reachable.removeLatest_of_add_unbalanced :
    let g := ((Group.empty .visible .method .default).step .openEntry Pool.empty).2.1
    ∃ g' q, g.change (.addMember [⟨"LA;", [("x", .int 1)]⟩]) Pool.empty = .ok g' q ∧ g'.removeLatest = .ok g := by
  intro g
  have hg : g.Reachable := (Reachable.empty .visible .method .default).step .openEntry Pool.empty
  have hadds : Change.AddsEntry (.addMember [⟨"LA;", [("x", .int 1)]⟩]) := List.cons_ne_nil _ _
  obtain ⟨g', q, h⟩ : ∃ g' q, g.change (.addMember [⟨"LA;", [("x", .int 1)]⟩]) Pool.empty = .ok g' q := ⟨_, _, rfl⟩
  exact ⟨g', q, h, hg.removeLatest_of_add hadds h⟩

end AnnotationBands.Group
