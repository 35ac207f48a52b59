import AnnotationBands.Group.Change
import AnnotationBands.Proofs.Counting
import AnnotationBands.Proofs.Steps
import AnnotationBands.Proofs.Traversal
/-!
# How a group lies in its bands

A group that holds a list of trees has their segments one behind the other in
its content bands, and each mark holds the lengths of these bands ahead of its
tree (`Group.Layout`). Adding trees and counts extends the layout at its end,
and removing the latest entry cuts it back, whichever way the removed calls are
found (`Layout.removeLatest`).
-/

namespace AnnotationBands

/-- A tree that is not nested in another: an annotation, or a default value. -/
inductive Tree where
  | root (a : Annotation)
  | value (v : ElementValue)

namespace Tree

def isRoot : Tree → Bool
  | root _ => true
  | value _ => false

def depth : Tree → Nat
  | root a => a.depth
  | value v => v.depth

def backwardCalls : Tree → Nat
  | root a => a.backwardCalls
  | value v => v.backwardCalls

end Tree

/-- The segments of a tree. -/
def Flat.Whole (M : Operand → Int → Prop) : Tree → Segment → Prop
  | .root a => Flat.Root M a
  | .value v => Flat.Value M v

theorem Flat.Whole.mono {M M' : Operand → Int → Prop} (hM : ∀ x i, M x i → M' x i) {t : Tree} {s : Segment}
    (h : Flat.Whole M t s) : Flat.Whole M' t s := by
  cases t with
  | root a => exact Flat.Root.mono hM h
  | value v => exact Flat.Value.mono hM h

theorem Flat.Whole.get_entryCount {M : Operand → Int → Prop} {t : Tree} {s : Segment} (h : Flat.Whole M t s) {b : Band}
    (hb : b.isEntryCount = true) : s.bands.get b = [] := by
  cases t with
  | root a => exact Flat.Root.get_entryCount h hb
  | value v => exact Flat.Value.get_top h (by cases b <;> first | decide | cases hb)

theorem Flat.Whole.calls_eq_sum {M : Operand → Int → Prop} {t : Tree} {s : Segment} (h : Flat.Whole M t s) :
    (s.calls : Int) = (s.bands.get .arrayCounts).sum + (s.bands.get .nestPairCounts).sum := by
  cases t with
  | root a => exact (Flat.Root.counted h).1.calls
  | value v => exact (Flat.Value.counted h).calls

theorem Flat.Whole.calls_eq {M : Operand → Int → Prop} {t : Tree} {s : Segment} (h : Flat.Whole M t s) :
    s.calls = t.backwardCalls := by
  cases t with
  | root a => exact Flat.Root.calls_eq h
  | value v => exact Flat.Value.calls_eq h

theorem Kind.hasDescriptors_of_isMember {kind : Kind} (h : kind.isMember = true) : kind.hasDescriptors = true :=
  (Bool.and_eq_true_iff.1 h).1

theorem Kind.hasDescriptors_of_isParameter {kind : Kind} (h : kind.isParameter = true) :
    kind.hasDescriptors = true := by
  cases kind <;> first | rfl | cases h

namespace Bands

/-- Content together with counts of entries. -/
def framed (params annos : List Int) (content : Bands) : Bands :=
  { content with paramCounts := params, annoCounts := annos }

theorem get_framed (params annos : List Int) (content : Bands) {b : Band} (hb : b.isEntryCount = false) :
    (framed params annos content).get b = content.get b := by
  cases b <;> first | rfl | cases hb

@[simp] theorem get_framed_paramCounts (params annos : List Int) (content : Bands) :
    (framed params annos content).get .paramCounts = params := rfl

@[simp] theorem get_framed_annoCounts (params annos : List Int) (content : Bands) :
    (framed params annos content).get .annoCounts = annos := rfl

end Bands

namespace Group

/-! ## Settings -/

/-- The new group with the same settings. -/
def blank (g : Group) : Group := .empty g.kind g.context g.config

@[simp] theorem blank_push (g : Group) (b : Band) (v : Int) : (g.push b v).blank = g.blank := rfl

@[simp] theorem blank_foldl_attach (g : Group) (ss : List Segment) : (ss.foldl attach g).blank = g.blank := by
  induction ss generalizing g with
  | nil => rfl
  | cons s ss ih => exact ih _

@[simp] theorem blank_foldl_push {α : Type} (g : Group) (b : Band) (f : α → Int) (xs : List α) :
    (xs.foldl (fun g x => g.push b (f x)) g).blank = g.blank := by
  induction xs generalizing g with
  | nil => rfl
  | cons x xs ih => exact ih _

theorem kind_eq_of_blank {g g' : Group} (h : g'.blank = g.blank) : g'.kind = g.kind :=
  show g'.blank.kind = g.blank.kind from congrArg Group.kind h

theorem config_eq_of_blank {g g' : Group} (h : g'.blank = g.blank) : g'.config = g.config :=
  show g'.blank.config = g.blank.config from congrArg Group.config h

/-! ## Layouts -/

/-- The group holds the trees as the segments, behind the given counts of
entries. -/
structure Layout (M : Operand → Int → Prop) (g : Group) (params annos : List Int) (trees : List Tree)
    (segs : List Segment) : Prop where
  bands : g.bands = .framed params annos (Segment.join segs).bands
  calls : g.calls = (Segment.join segs).calls
  flat : List.Forall₂ (Flat.Whole M) trees segs
  shape : ∀ t ∈ trees, t.isRoot = g.kind.hasDescriptors
  shallow : ∀ t ∈ trees, t.depth ≤ g.config.maxNestingDepth
  length_marks : g.marks.length = segs.length
  marks : ∀ k (h : k < g.marks.length) b, b.isEntryCount = false →
    g.marks[k].get b = ((Segment.join (segs.take k)).bands.get b).length

namespace Layout

variable {M M' : Operand → Int → Prop} {g : Group} {params annos : List Int} {trees : List Tree} {segs : List Segment}

theorem mono (hM : ∀ x i, M x i → M' x i) (h : Layout M g params annos trees segs) :
    Layout M' g params annos trees segs :=
  { h with flat := h.flat.imp fun _ _ => Flat.Whole.mono hM }

theorem length_trees (h : Layout M g params annos trees segs) : trees.length = g.marks.length := by
  rw [h.flat.length_eq, h.length_marks]

theorem get_join_entryCount (h : List.Forall₂ (Flat.Whole M) trees segs) {b : Band} (hb : b.isEntryCount = true) :
    (Segment.join segs).bands.get b = [] := by
  induction h with
  | nil => simp
  | cons hs _ ih => simp [hs.get_entryCount hb, ih]

/-- What adds up over all bands of content holds of what the group holds. -/
theorem additive {Q : Segment → Prop} (hQ : Flat.Additive M (fun _ => True) Q)
    (h : Layout M g params annos trees segs) :
    Q (Segment.join segs) := by
  have hall : List.Forall₂ (fun _ s => Q s) trees segs := h.flat.imp fun t s hs => by
    cases t with
    | root a => exact Flat.Root.additive hQ (fun _ _ => trivial) hs
    | value v => exact Flat.Value.additive hQ (fun _ _ => trivial) hs
  exact hQ.join hall

theorem get_content (h : Layout M g params annos trees segs) {b : Band} (hb : b.isEntryCount = false) :
    g.bands.get b = (Segment.join segs).bands.get b := by
  rw [h.bands, Bands.get_framed _ _ _ hb]

theorem bands_paramCounts (h : Layout M g params annos trees segs) : g.bands.paramCounts = params := by
  rw [h.bands]
  rfl

theorem bands_annoCounts (h : Layout M g params annos trees segs) : g.bands.annoCounts = annos := by
  rw [h.bands]
  rfl

theorem bands_eq (h : Layout M g params annos trees segs) : g.bands =
    (Segment.values .paramCounts params ++ (Segment.values .annoCounts annos ++ Segment.join segs)).bands := by
  refine PerBand.ext_get fun b => ?_
  rw [h.bands]
  cases b with
  | paramCounts => simp [get_join_entryCount h.flat (b := .paramCounts) rfl]
  | annoCounts => simp [get_join_entryCount h.flat (b := .annoCounts) rfl]
  | _ => rw [Bands.get_framed _ _ _ rfl]; simp

theorem empty (kind : Kind) (context : Context) (config : Config) :
    Layout M (Group.empty kind context config) [] [] [] [] where
  bands := rfl
  calls := rfl
  flat := .nil
  shape := by simp
  shallow := by simp
  length_marks := rfl
  marks k h := absurd h (Nat.not_lt_zero k)

/-! ### Adding -/

theorem push_annoCount (h : Layout M g params annos trees segs) (n : Int) :
    Layout M (g.push .annoCounts n) params (annos ++ [n]) trees segs where
  __ := h
  bands := by rw [push, h.bands]; rfl

theorem push_paramCount (h : Layout M g params annos trees segs) (n : Int) :
    Layout M (g.push .paramCounts n) (params ++ [n]) annos trees segs where
  __ := h
  bands := by rw [push, h.bands]; rfl

theorem setAnnoCounts (h : Layout M g params annos trees segs) (counts : List Int) :
    Layout M { g with bands := { g.bands with annoCounts := counts } } params counts trees segs where
  __ := h
  bands := by rw [h.bands]; rfl

theorem attach (h : Layout M g params annos trees segs) {t : Tree} {s : Segment} (ht : Flat.Whole M t s)
    (hshape : t.isRoot = g.kind.hasDescriptors) (hshallow : t.depth ≤ g.config.maxNestingDepth) :
    Layout M (g.attach s) params annos (trees ++ [t]) (segs ++ [s]) where
  bands := by
    refine PerBand.ext_get fun b => ?_
    rw [Group.attach, h.bands, Bands.get_append]
    by_cases hb : b.isEntryCount = true
    · rw [ht.get_entryCount hb, List.append_nil]
      cases b <;> first | rfl | cases hb
    · rw [Bands.get_framed _ _ _ (by simpa using hb), Bands.get_framed _ _ _ (by simpa using hb)]
      simp
  calls := by simp [Group.attach, h.calls]
  flat := List.rel_append h.flat (.cons ht .nil)
  shape := List.forall_mem_append.2 ⟨h.shape, List.forall_mem_singleton.2 hshape⟩
  shallow := List.forall_mem_append.2 ⟨h.shallow, List.forall_mem_singleton.2 hshallow⟩
  length_marks := by simp [Group.attach, h.length_marks]
  marks k hk b hb := by
    simp only [Group.attach, List.length_append, List.length_singleton] at hk ⊢
    have hlen := h.length_marks
    rw [List.take_append_of_le_length (by omega), List.getElem_append]
    split
    · rename_i hlt
      exact h.marks k hlt b hb
    · rename_i hge
      -- the new mark: the lengths of the bands just before the new tree
      obtain rfl : k = segs.length := by omega
      simp [Bands.get_mark, h.get_content hb]

/-- Trees added one after the other, a segment each. -/
theorem attach_all (h : Layout M g params annos trees segs) {ts : List Tree} {ss : List Segment}
    (hts : List.Forall₂ (Flat.Whole M) ts ss) (hshape : ∀ t ∈ ts, t.isRoot = g.kind.hasDescriptors)
    (hshallow : ∀ t ∈ ts, t.depth ≤ g.config.maxNestingDepth) :
    Layout M (ss.foldl Group.attach g) params annos (trees ++ ts) (segs ++ ss) := by
  induction hts generalizing g trees segs with
  | nil => simpa using h
  | @cons t s ts ss ht hts ih =>
    obtain ⟨hs, hss⟩ := List.forall_mem_cons.1 hshape
    obtain ⟨hd, hds⟩ := List.forall_mem_cons.1 hshallow
    simpa using ih (h.attach ht hs hd) hss hds

theorem push_annoCounts (h : Layout M g params annos trees segs) (ps : List (List Annotation)) :
    Layout M (ps.foldl (fun g as => g.push .annoCounts as.length) g) params
      (annos ++ ps.map fun as => (as.length : Int)) trees segs := by
  induction ps generalizing g annos with
  | nil => simpa using h
  | cons as ps ih => simpa using ih (h.push_annoCount as.length)

/-- Annotations added one after the other. -/
theorem attach_roots (h : Layout M g params annos trees segs) (hg : g.kind.hasDescriptors = true) {as : List Annotation}
    {ss : List Segment} (hs : List.Forall₂ (Flat.Root M) as ss) (hd : ∀ a ∈ as, a.depth ≤ g.config.maxNestingDepth) :
    Layout M (ss.foldl Group.attach g) params annos (trees ++ as.map .root) (segs ++ ss) := by
  have hwhole : List.Forall₂ (Flat.Whole M) (as.map .root) ss := List.forall₂_map_left_iff.2 hs
  refine h.attach_all hwhole ?_ ?_
  · simp [hg, Tree.isRoot]
  · simpa [Tree.depth] using hd

/-- One entry of a member added: its annotations and then their count. -/
theorem add_member (h : Layout M g params annos trees segs) (hg : g.kind.hasDescriptors = true) {as : List Annotation}
    {ss : List Segment} (hs : List.Forall₂ (Flat.Root M) as ss) (hd : ∀ a ∈ as, a.depth ≤ g.config.maxNestingDepth) :
    Layout M ((ss.foldl Group.attach g).push .annoCounts as.length) params (annos ++ [(as.length : Int)])
      (trees ++ as.map .root) (segs ++ ss) :=
  (h.attach_roots hg hs hd).push_annoCount _

/-- One entry of parameters added: the counts and then the annotations. -/
theorem add_parameters (h : Layout M g params annos trees segs) (hg : g.kind.hasDescriptors = true)
    {ps : List (List Annotation)} {ss : List Segment} (hs : List.Forall₂ (Flat.Root M) ps.flatten ss)
    (hd : ∀ a ∈ ps.flatten, a.depth ≤ g.config.maxNestingDepth) :
    Layout M
      (ss.foldl Group.attach (ps.foldl (fun g as => g.push .annoCounts as.length) (g.push .paramCounts ps.length)))
      (params ++ [(ps.length : Int)]) (annos ++ ps.map fun as => (as.length : Int)) (trees ++ ps.flatten.map .root)
      (segs ++ ss) := by
  have hcounts := (h.push_paramCount ps.length).push_annoCounts ps
  have hblank := blank_foldl_push (g.push .paramCounts ps.length) .annoCounts (fun as : List Annotation => as.length) ps
  exact hcounts.attach_roots (kind_eq_of_blank hblank ▸ hg) hs (config_eq_of_blank hblank ▸ hd)

/-- Two groups that hold the same segments behind the same counts, with the
same marks and settings, are the same. -/
theorem ext {g' : Group} (h : Layout M g params annos trees segs) (h' : Layout M' g' params annos trees segs)
    (hblank : g.blank = g'.blank) (hmarks : g.marks = g'.marks) : g = g' := by
  have hbands := h.bands.trans h'.bands.symm
  have hcalls := h.calls.trans h'.calls.symm
  cases g; cases g'
  simp only [blank, Group.empty, mk.injEq, and_true] at hblank hbands hcalls hmarks ⊢
  exact ⟨hblank.1, hblank.2.1, hblank.2.2, hbands, hcalls, hmarks⟩

/-! ### Removing -/

theorem calls_join (h : List.Forall₂ (Flat.Whole M) trees segs) :
    ((Segment.join segs).calls : Int) =
      ((Segment.join segs).bands.get .arrayCounts).sum + ((Segment.join segs).bands.get .nestPairCounts).sum := by
  induction h with
  | nil => rfl
  | cons hs _ ih =>
    have := hs.calls_eq_sum
    simp only [Segment.join_cons, Segment.calls_append, Segment.get_append, List.sum_append]
    push_cast
    omega

/-- The marks of trees tell how long the content bands were ahead of them; past
the last tree they have their full lengths. -/
theorem get_start (h : Layout M g params annos trees segs) {kept : Nat} (hk : kept ≤ segs.length) {b : Band}
    (hb : b.isEntryCount = false) :
    (g.marks[kept]?.getD g.bands.mark).get b = ((Segment.join (segs.take kept)).bands.get b).length := by
  have hlen := h.length_marks
  rcases Nat.lt_or_eq_of_le hk with hlt | rfl
  · rw [List.getElem?_eq_getElem (by omega), Option.getD_some]
    exact h.marks kept (by omega) b hb
  · rw [List.getElem?_eq_none (by omega), Option.getD_none, Bands.get_mark, h.get_content hb, List.take_length]

theorem get_split (h : Layout M g params annos trees segs) (kept : Nat) {b : Band} (hb : b.isEntryCount = false) :
    g.bands.get b =
      (Segment.join (segs.take kept)).bands.get b ++ (Segment.join (segs.drop kept)).bands.get b := by
  rw [h.get_content hb, ← Segment.get_append, ← Segment.join_append, List.take_append_drop]

theorem flat_drop (h : Layout M g params annos trees segs) (kept : Nat) :
    List.Forall₂ (Flat.Whole M) (trees.drop kept) (segs.drop kept) := List.forall₂_drop kept h.flat

/-- Each tree of a group is passed over as the group's kind has it. -/
theorem skip_each (h : Layout M g params annos trees segs) {limit : Option Nat}
    (hd : ∀ t ∈ trees, Walk.Within limit t.depth) :
    List.Forall₂ (fun _ s => Walk.Consumes limit (if g.kind.hasDescriptors then Walk.skipRoot else Walk.skipValue) s ())
      trees segs := by
  refine forall₂_imp_mem h.flat fun t ht s _ hs => ?_
  rw [← h.shape t ht]
  cases t with
  | root a => exact Walk.skipRoot_consumes hs (hd _ ht)
  | value v => exact Walk.skipValue_consumes hs (hd _ ht)

/-- Skipping the last trees of a group ends where the content bands do. -/
theorem skipTrees (h : Layout M g params annos trees segs) {kept : Nat} (hk : kept ≤ segs.length) :
    ∃ c, g.skipTrees (segs.length - kept) (Cursor.ofMark g.bands (g.marks[kept]?.getD g.bands.mark)
      (some g.config.maxNestingDepth)) = .ok () c ∧ c.calls = (Segment.join (segs.drop kept)).calls := by
  have hshallow : ∀ t ∈ trees, Walk.Within (some g.config.maxNestingDepth) t.depth := by
    rintro t ht _ ⟨⟩
    exact h.shallow t ht
  have hwalk := List.forall₂_drop kept (h.skip_each hshallow)
  have hlen : (trees.drop kept).length = segs.length - kept := by rw [List.length_drop, h.flat.length_eq]
  have hbefore : (Cursor.ofMark g.bands (g.marks[kept]?.getD g.bands.mark) (some g.config.maxNestingDepth)).Before
      (Segment.join (segs.drop kept)) := by
    intro b
    -- trees have nothing in the bands of entry counts, wherever these stand
    by_cases hb : b.isEntryCount = true
    · rw [get_join_entryCount (h.flat_drop kept) hb]
      exact List.nil_prefix
    · have hb : b.isEntryCount = false := by simpa using hb
      simp only [Cursor.ofMark, h.get_start hk hb, h.get_split kept hb, List.drop_left]
      exact List.prefix_rfl
  have hskip := Walk.times_consumes hwalk _ rfl hbefore
  rw [hlen] at hskip
  refine ⟨_, (bind_of_ok hskip).trans (Walk.ensureExhausted_ok fun b hb => ?_), Nat.zero_add _⟩
  have hb : b.isEntryCount = false := by simpa [Band.content] using (List.mem_filter.1 hb).2
  simp [Cursor.ofMark, h.get_start hk hb, h.get_split kept hb]

/-- The counts of elements and pairs behind the last trees' mark add up to the
calls of these trees. -/
theorem sumSince (h : Layout M g params annos trees segs) {kept : Nat} (hk : kept ≤ segs.length) :
    g.bands.sumSince .arrayCounts (g.marks[kept]?.getD g.bands.mark) +
      g.bands.sumSince .nestPairCounts (g.marks[kept]?.getD g.bands.mark) = (Segment.join (segs.drop kept)).calls := by
  have hsum {b : Band} (hb : b.isEntryCount = false) :
      g.bands.sumSince b (g.marks[kept]?.getD g.bands.mark) = ((Segment.join (segs.drop kept)).bands.get b).sum := by
    rw [Bands.sumSince_eq, h.get_start hk hb, h.get_split kept hb, List.drop_left]
  rw [hsum rfl, hsum rfl, ← calls_join (h.flat_drop kept)]

theorem callsSince (h : Layout M g params annos trees segs) {kept : Nat} (hk : kept ≤ segs.length) :
    g.callsSince (g.marks[kept]?.getD g.bands.mark) (segs.length - kept) =
      .ok (Segment.join (segs.drop kept)).calls := by
  unfold Group.callsSince
  split
  · obtain ⟨c, hc, hcalls⟩ := h.skipTrees hk
    rw [hc, ← hcalls]
  · rw [h.sumSince hk, Int.toNat_natCast]

/-- Removing the latest entry of a group removes what it counts from the end of
the layout. -/
theorem removeLatest (h : Layout M g params annos trees segs) {latest : LatestEntry}
    (hlatest : g.latestEntry = .ok latest) (htrees : latest.trees ≤ trees.length) :
    ∃ g', g.removeLatest = .ok g' ∧
      Layout M g' (params.take (params.length - latest.paramCounts)) (annos.take (annos.length - latest.annoCounts))
        (trees.take (trees.length - latest.trees)) (segs.take (segs.length - latest.trees)) ∧
      g'.blank = g.blank ∧ g'.marks = g.marks.take (g.marks.length - latest.trees) := by
  have hlen := h.flat.length_eq
  have hmarks := h.length_marks
  -- with or without the check, the calls taken off are those of the segments that go
  have hcalls := h.callsSince (show segs.length - latest.trees ≤ segs.length by omega)
  rw [show segs.length - (segs.length - latest.trees) = latest.trees by omega] at hcalls
  simp only [Group.removeLatest, hlatest, bind, Except.bind, hmarks,
    if_neg (show ¬ segs.length < latest.trees by omega), hcalls]
  refine ⟨_, rfl, ?_, rfl, rfl⟩
  have hparts := List.take_append_drop (segs.length - latest.trees) segs
  have hsplit := congrArg Segment.calls (congrArg Segment.join hparts)
  constructor
  case bands =>
    refine PerBand.ext_get fun b => ?_
    rw [Bands.get_truncateContent]
    -- counts of entries go by number, everything else is cut back to the mark
    by_cases hb : b.isEntryCount = true
    · rw [if_pos hb]
      cases b with
      | paramCounts => simp [PerBand.get, dropCounts, Bands.framed, h.bands_paramCounts]
      | annoCounts => simp [PerBand.get, dropCounts, Bands.framed, h.bands_annoCounts]
      | _ => cases hb
    · have hb : b.isEntryCount = false := by simpa using hb
      have hdrop : (dropCounts g.bands latest).get b = g.bands.get b := by cases b <;> first | rfl | cases hb
      rw [if_neg (by simp [hb]), hdrop, Bands.get_framed _ _ _ hb, h.get_start (by omega) hb,
        h.get_split (segs.length - latest.trees) hb, List.take_left]
  case calls =>
    simp only [Segment.join_append, Segment.calls_append] at hsplit
    simp only [h.calls]
    omega
  case flat => rw [hlen]; exact List.forall₂_take _ h.flat
  case shape => exact fun t ht => h.shape t (List.mem_of_mem_take ht)
  case shallow => exact fun t ht => h.shallow t (List.mem_of_mem_take ht)
  case length_marks => simp [hmarks]
  case marks =>
    intro k hk b hb
    simp only [List.length_take] at hk
    rw [List.take_take, Nat.min_eq_left (by omega)]
    simpa using h.marks k (by omega) b hb

end Layout

end Group

end AnnotationBands
