import AnnotationBands.Group.Change
import AnnotationBands.Proofs.Entries
import AnnotationBands.Proofs.Flatten
import AnnotationBands.Proofs.Layout
/-!
# Groups as plain lists

A ledger is what a group holds when nothing is flattened: default values,
entries of parameters, or annotations of members together with the counts of
their entries. `Ledger.change` says what each operation does to it, without
bands, marks or a pool. A group that holds a ledger (`Group.Holds`) answers
every operation as the ledger does and holds the new ledger afterwards
(`Holds.change`), and everything that can be observed of it is read off the
ledger (`Holds.entryCount`, `Holds.hasContent`, `Holds.calls`, `Holds.decode`).
-/

namespace AnnotationBands

/-- What a group holds, by the shape of its kind. -/
inductive Ledger where
  | defaults (values : List ElementValue)
  | parameters (entries : List (List (List Annotation)))
  /-- The counts need not add up to the number of annotations. -/
  | members (annotations : List Annotation) (counts : List Nat)

namespace Ledger

def isDefaults : Ledger → Bool
  | defaults _ => true
  | _ => false

def isParameters : Ledger → Bool
  | parameters _ => true
  | _ => false

def isMembers : Ledger → Bool
  | members _ _ => true
  | _ => false

def empty (kind : Kind) : Ledger :=
  if kind.isParameter then parameters [] else if kind.hasDescriptors then members [] [] else defaults []

/-- The ledger after an operation, with a limit on the depth of trees. -/
def change (kind : Kind) (limit : Nat) (l : Ledger) : Group.Change → Except BandError Ledger
  | .openEntry =>
    match l with
    | members as ns => .ok (members as (ns ++ [1]))
    | _ => .error (.wrongKind kind .openEntry)
  | .extendEntry =>
    match l with
    | members as ns =>
      match ns.getLast? with
      | none => .error (.noOpenEntry .annoCounts)
      | some n => .ok (members as (ns.dropLast ++ [n + 1]))
    | _ => .error (.wrongKind kind .extendEntry)
  | .addOne a =>
    match l with
    | members as ns =>
      if a.depth ≤ limit then .ok (members (as ++ [a]) ns) else .error (.nestingTooDeep limit)
    | _ => .error (.wrongKind kind .addOne)
  | .addMember added =>
    match l with
    | members as ns =>
      if added.isEmpty then .ok l
      else if ∀ a ∈ added, a.depth ≤ limit then .ok (members (as ++ added) (ns ++ [added.length]))
      else .error (.nestingTooDeep limit)
    | _ => .error (.wrongKind kind .addMember)
  | .addParameters ps =>
    match l with
    | parameters es =>
      if 255 < ps.length then .error (.tooManyParameters ps.length)
      else if ∀ a ∈ ps.flatten, a.depth ≤ limit then .ok (parameters (es ++ [ps]))
      else .error (.nestingTooDeep limit)
    | _ => .error (.wrongKind kind .addParameters)
  | .addDefault v =>
    match l with
    | defaults vs => if v.depth ≤ limit then .ok (defaults (vs ++ [v])) else .error (.nestingTooDeep limit)
    | _ => .error (.wrongKind kind .addDefault)
  | .removeLatest =>
    match l with
    | defaults vs => if vs.isEmpty then .error (.noOpenEntry .tags) else .ok (defaults vs.dropLast)
    | parameters es => if es.isEmpty then .error (.noOpenEntry .paramCounts) else .ok (parameters es.dropLast)
    | members as ns =>
      match ns.getLast? with
      | none => .error (.noOpenEntry .annoCounts)
      | some n =>
        if as.length < n then .error (.desync .annoCounts n as.length)
        else .ok (members (as.take (as.length - n)) ns.dropLast)

/-- The extent of the latest entry. -/
def latest : Ledger → Except BandError LatestEntry
  | defaults vs => if vs.isEmpty then .error (.noOpenEntry .tags) else .ok ⟨0, 0, 1⟩
  | parameters es =>
    match es.getLast? with
    | none => .error (.noOpenEntry .paramCounts)
    | some ps => .ok ⟨1, ps.length, ps.flatten.length⟩
  | members _ ns =>
    match ns.getLast? with
    | none => .error (.noOpenEntry .annoCounts)
    | some n => .ok ⟨0, 1, n⟩

/-- Makes a change, or leaves the ledger as it is when it fails. -/
def step (kind : Kind) (limit : Nat) (l : Ledger) (c : Group.Change) : Except BandError Unit × Ledger :=
  match l.change kind limit c with
  | .ok l' => (.ok (), l')
  | .error e => (.error e, l)

/-- The trees in the order of their addition. -/
def trees : Ledger → List Tree
  | defaults vs => vs.map .value
  | parameters es => es.flatten.flatten.map .root
  | members as _ => as.map .root

/-- The annotations that are not nested in another. -/
def annotations : Ledger → List Annotation
  | defaults _ => []
  | parameters es => es.flatten.flatten
  | members as _ => as

/-- The default values. -/
def values : Ledger → List ElementValue
  | defaults vs => vs
  | _ => []

/-- The number of parameters of each entry. -/
def paramCounts : Ledger → List Int
  | parameters es => es.map fun ps => (ps.length : Int)
  | _ => []

/-- The number of annotations of each declaration or parameter. -/
def annoCounts : Ledger → List Int
  | defaults _ => []
  | parameters es => es.flatten.map fun as => (as.length : Int)
  | members _ ns => ns.map Nat.cast

def entryCount : Ledger → Nat
  | defaults vs => vs.length
  | parameters es => es.length
  | members _ ns => ns.length

def hasContent (l : Ledger) : Bool := !l.trees.isEmpty

/-- The values below others. -/
def calls (l : Ledger) : Nat := (l.trees.map Tree.backwardCalls).sum

/-- The entries. Annotations that no entry counts, and counts of annotations
that are missing, are an error. -/
def decode : Ledger → Except BandError (List Entry)
  | defaults vs => .ok (vs.map .defaultValue)
  | parameters es => .ok (es.map .parameters)
  | members as ns =>
    if ns.sum < as.length then .error (.desync .types ns.sum as.length)
    else if as.length < ns.sum then .error (.desync .types (as.length + 1) as.length)
    else .ok ((ns.splitLengths as).map .member)

/-- The ledger has the shape of the kind, and its counts are those of
operations that succeeded. -/
def Suits (kind : Kind) : Ledger → Prop
  | defaults _ => kind.hasDescriptors = false
  | parameters es => kind.isParameter = true ∧ ∀ ps ∈ es, ps.length ≤ Group.maxParameters
  | members _ ns => kind.isMember = true ∧ ∀ n ∈ ns, 0 < n

theorem suits_empty (kind : Kind) : (empty kind).Suits kind := by
  cases kind <;> simp [empty, Suits, Kind.isParameter, Kind.hasDescriptors, Kind.isMember]

theorem Suits.isMember {kind : Kind} {l : Ledger} (h : l.Suits kind) : kind.isMember = l.isMembers := by
  cases l <;> cases kind <;> simp_all [Suits, isMembers, Kind.isMember, Kind.hasDescriptors, Kind.isParameter]

theorem Suits.isParameter {kind : Kind} {l : Ledger} (h : l.Suits kind) : kind.isParameter = l.isParameters := by
  cases l <;> cases kind <;> simp_all [Suits, isParameters, Kind.isMember, Kind.hasDescriptors, Kind.isParameter]

theorem Suits.hasDescriptors {kind : Kind} {l : Ledger} (h : l.Suits kind) : kind.hasDescriptors = !l.isDefaults := by
  cases l <;> cases kind <;> simp_all [Suits, isDefaults, Kind.isMember, Kind.hasDescriptors, Kind.isParameter]

end Ledger

namespace Group

/-- The group holds what the ledger lists. -/
structure Holds (M : Operand → Int → Prop) (g : Group) (l : Ledger) : Prop where
  suits : l.Suits g.kind
  layout : ∃ segs, g.Layout M l.paramCounts l.annoCounts l.trees segs

namespace Holds

variable {M M' : Operand → Int → Prop} {g : Group} {l : Ledger}

theorem mono (hM : ∀ x i, M x i → M' x i) (h : g.Holds M l) : g.Holds M' l :=
  ⟨h.suits, h.layout.imp fun _ hl => hl.mono hM⟩

theorem empty (kind : Kind) (context : Context) (config : Config) :
    (Group.empty kind context config).Holds M (.empty kind) := by
  refine ⟨Ledger.suits_empty kind, [], ?_⟩
  cases kind <;> exact Layout.empty _ _ _

/-! ## What can be observed -/

theorem bands_paramCounts (h : g.Holds M l) : g.bands.paramCounts = l.paramCounts :=
  h.layout.elim fun _ hl => hl.bands_paramCounts

theorem bands_annoCounts (h : g.Holds M l) : g.bands.annoCounts = l.annoCounts :=
  h.layout.elim fun _ hl => hl.bands_annoCounts

theorem length_marks (h : g.Holds M l) : g.marks.length = l.trees.length :=
  h.layout.elim fun _ hl => hl.length_trees.symm

theorem entryCount (h : g.Holds M l) : g.entryCount = l.entryCount := by
  rw [Group.entryCount, h.suits.isParameter, h.suits.hasDescriptors, h.bands_paramCounts, h.bands_annoCounts,
    h.length_marks]
  cases l <;> simp [Ledger.isParameters, Ledger.isDefaults, Ledger.entryCount, Ledger.trees, Ledger.paramCounts,
    Ledger.annoCounts]

theorem hasContent (h : g.Holds M l) : g.hasContent = l.hasContent := by
  have hlen := h.length_marks
  rw [Group.hasContent, Ledger.hasContent]
  cases hm : g.marks <;> cases ht : l.trees <;> simp_all

theorem calls (h : g.Holds M l) : g.calls = l.calls := by
  obtain ⟨segs, hl⟩ := h.layout
  rw [hl.calls, Ledger.calls, Segment.calls_join]
  have hflat := hl.flat
  clear hl
  generalize l.trees = ts at hflat
  induction hflat with
  | nil => rfl
  | cons hs _ ih => rw [List.map_cons, List.map_cons, List.sum_cons, List.sum_cons, hs.calls_eq, ih]

theorem decode {L : Type} [Resolver L] {pool : L} (h : g.Holds (Operand.IsAt pool) l) : g.decode pool = l.decode := by
  obtain ⟨segs, hl⟩ := h.layout
  have hflat := hl.flat
  have hbands := hl.bands_eq
  have hdepth : ∀ t ∈ l.trees, Walk.Within (some g.config.maxNestingDepth) t.depth := by
    rintro t ht _ ⟨⟩
    exact hl.shallow t ht
  rw [Group.decode, h.entryCount]
  cases l with
  | defaults vs =>
    rw [Ledger.trees, List.forall₂_map_left_iff] at hflat
    refine Walk.readEntries_ok (Walk.readDefaults_consumes h.suits hflat fun v hv => ?_) ?_
    · exact hdepth _ (List.mem_map_of_mem hv)
    · simpa [Ledger.paramCounts, Ledger.annoCounts, Segment.values_nil] using hbands
  | parameters es =>
    rw [Ledger.trees, List.forall₂_map_left_iff] at hflat
    refine Walk.readEntries_ok (Walk.readParameterEntries_consumes h.suits.1 hflat fun a ha => ?_) hbands
    exact hdepth _ (List.mem_map_of_mem ha)
  | members as ns =>
    rw [Ledger.trees, List.forall₂_map_left_iff] at hflat
    have hshallow : ∀ a ∈ as, Walk.Within (some g.config.maxNestingDepth) a.depth :=
      fun a ha => hdepth _ (List.mem_map_of_mem ha)
    have htypes : (g.bands.get .types).length = as.length := by
      rw [hl.get_content rfl, Flat.Root.length_join_types hflat]
    simp only [Ledger.paramCounts, Ledger.annoCounts, Segment.values_nil, Segment.empty_append] at hbands
    rw [Ledger.decode]
    split
    case isTrue hlt =>
      -- the walk ends ahead of the first annotation that no entry counts
      obtain ⟨as, bs, rfl, hsum⟩ : ∃ as' bs, as = as' ++ bs ∧ ns.sum = as'.length :=
        ⟨as.take ns.sum, as.drop ns.sum, (List.take_append_drop _ as).symm, by simp; omega⟩
      obtain ⟨ss, ts, rfl, hss, hts⟩ := forall₂_append_left hflat
      obtain ⟨has, -⟩ := List.forall_mem_append.1 hshallow
      have htail : (Segment.join ts).bands.get .types ≠ [] := by
        intro hnil
        have := Flat.Root.length_join_types hts
        simp [hnil] at this
        simp [this, hsum] at hlt
      rw [Segment.join_append, ← Segment.append_assoc] at hbands
      rw [Ledger.entryCount, Walk.readEntries_short (Walk.readMembers_consumes h.suits.1 hss hsum has) hbands
        (fun b hb => Flat.Root.get_join_entryCount hts hb) htail, htypes]
      simp [Flat.Root.length_join_types hss, hsum]
    case isFalse hle =>
      split
      case isTrue hlt =>
        -- the walk runs past the last annotation
        obtain ⟨c, hc⟩ := Walk.readMembers_error (c := Cursor.start g.bands (some g.config.maxNestingDepth)) h.suits.1
          hflat hlt hshallow rfl (fun b => by simp [Cursor.start, hbands]) (by simp [Cursor.start, htypes])
        rw [Ledger.entryCount, Walk.readEntries_error hc]
        simp [Cursor.start, htypes]
      case isFalse hge =>
        exact Walk.readEntries_ok (Walk.readMembers_consumes h.suits.1 hflat (by omega) hshallow) hbands

end Holds

end Group

end AnnotationBands
