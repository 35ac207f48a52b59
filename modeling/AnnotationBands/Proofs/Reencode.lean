import AnnotationBands.Proofs.Canonical
import AnnotationBands.Proofs.PoolReferences
/-!
# What was read is written as it was

The converse of reading a group back: entries that were read from bytes, added
to a new group through the pool that they were rebuilt with, give the same
bands and the same bytes. Every literal is in the pool already, at the one
index that was read for it (`Operand.intern_of_isAt`), so a tree is flattened
to the segment that it was read from and the pool stays as it is
(`Flatten.value_of_flat`, `Flatten.root_of_flat`). An entry adds its segment at
the end of the bands (`Group.change_of_entryAt`). Main statement:
`Group.addEntries_of_read`.
-/

namespace AnnotationBands

/-! ## Literals that are in the pool -/

theorem Table.intern_of_mem {α : Type} [DecidableEq α] {t : Table α} {x : α} (h : x ∈ t.entries) :
    (t.intern x).2 = t := dif_pos h

namespace Pool

/-- Interning a literal that is there changes nothing. -/
theorem intern_of_mem {p : Pool} {x : Operand} (h : x ∈ p.literals x.pool) : (x.intern p).2 = p := by
  have mem_of_map {α : Type} {f : α → Operand} {v : α} {vs : List α} (hf : Function.Injective f) (hv : f v ∈ vs.map f) :
      v ∈ vs := (List.mem_map_of_injective hf).1 hv
  cases x with
  | utf8 s =>
    have hs := mem_of_map (fun _ _ => Operand.utf8.inj) h
    exact congrArg (fun utf8s => { p with utf8s }) (Table.intern_of_mem hs)
  | descriptor d =>
    have hd := mem_of_map (fun _ _ => Operand.descriptor.inj) h
    exact congrArg (fun signatures => { p with signatures }) (Table.intern_of_mem hd)
  | constant c =>
    cases c with
    | int v =>
      have hv := mem_of_map (Operand.injective_constant fun _ _ => Constant.int.inj) h
      exact congrArg (fun ints => { p with ints }) (Table.intern_of_mem hv)
    | float v =>
      have hv := mem_of_map (Operand.injective_constant fun _ _ => Constant.float.inj) h
      exact congrArg (fun floats => { p with floats }) (Table.intern_of_mem hv)
    | long v =>
      have hv := mem_of_map (Operand.injective_constant fun _ _ => Constant.long.inj) h
      exact congrArg (fun longs => { p with longs }) (Table.intern_of_mem hv)
    | double v =>
      have hv := mem_of_map (Operand.injective_constant fun _ _ => Constant.double.inj) h
      exact congrArg (fun doubles => { p with doubles }) (Table.intern_of_mem hv)

end Pool

/-- A literal that an index refers to is interned at that index, and the pool
stays as it is. -/
theorem Operand.intern_of_isAt {p : Pool} (hfits : p.Fits) {x : Operand} {i : Int} (h : x.IsAt p i) :
    ((x.intern p).1.toNat : Int) = i ∧ (x.intern p).2 = p := by
  obtain ⟨n, rfl, hn⟩ := Pool.isAt_iff.1 h
  obtain ⟨hlt, hget⟩ := List.getElem?_eq_some_iff.1 hn
  have hindex := (p.nodup_literals x.pool).idxOf_getElem n hlt
  rw [hget] at hindex
  have hword : n < 2 ^ 32 := by
    have hsize := hfits x.pool
    rw [← Pool.length_literals] at hsize
    omega
  refine ⟨?_, Pool.intern_of_mem (List.mem_of_getElem? hn)⟩
  rw [Pool.index_intern, hindex, Nat.toUInt32_eq, UInt32.toNat_ofNat', Nat.mod_eq_of_lt hword]

/-! ## Trees -/

namespace Flatten

variable {pool : Pool} {limit depth : Nat}

theorem checkDepth_of_le (h : depth ≤ limit) : checkDepth limit depth pool = .ok () pool := by
  rw [checkDepth, if_neg (Nat.not_lt.2 h)]
  rfl

theorem items_of_forall₂ {vs : List ElementValue} {ss : List Segment}
    (h : List.Forall₂ (fun v s => value limit depth v pool = .ok s pool) vs ss) :
    items limit depth vs pool = .ok (.join ss) pool := by
  induction h with
  | nil => rfl
  | cons hv _ ih =>
    rw [items]
    exact (bind_of_ok hv).trans (bind_of_ok ih)

variable (hfits : pool.Fits)
include hfits

theorem refer_of_isAt {x : Operand} {i : Int} (h : x.IsAt pool i) (b : Band) :
    refer b x pool = .ok (.single b i) pool := by
  obtain ⟨hindex, hpool⟩ := x.intern_of_isAt hfits h
  rw [refer]
  simp only [hindex, hpool]

theorem referAll_of_operands {xs : List (CaseBand × Operand)} {s : Segment}
    (h : Flat.Operands (Operand.IsAt pool) xs s) : referAll xs pool = .ok s pool := by
  induction xs generalizing s with
  | nil =>
    obtain rfl : s = .empty := h
    rfl
  | cons x xs ih =>
    obtain ⟨i, t, hi, ht, rfl⟩ := h
    exact (bind_of_ok (refer_of_isAt hfits hi x.1.band)).trans (bind_of_ok (ih ht))

theorem pairs_of_forall₂ {nameBand : Band} {ps : List (String × ElementValue)} {ss : List Segment}
    (h : List.Forall₂ (fun p s => ∃ i t, Operand.IsAt pool (.utf8 p.1) i ∧ value limit depth p.2 pool = .ok t pool ∧
      s = .single nameBand i ++ t) ps ss) :
    pairs limit nameBand depth ps pool = .ok (.join ss) pool := by
  induction h with
  | nil => rfl
  | cons hp _ ih =>
    obtain ⟨i, t, hi, ht, rfl⟩ := hp
    rw [pairs]
    exact (bind_of_ok (refer_of_isAt hfits hi nameBand)).trans ((bind_of_ok ht).trans (bind_of_ok ih))

/-- A value whose literals are in the pool is flattened to the segment that
refers to them. -/
theorem value_of_flat {v : ElementValue} {s : Segment} (h : Flat.Value (Operand.IsAt pool) v s)
    (hdepth : depth + v.depth ≤ limit + 1) : value limit depth v pool = .ok s pool := by
  induction v using ElementValue.induct generalizing s depth with
  | literal v hv =>
    obtain ⟨t, ht, rfl⟩ := (Flat.value_literal hv s).1 h
    rw [ElementValue.depth_literal hv] at hdepth
    rw [value_literal limit hv]
    exact (bind_of_ok (checkDepth_of_le (by omega))).trans (bind_of_ok (referAll_of_operands hfits ht))
  | array items ih =>
    obtain ⟨ss, hss, rfl⟩ := Flat.value_array.1 h
    rw [ElementValue.depth] at hdepth
    have hitems : Flatten.items limit (depth + 1) items pool = .ok (.join ss) pool := by
      refine items_of_forall₂ (forall₂_imp_mem hss fun v hv s _ hs => ih v hv hs ?_)
      have hle := ElementValue.depthOfItems_le.1 (Nat.le_refl _) v hv
      omega
    rw [value]
    refine (bind_of_ok (checkDepth_of_le (by omega))).trans ((bind_of_ok hitems).trans ?_)
    simp only [Segment.append_assoc]
    rfl
  | nested descriptor ps ih =>
    obtain ⟨i, ss, hi, hss, rfl⟩ := Flat.value_nested.1 h
    rw [ElementValue.depth] at hdepth
    have hpairs : pairs limit .nestNames (depth + 1) ps pool = .ok (.join ss) pool := by
      refine pairs_of_forall₂ hfits (forall₂_imp_mem hss ?_)
      rintro p hp _ - ⟨j, t, hj, ht, rfl⟩
      have hle := ElementValue.depthOfPairs_le.1 (Nat.le_refl _) p hp
      exact ⟨j, t, hj, ih p hp ht (by omega), rfl⟩
    rw [value]
    refine (bind_of_ok (checkDepth_of_le (by omega))).trans ?_
    refine (bind_of_ok (refer_of_isAt hfits hi .nestTypes)).trans ((bind_of_ok hpairs).trans ?_)
    simp only [Segment.append_assoc]
    rfl

theorem root_of_flat {a : Annotation} {s : Segment} (h : Flat.Root (Operand.IsAt pool) a s) (hdepth : a.depth ≤ limit) :
    root limit a pool = .ok s pool := by
  obtain ⟨i, ss, hi, hss, rfl⟩ := Flat.root_iff.1 h
  have hpairs : pairs limit .names 1 a.pairs pool = .ok (.join ss) pool := by
    refine pairs_of_forall₂ hfits (forall₂_imp_mem hss ?_)
    rintro p hp _ - ⟨j, t, hj, ht, rfl⟩
    have hle : p.2.depth ≤ limit := ElementValue.depthOfPairs_le.1 hdepth p hp
    exact ⟨j, t, hj, value_of_flat hfits ht (by omega), rfl⟩
  rw [root]
  refine (bind_of_ok (refer_of_isAt hfits hi .types)).trans ((bind_of_ok hpairs).trans ?_)
  rw [Segment.append_assoc]
  rfl

theorem roots_of_flat {as : List Annotation} {ss : List Segment}
    (h : List.Forall₂ (Walk.RootAt pool (some limit)) as ss) : roots limit as pool = .ok ss pool := by
  induction h with
  | nil => rfl
  | cons ha _ ih =>
    rw [roots]
    exact (bind_of_ok (root_of_flat hfits ha.2 (ha.1 limit rfl))).trans (bind_of_ok ih)

end Flatten

/-! ## Entries -/

/-- The operation that adds the entry as a whole. -/
def Entry.addition : Entry → Group.Change
  | .member as => .addMember as
  | .parameters ps => .addParameters ps
  | .defaultValue v => .addDefault v

/-- The entry can be added: a member's has annotations, and there are no more
parameters than one entry can count. -/
def Entry.Countable : Entry → Prop
  | .member as => as ≠ []
  | .parameters ps => ps.length ≤ Group.maxParameters
  | .defaultValue _ => True

namespace Group

/-- Adds entries, one after the other. -/
def addEntries {P : Type} [Interner P] (g : Group) : List Entry → Flatten P Group
  | [] => return g
  | e :: es => do
    let g ← g.change e.addition
    g.addEntries es

/-- All bands of the group and its calls. -/
def asSegment (g : Group) : Segment := ⟨g.bands, g.calls⟩

theorem asSegment_push (g : Group) (b : Band) (v : Int) : (g.push b v).asSegment = g.asSegment ++ .single b v := by
  refine Segment.ext_get (fun b' => ?_) rfl
  rw [Segment.get_append, Segment.get_single, asSegment, push, Bands.get_push]
  split
  · rfl
  · exact (List.append_nil _).symm

theorem asSegment_foldl_push {α : Type} (g : Group) (b : Band) (f : α → Int) (xs : List α) :
    (xs.foldl (fun g x => g.push b (f x)) g).asSegment = g.asSegment ++ .values b (xs.map f) := by
  induction xs generalizing g with
  | nil => rw [List.map_nil, Segment.values_nil, Segment.append_empty, List.foldl_nil]
  | cons x xs ih => rw [List.foldl_cons, ih, asSegment_push, Segment.append_assoc, List.map_cons, Segment.values_cons]

theorem asSegment_foldl_attach (g : Group) (ss : List Segment) :
    (ss.foldl attach g).asSegment = g.asSegment ++ .join ss := by
  induction ss generalizing g with
  | nil => rw [Segment.join_nil, Segment.append_empty, List.foldl_nil]
  | cons s ss ih =>
    have hfirst : (g.attach s).asSegment = g.asSegment ++ s := rfl
    rw [List.foldl_cons, ih, hfirst, Segment.append_assoc, Segment.join_cons]

/-- The group with a segment behind its bands, and more entries. -/
structure Extended (g g' : Group) (s : Segment) (entries : Nat) : Prop where
  segment : g'.asSegment = g.asSegment ++ s
  entryCount : g'.entryCount = g.entryCount + entries
  blank : g'.blank = g.blank

theorem require_of_allowed {P : Type} {g : Group} {allowed : Bool} (h : allowed = true) (operation : Operation)
    (p : P) : g.require allowed operation p = .ok () p := by
  rw [h]
  rfl

theorem get_of_asSegment {g g' : Group} {s : Segment} (h : g'.asSegment = g.asSegment ++ s) (b : Band) :
    g'.bands.get b = g.bands.get b ++ s.bands.get b := by
  have hbands := congrArg (fun t => t.bands.get b) h
  rwa [Segment.get_append] at hbands

variable {pool : Pool} {g : Group} {s : Segment}

theorem addMember_of_entryAt (hfits : pool.Fits) {as : List Annotation}
    (h : Walk.EntryAt pool g.kind (some g.config.maxNestingDepth) (.member as) s) (hne : as ≠ []) :
    ∃ g', g.addMember as pool = .ok g' pool ∧ g.Extended g' s 1 := by
  obtain ⟨hkind, _, ⟨ss, hss, rfl⟩, rfl⟩ := h
  have hflat : List.Forall₂ (Flat.Root (Operand.IsAt pool)) as ss := hss.imp fun _ _ h => h.2
  have hannos := Flat.Root.get_join_entryCount hflat (b := .annoCounts) rfl
  have hadd : g.addMember as pool = .ok ((ss.foldl attach g).push .annoCounts as.length) pool := by
    unfold addMember
    refine (bind_of_ok (require_of_allowed hkind _ _)).trans ?_
    rw [if_neg (by simpa using hne)]
    exact bind_of_ok (Flatten.roots_of_flat hfits hss)
  -- the count goes in behind the annotations, but into another band
  have hcomm : Segment.join ss ++ .single .annoCounts as.length = .single .annoCounts as.length ++ .join ss := by
    refine Segment.append_comm_of_disjoint fun b => ?_
    by_cases hb : b = .annoCounts
    · exact .inl (hb ▸ hannos)
    · exact .inr (by simp [hb])
  have hsegment : ((ss.foldl attach g).push .annoCounts as.length).asSegment =
      g.asSegment ++ (.single .annoCounts as.length ++ .join ss) := by
    rw [asSegment_push, asSegment_foldl_attach, Segment.append_assoc, hcomm]
  have hblank : ((ss.foldl attach g).push .annoCounts as.length).blank = g.blank := by simp
  refine ⟨_, hadd, hsegment, ?_, hblank⟩
  rw [Holds.entryCount_member (kind_eq_of_blank hblank ▸ hkind), Holds.entryCount_member hkind,
    get_of_asSegment hsegment]
  simp [hannos]

theorem addParameters_of_entryAt (hfits : pool.Fits) {ps : List (List Annotation)}
    (h : Walk.EntryAt pool g.kind (some g.config.maxNestingDepth) (.parameters ps) s)
    (hmany : ps.length ≤ maxParameters) :
    ∃ g', g.addParameters ps pool = .ok g' pool ∧ g.Extended g' s 1 := by
  obtain ⟨hkind, _, ⟨ss, hss, rfl⟩, rfl⟩ := h
  have hflat : List.Forall₂ (Flat.Root (Operand.IsAt pool)) ps.flatten ss := hss.imp fun _ _ h => h.2
  have hparams := Flat.Root.get_join_entryCount hflat (b := .paramCounts) rfl
  let counted := ps.foldl (fun g as => g.push .annoCounts as.length) (g.push .paramCounts ps.length)
  have hadd : g.addParameters ps pool = .ok (ss.foldl attach counted) pool := by
    unfold addParameters
    refine (bind_of_ok (require_of_allowed hkind _ _)).trans ?_
    rw [if_neg (Nat.not_lt.2 hmany)]
    exact bind_of_ok (Flatten.roots_of_flat hfits hss)
  have hsegment : (ss.foldl attach counted).asSegment = g.asSegment ++ (.single .paramCounts ps.length ++
      (.values .annoCounts (ps.map List.length |>.map Nat.cast) ++ .join ss)) := by
    rw [asSegment_foldl_attach, asSegment_foldl_push, asSegment_push, List.map_map, Segment.append_assoc,
      Segment.append_assoc]
    rfl
  have hblank : (ss.foldl attach counted).blank = g.blank := by
    rw [blank_foldl_attach, blank_foldl_push, blank_push]
  refine ⟨_, hadd, hsegment, ?_, hblank⟩
  rw [Holds.entryCount_parameter (kind_eq_of_blank hblank ▸ hkind), Holds.entryCount_parameter hkind,
    get_of_asSegment hsegment]
  simp [hparams]

theorem addDefault_of_entryAt (hfits : pool.Fits) {v : ElementValue}
    (h : Walk.EntryAt pool g.kind (some g.config.maxNestingDepth) (.defaultValue v) s) :
    ∃ g', g.addDefault v pool = .ok g' pool ∧ g.Extended g' s 1 := by
  obtain ⟨hkind, hdepth, hflat⟩ := h
  have hdepth := hdepth _ rfl
  have hadd : g.addDefault v pool = .ok (g.attach s) pool := by
    unfold addDefault
    refine (bind_of_ok (require_of_allowed (by simp [hkind]) _ _)).trans ?_
    exact bind_of_ok (Flatten.value_of_flat hfits hflat (by omega))
  refine ⟨_, hadd, rfl, ?_, rfl⟩
  have hp : g.kind.isParameter = false := by cases hk : g.kind <;> simp_all [Kind.isParameter, Kind.hasDescriptors]
  simp [entryCount, attach, hp, hkind]

/-- An entry whose literals are in the pool is added as the segment that refers
to them. -/
theorem change_of_entryAt (hfits : pool.Fits) {e : Entry}
    (h : Walk.EntryAt pool g.kind (some g.config.maxNestingDepth) e s) (he : e.Countable) :
    ∃ g', g.change e.addition pool = .ok g' pool ∧ g.Extended g' s 1 := by
  cases e with
  | member as => exact addMember_of_entryAt hfits h he
  | parameters ps => exact addParameters_of_entryAt hfits h he
  | defaultValue v => exact addDefault_of_entryAt hfits h

theorem addEntries_of_entriesAt (hfits : pool.Fits) {es : List Entry} {ss : List Segment}
    (h : List.Forall₂ (Walk.EntryAt pool g.kind (some g.config.maxNestingDepth)) es ss) (hes : ∀ e ∈ es, e.Countable) :
    ∃ g', g.addEntries es pool = .ok g' pool ∧ g.Extended g' (.join ss) es.length := by
  induction es generalizing g ss with
  | nil =>
    obtain rfl := List.forall₂_nil_left_iff.1 h
    exact ⟨g, rfl, (Segment.append_empty _).symm, rfl, rfl⟩
  | cons e es ih =>
    obtain ⟨s, ss, hs, hss, rfl⟩ := List.forall₂_cons_left_iff.1 h
    obtain ⟨he, hes⟩ := List.forall_mem_cons.1 hes
    obtain ⟨g', hadd, hsegment, hcount, hblank⟩ := change_of_entryAt hfits hs he
    rw [← kind_eq_of_blank hblank, ← config_eq_of_blank hblank] at hss
    obtain ⟨g'', hadds, hsegment', hcount', hblank'⟩ := ih hss hes
    refine ⟨g'', (bind_of_ok hadd).trans hadds, ?_, ?_, hblank'.trans hblank⟩
    · rw [hsegment', hsegment, Segment.append_assoc, Segment.join_cons]
    · rw [hcount', hcount, List.length_cons]
      omega

/-! ## Packing what was added -/

/-- Into a sink with room for any number of bytes, bands are packed as their
bytes. -/
theorem packBands_of_wire {kind : Kind} {bands : Bands} {bs : List Band} {bytes : List UInt8}
    (h : Wire kind bands bs bytes) (fault : IoFault) (received : List UInt8) :
    packBands .direct bands (bs.filter (·.isTransmitted kind)) ⟨none, fault, received⟩ =
      .ok bytes.length ⟨none, fault, received ++ bytes⟩ := by
  induction bs generalizing bytes received with
  | nil =>
    obtain rfl : bytes = [] := h
    rw [List.append_nil]
    rfl
  | cons b bs ih =>
    obtain ⟨first, more, rfl, hmore, hfirst⟩ := h
    cases hb : b.isTransmitted kind with
    | true =>
      rw [if_pos hb] at hfirst
      have hencode :
          BandError.orThrow (BandCodec.direct.encode b.codec (bands.get b)) (⟨none, fault, received⟩ : Sink) =
            .ok first ⟨none, fault, received⟩ := orThrow_eq_ok.2 ⟨hfirst, rfl⟩
      rw [List.filter_cons_of_pos hb, packBands, bind_of_ok hencode]
      refine (bind_of_ok rfl).trans ((bind_of_ok (ih hmore (received ++ first))).trans ?_)
      rw [List.length_append, ← List.append_assoc]
      rfl
    | false =>
      rw [if_neg (by simp [hb])] at hfirst
      rw [List.filter_cons_of_neg (by simp [hb]), hfirst]
      exact ih hmore received

/-! ## What the bands say of the entries -/

theorem countable_of_entriesAt {kind : Kind} {limit : Option Nat} {es : List Entry} {ss : List Segment}
    (h : List.Forall₂ (Walk.EntryAt pool kind limit) es ss)
    (hmember : kind.isMember = true → 0 ∉ (Segment.join ss).bands.get .annoCounts)
    (hparams : ∀ n ∈ (Segment.join ss).bands.get .paramCounts, n ≤ maxParameters) : ∀ e ∈ es, e.Countable := by
  induction h with
  | nil => simp
  | @cons e s es ss he _ ih =>
    simp only [Segment.join_cons, Segment.get_append, List.mem_append, not_or] at hmember hparams
    refine List.forall_mem_cons.2 ⟨?_, ih (fun hkind => (hmember hkind).2) fun n hn => hparams n (.inr hn)⟩
    cases e with
    | member as =>
      obtain ⟨hkind, t, -, rfl⟩ := he
      rintro rfl
      exact (hmember hkind).1 (by simp)
    | parameters ps =>
      obtain ⟨hkind, t, -, rfl⟩ := he
      have hcount := hparams ps.length (.inl (by simp))
      exact_mod_cast hcount
    | defaultValue v => trivial

/-- The calls of an entry's segment are its elements and nested pairs. -/
theorem calls_of_entryAt {kind : Kind} {limit : Option Nat} {e : Entry} (h : Walk.EntryAt pool kind limit e s) :
    (s.calls : Int) = (s.bands.get .arrayCounts).sum + (s.bands.get .nestPairCounts).sum := by
  have calls_of_rootsAt {as : List Annotation} {t : Segment} (ht : Walk.RootsAt pool limit as t) :
      (t.calls : Int) = (t.bands.get .arrayCounts).sum + (t.bands.get .nestPairCounts).sum := by
    obtain ⟨ss, hss, rfl⟩ := ht
    have hwhole : List.Forall₂ (Flat.Whole (Operand.IsAt pool)) (as.map .root) ss :=
      List.forall₂_map_left_iff.2 (hss.imp fun _ _ h => h.2)
    exact Layout.calls_join hwhole
  cases e with
  | member as =>
    obtain ⟨-, t, ht, rfl⟩ := h
    simpa using calls_of_rootsAt ht
  | parameters ps =>
    obtain ⟨-, t, ht, rfl⟩ := h
    simpa using calls_of_rootsAt ht
  | defaultValue v => exact (Flat.Value.counted h.2.2).calls

theorem calls_of_entriesAt {kind : Kind} {limit : Option Nat} {es : List Entry} {ss : List Segment}
    (h : List.Forall₂ (Walk.EntryAt pool kind limit) es ss) : ((Segment.join ss).calls : Int) =
      ((Segment.join ss).bands.get .arrayCounts).sum + ((Segment.join ss).bands.get .nestPairCounts).sum := by
  induction h with
  | nil => rfl
  | cons he _ ih =>
    have hfirst := calls_of_entryAt he
    simp only [Segment.join_cons, Segment.calls_append, Segment.get_append, List.sum_append] at *
    push_cast
    omega

/-! ## Main theorem -/

/-- Entries that were read from bytes, added to a new group through the pool
that they were rebuilt with, give back the bands and the calls and leave the
pool as it is; and a group that then has content is packed as the bytes that
were read. -/
theorem addEntries_of_read {kind : Kind} {config : Config} {entries calls : Nat} {input rest : List UInt8}
    {decoded : DecodedBands} (hread : DecodedBands.read .direct kind config entries calls input = .ok decoded rest)
    {pool : Pool} (hfits : pool.Fits) {es : List Entry} (hentries : decoded.entries pool = .ok es)
    (hcounts : kind.isMember = true → 0 ∉ decoded.bands.get .annoCounts) (hrange : decoded.bands.InRange pool)
    (context : Context) :
    ∃ g, (Group.empty kind context config).addEntries es pool = .ok g pool ∧ g.bands = decoded.bands ∧
      g.entryCount = entries ∧ g.calls = calls ∧
      (g.hasContent = true → ∃ bytes, input = bytes ++ rest ∧ ∀ fault received,
        g.pack .direct ⟨none, fault, received⟩ = .ok bytes.length ⟨none, fault, received ++ bytes⟩) := by
  obtain ⟨hdecoded, hreads⟩ := DecodedBands.read_eq_ok hread
  obtain ⟨bytes, hwire, hinput⟩ := hreads.inTurn.wire
  have hbandEntries : decoded.bands.entries kind entries config.maxNestingDepth pool = .ok es := by
    rwa [hdecoded] at hentries
  obtain ⟨s, hbands, hlen, hrebuilt⟩ := Bands.entries_passes hbandEntries
  rw [hbands] at hrange hcounts
  obtain ⟨ss, hss, rfl⟩ := hrebuilt.tree hrange
  have hparams : ∀ n ∈ (Segment.join ss).bands.get .paramCounts, n ≤ maxParameters := by
    intro n hn
    rw [← hbands] at hn
    cases hp : Band.isTransmitted kind .paramCounts with
    | true => exact (hwire.encodes (Band.mem_all .paramCounts) hp n hn).2
    | false =>
      rw [hreads.inTurn.get_unsent (Band.mem_all .paramCounts) hp] at hn
      cases hn
  have hcountable := countable_of_entriesAt hss hcounts hparams
  obtain ⟨g, hadd, hsegment, hcount, hblank⟩ :=
    addEntries_of_entriesAt (g := .empty kind context config) hfits hss hcountable
  have hempty : (Group.empty kind context config).asSegment = .empty := rfl
  rw [hempty, Segment.empty_append] at hsegment
  have hgbands : g.bands = decoded.bands := (congrArg Segment.bands hsegment).trans hbands.symm
  have hsettles : decoded.bands.Settles (kind.due entries) 0 := by
    rw [hbands]
    exact hrebuilt.settles
  have hcalls := calls_of_entriesAt hss
  have hexact := hreads.sumsExact hsettles
  rw [← hbands, ← hexact .arrayCounts rfl, ← hexact .nestPairCounts rfl] at hcalls
  replace hcalls := hcalls.trans hreads.calls
  refine ⟨g, hadd, hgbands, ?_, (congrArg Segment.calls hsegment).trans (Int.ofNat.inj hcalls), fun hcontent => ?_⟩
  · rw [hcount, hlen]
    cases kind <;> exact Nat.zero_add entries
  · refine ⟨bytes, hinput, fun fault received => ?_⟩
    rw [pack, if_pos hcontent, kind_eq_of_blank hblank, hgbands]
    exact packBands_of_wire hwire fault received

/-- One member's annotation, with a byte among its values and one byte behind
what is read. -/
theorem addEntries_of_read_member :
    let a : Annotation := ⟨"LA;", [("x", .array [.int 7, .byte 8])]⟩
    let added := (Group.empty .visible .method .default).step (.addMember [a]) Pool.empty
    let decoded : DecodedBands := ⟨.visible, .default, 1, added.2.1.bands⟩
    let pool := added.2.2
    DecodedBands.read .direct .visible .default 1 2 [1, 0, 1, 0, 91, 73, 66, 0, 1, 2, 255] = .ok decoded [255] ∧
      pool.Fits ∧ decoded.entries pool = .ok [.member [a]] ∧ 0 ∉ decoded.bands.get .annoCounts ∧
      decoded.bands.InRange pool ∧
      ∃ g, (Group.empty .visible .field .default).addEntries [.member [a]] pool = .ok g pool ∧
        g.bands = decoded.bands ∧ g.entryCount = 1 ∧ g.calls = 2 := by
  intro a added decoded pool
  have hread : DecodedBands.read .direct .visible .default 1 2 [1, 0, 1, 0, 91, 73, 66, 0, 1, 2, 255] =
      .ok decoded [255] := by cbv
  have hfits : pool.Fits := by
    intro k
    cases k <;> decide
  have hentries : decoded.entries pool = .ok [.member [a]] := by cbv
  have hcounts : 0 ∉ decoded.bands.get .annoCounts := by decide
  have hrange : decoded.bands.InRange pool := by
    have hreferences : decoded.bands.intReferences = [(.int, 0), (.byte, 1)] := by decide
    have hbyte : Resolver.constant pool .int 1 = .ok (.int 8) := rfl
    intro r hr v hv
    rw [hreferences] at hr
    rcases List.mem_cons.1 hr with rfl | hr
    · trivial
    · obtain rfl := List.mem_singleton.1 hr
      obtain rfl := Constant.int.inj (Except.ok.inj (hbyte.symm.trans hv))
      exact ⟨by decide, by decide⟩
  obtain ⟨g, hadd, hbands, hcount, hcalls, -⟩ :=
    addEntries_of_read hread hfits hentries (fun _ => hcounts) hrange .field
  exact ⟨hread, hfits, hentries, hcounts, hrange, g, hadd, hbands, hcount, hcalls⟩

end Group

end AnnotationBands
