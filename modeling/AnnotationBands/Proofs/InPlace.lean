import AnnotationBands.Group.InPlace
import AnnotationBands.Proofs.Interning
import AnnotationBands.Proofs.Simulation
/-!
# Changing a group in place

Adding in place only ever pushes: bands and marks grow at their ends
(`Group.Grows`), and the pool by further literals (`Interner.Adds`). So a
transaction that fails comes back to where it started, whatever was pushed until
then, and one that succeeds has done what flattening all trees first would have
done (`InPlace.Follows`). Removing fails only ahead of its first change. Main
statement: an operation in place does what the operation on a group as a value
does, error for error, and keeps the group when it fails
(`InPlace.change_agrees`).
-/

namespace AnnotationBands

/-! ## Pools that literals were interned into -/

/-- The second pool is the first one with further literals. -/
def Interner.Adds {P : Type} [Interner P] (p q : P) : Prop := ∃ xs, q = (internAll xs p).2

namespace Interner.Adds

variable {P : Type} [Interner P] {p q r : P}

theorem refl (p : P) : Adds p p := ⟨[], rfl⟩

theorem intern (x : Operand) (p : P) : Adds p (x.intern p).2 := ⟨[x], rfl⟩

theorem trans (h : Adds p q) (h' : Adds q r) : Adds p r := by
  obtain ⟨xs, rfl⟩ := h
  obtain ⟨ys, rfl⟩ := h'
  exact ⟨xs ++ ys, by rw [internAll_append]⟩

theorem means {R : References P} (h : Adds p q) : R.Extends p q := by
  obtain ⟨xs, rfl⟩ := h
  induction xs generalizing p with
  | nil => exact .refl p
  | cons x xs ih => exact fun y i hy => ih y i (R.mono p x y i hy)

end Interner.Adds

theorem Pool.isAt_of_adds {p q : Pool} (h : Interner.Adds p q) {x : Operand} {i : Int} (hx : x.IsAt p i) :
    x.IsAt q i := by
  obtain ⟨xs, rfl⟩ := h
  induction xs generalizing p with
  | nil => exact hx
  | cons y ys ih => exact ih (isAt_intern_of_isAt y hx)

namespace Group

/-! ## Groups that grow -/

/-- The second group has more at the ends of bands and marks, and whatever
calls. -/
structure Grows (g h : Group) : Prop where
  settings : h.blank = g.blank
  bands : ∀ b, g.bands.get b <+: h.bands.get b
  marks : g.marks <+: h.marks

namespace Grows

variable {g h k : Group}

theorem refl (g : Group) : g.Grows g := ⟨rfl, fun _ => List.prefix_rfl, List.prefix_rfl⟩

theorem trans (hg : g.Grows h) (hh : h.Grows k) : g.Grows k :=
  ⟨hh.settings.trans hg.settings, fun b => (hg.bands b).trans (hh.bands b), hg.marks.trans hh.marks⟩

theorem push (g : Group) (b : Band) (value : Int) : g.Grows (g.push b value) := by
  refine ⟨rfl, fun b' => ?_, List.prefix_rfl⟩
  rw [Group.push, Bands.get_push]
  split
  · exact List.prefix_append _ _
  · exact List.prefix_rfl

theorem foldl_push {α : Type} (g : Group) (b : Band) (f : α → Int) (xs : List α) :
    g.Grows (xs.foldl (fun g x => g.push b (f x)) g) := by
  induction xs generalizing g with
  | nil => exact refl g
  | cons x xs ih => exact (push g b (f x)).trans (ih _)

theorem addCalls (g : Group) (n : Nat) : g.Grows { g with calls := g.calls + n } :=
  ⟨rfl, fun _ => List.prefix_rfl, List.prefix_rfl⟩

theorem pushMark (g : Group) (m : Mark) : g.Grows { g with marks := g.marks ++ [m] } :=
  ⟨rfl, fun _ => List.prefix_rfl, List.prefix_append _ _⟩

/-- What has grown is cut back by the lengths from before. -/
theorem cut (hg : g.Grows h) :
    { h with
      bands := h.bands.truncate g.bands.mark
      calls := g.calls
      marks := h.marks.take g.marks.length } = g := by
  have hbands : h.bands.truncate g.bands.mark = g.bands := by
    apply PerBand.ext_get
    intro b
    rw [Bands.truncate, PerBand.get_ofFn, Bands.get_mark, ← List.prefix_iff_eq_take.1 (hg.bands b)]
  have hmarks : h.marks.take g.marks.length = g.marks := (List.prefix_iff_eq_take.1 hg.marks).symm
  -- what is left are the settings
  obtain ⟨kind, context, config, bands, calls, marks⟩ := g
  obtain ⟨kind', context', config', bands', calls', marks'⟩ := h
  have hsettings := hg.settings
  simp only [blank, Group.empty, mk.injEq, and_true] at hsettings
  obtain ⟨rfl, rfl, rfl⟩ := hsettings
  simp only [mk.injEq, true_and]
  exact ⟨hbands, hmarks⟩

end Grows

/-- The group with a segment at the ends of its bands, its mark not recorded. -/
def grow (g : Group) (s : Segment) : Group := { g with bands := g.bands ++ s.bands, calls := g.calls + s.calls }

theorem grow_append (g : Group) (s t : Segment) : g.grow (s ++ t) = (g.grow s).grow t := by
  have hbands : g.bands ++ (s ++ t).bands = g.bands ++ s.bands ++ t.bands := by
    apply PerBand.ext_get
    intro b
    simp only [Bands.get_append, Segment.get_append, List.append_assoc]
  simp only [grow, hbands, Segment.calls_append, Nat.add_assoc]

theorem bands_append_empty (bands : Bands) : bands ++ Bands.empty = bands := by
  apply PerBand.ext_get
  intro b
  rw [Bands.get_append, Bands.get_empty, List.append_nil]

theorem grow_empty (g : Group) : g.grow .empty = g := by
  simp only [grow, Segment.empty, bands_append_empty, Nat.add_zero]

theorem grow_ofCalls (g : Group) (n : Nat) : g.grow (.ofCalls n) = { g with calls := g.calls + n } := by
  simp only [grow, Segment.ofCalls, bands_append_empty]

theorem grow_single (g : Group) (b : Band) (value : Int) : g.grow (.single b value) = g.push b value := by
  have hbands : g.bands ++ (Segment.single b value).bands = g.bands.push b value := by
    apply PerBand.ext_get
    intro b'
    rw [Bands.get_append, Segment.get_single, Bands.get_push]
    split
    · rfl
    · rw [List.append_nil]
  simp only [grow, push, hbands, Segment.calls_single, Nat.add_zero]

theorem attach_eq_grow (g : Group) (s : Segment) :
    g.attach s = { g.grow s with marks := (g.grow s).marks ++ [g.bands.mark] } := rfl

/-- A change that fails keeps the group. -/
theorem step_of_error {P : Type} [Interner P] {g : Group} {c : Change} {p : P} {e : BandError}
    (h : (g.step c p).1 = .error e) : g.step c p = (.error e, g, (g.step c p).2.2) := by
  unfold step at h ⊢
  cases hc : g.change c p with
  | ok k q =>
    rw [hc] at h
    cases h
  | error e' q =>
    rw [hc] at h
    cases h
    rfl

end Group

namespace InPlace

open Interner (Adds)

variable {P : Type} [Interner P] {limit : Nat} {α β : Type}

/-! ## Pushing follows flattening -/

/-- Where flattening succeeds, the computation does and `Q` tells what it makes
of the group; where flattening fails, it fails alike. Either way the group has
only grown, and so has the pool. -/
def Follows (limit : Nat) (x : InPlace P Unit) (y : Flatten P α) (Q : α → Group → Group → Prop) : Prop :=
  ∀ (g : Group) (p : P), g.config.maxNestingDepth = limit → match y p with
    | .ok a q => Adds p q ∧ ∃ h, x (g, p) = .ok () (h, q) ∧ g.Grows h ∧ Q a g h
    | .error e q => Adds p q ∧ ∃ h, x (g, p) = .error e (h, q) ∧ g.Grows h

namespace Follows

variable {x x' : InPlace P Unit} {y : Flatten P α} {Q Q' : α → Group → Group → Prop}

theorem ok (hx : Follows limit x y Q) {g : Group} {p q : P} {a : α} (hg : g.config.maxNestingDepth = limit)
    (hy : y p = .ok a q) : Adds p q ∧ ∃ h, x (g, p) = .ok () (h, q) ∧ g.Grows h ∧ Q a g h := by
  have := hx g p hg
  rwa [hy] at this

theorem error (hx : Follows limit x y Q) {g : Group} {p q : P} {e : BandError}
    (hg : g.config.maxNestingDepth = limit) (hy : y p = .error e q) :
    Adds p q ∧ ∃ h, x (g, p) = .error e (h, q) ∧ g.Grows h := by
  have := hx g p hg
  rwa [hy] at this

/-- A computation that succeeds has done what flattening does. -/
theorem eq_ok (hx : Follows limit x y Q) {g h : Group} {p q : P} (hg : g.config.maxNestingDepth = limit)
    (hxh : x (g, p) = .ok () (h, q)) : ∃ a, y p = .ok a q ∧ Q a g h := by
  cases hy : y p with
  | ok a r =>
    obtain ⟨-, k, hxk, -, ha⟩ := hx.ok hg hy
    cases hxh.symm.trans hxk
    exact ⟨a, rfl, ha⟩
  | error e r =>
    obtain ⟨-, k, hxk, -⟩ := hx.error hg hy
    cases hxh.symm.trans hxk

theorem imp (hx : Follows limit x y Q) (hQ : ∀ a g h, Q a g h → Q' a g h) : Follows limit x y Q' := by
  intro g p hg
  cases hy : y p with
  | ok a q =>
    obtain ⟨hq, h, hxh, hgrows, ha⟩ := hx.ok hg hy
    exact ⟨hq, h, hxh, hgrows, hQ a g h ha⟩
  | error e q => exact hx.error hg hy

theorem update {f : Group → Group} (hf : ∀ g : Group, g.Grows (f g)) (a : α) :
    Follows (P := P) limit (update f) (pure a) fun b g h => b = a ∧ h = f g :=
  fun g p _ => ⟨.refl p, f g, rfl, hf g, rfl, rfl⟩

theorem pure (a : α) : Follows (P := P) limit (pure ()) (pure a) fun b g h => b = a ∧ h = g :=
  fun g p _ => ⟨.refl p, g, rfl, .refl g, rfl, rfl⟩

theorem bind {z : α → Flatten P β} {Q' : α → β → Group → Group → Prop} (hx : Follows limit x y Q)
    (hx' : ∀ a, Follows limit x' (z a) (Q' a)) :
    Follows limit (x >>= fun _ => x') (y >>= z) fun b g k => ∃ a h, Q a g h ∧ Q' a b h k := by
  intro g p hg
  cases hy : y p with
  | error e q =>
    obtain ⟨hq, h, hxh, hgrows⟩ := hx.error hg hy
    rw [bind_of_error hy]
    exact ⟨hq, h, bind_of_error hxh, hgrows⟩
  | ok a q =>
    obtain ⟨hq, h, hxh, hgrows, ha⟩ := hx.ok hg hy
    have hh : h.config.maxNestingDepth = limit := by rw [Group.config_eq_of_blank hgrows.settings, hg]
    rw [bind_of_ok hy]
    cases hz : z a q with
    | error e r =>
      obtain ⟨hr, k, hxk, hgrows'⟩ := (hx' a).error hh hz
      exact ⟨hq.trans hr, k, (bind_of_ok hxh).trans hxk, hgrows.trans hgrows'⟩
    | ok b r =>
      obtain ⟨hr, k, hxk, hgrows', hb⟩ := (hx' a).ok hh hz
      exact ⟨hq.trans hr, k, (bind_of_ok hxh).trans hxk, hgrows.trans hgrows', a, h, ha, hb⟩

/-- The result of flattening, changed by a function. -/
theorem map {f : α → β} (hx : Follows limit x y Q) :
    Follows limit x (y >>= fun a => Pure.pure (f a)) fun b g h => ∃ a, b = f a ∧ Q a g h := by
  intro g p hg
  cases hy : y p with
  | error e q =>
    rw [bind_of_error hy]
    exact hx.error hg hy
  | ok a q =>
    obtain ⟨hq, h, hxh, hgrows, ha⟩ := hx.ok hg hy
    rw [bind_of_ok hy]
    exact ⟨hq, h, hxh, hgrows, a, rfl, ha⟩

/-- Something pushed ahead of the rest. -/
theorem ahead {f : Group → Group} (hf : ∀ g : Group, g.Grows (f g)) (hx : Follows limit x y Q) :
    Follows limit (InPlace.update f >>= fun _ => x) y fun a g h => Q a (f g) h := by
  intro g p hg
  have hfg : (f g).config.maxNestingDepth = limit := by rw [Group.config_eq_of_blank (hf g).settings, hg]
  cases hy : y p with
  | error e q =>
    obtain ⟨hq, h, hxh, hgrows⟩ := hx.error hfg hy
    exact ⟨hq, h, hxh, (hf g).trans hgrows⟩
  | ok a q =>
    obtain ⟨hq, h, hxh, hgrows, ha⟩ := hx.ok hfg hy
    exact ⟨hq, h, hxh, (hf g).trans hgrows, ha⟩

/-- Something pushed behind the rest. -/
theorem behind {f : Group → Group} (hf : ∀ g : Group, g.Grows (f g)) (hx : Follows limit x y Q) :
    Follows limit (x >>= fun _ => InPlace.update f) y fun a g k => ∃ h, Q a g h ∧ k = f h := by
  rw [← bind_pure y]
  refine (hx.bind fun a => .update hf a).imp ?_
  rintro _ g k ⟨a, h, ha, rfl, rfl⟩
  exact ⟨h, ha, rfl⟩

theorem read {x : Group → InPlace P Unit} {Q : Group → α → Group → Group → Prop}
    (hx : ∀ g, Follows limit (x g) y (Q g)) : Follows limit (group >>= x) y fun a g h => Q g a g h :=
  fun g p hg => hx g g p hg

end Follows

/-- The segment goes to the ends of the bands. -/
def Grown (s : Segment) (g h : Group) : Prop := h = g.grow s

theorem checkDepth_follows (depth : Nat) :
    Follows (P := P) limit (checkDepth depth) (Flatten.checkDepth limit depth) fun _ g h => h = g := by
  rintro g p rfl
  by_cases h : g.config.maxNestingDepth < depth
  · simp only [Flatten.checkDepth, checkDepth, if_pos h]
    exact ⟨.refl p, g, by simp only [bind, EStateM.bind, group, if_pos h]; rfl, .refl g⟩
  · simp only [Flatten.checkDepth, checkDepth, if_neg h]
    exact ⟨.refl p, g, by simp only [bind, EStateM.bind, group, if_neg h]; rfl, .refl g, rfl⟩

theorem pushReference_follows (b : Band) (x : Operand) :
    Follows (P := P) limit (pushReference b x) (Flatten.refer b x) Grown := by
  intro g p _
  exact ⟨.intern x p, _, rfl, .push g b _, (g.grow_single b _).symm⟩

/-- One segment behind another. -/
theorem Follows.append {x x' : InPlace P Unit} {y z : Flatten P Segment} (hx : Follows limit x y Grown)
    (hx' : Follows limit x' z Grown) :
    Follows limit (x >>= fun _ => x') (do let s ← y; let t ← z; return s ++ t) Grown := by
  refine (hx.bind fun s => hx'.map (f := (s ++ ·))).imp ?_
  rintro _ g k ⟨s, h, hs, t, rfl, ht⟩
  rw [Grown, ht, hs, Group.grow_append]

/-- No segment at all. -/
theorem Follows.empty : Follows (P := P) limit (Pure.pure ()) (Pure.pure Segment.empty) Grown := by
  refine (Follows.pure Segment.empty).imp ?_
  rintro _ g _ ⟨rfl, rfl⟩
  exact (Group.grow_empty _).symm

theorem pushAll_follows (tag : Tag) {xs : List (CaseBand × Operand)} (hxs : ∀ x ∈ xs, x.2.pool = x.1.pool) :
    Follows (P := P) limit (pushAll tag xs) (Flatten.referAll xs) Grown := by
  induction xs with
  | nil => exact .empty
  | cons x xs ih =>
    obtain ⟨hx, hxs⟩ := List.forall_mem_cons.1 hxs
    simp only [pushAll, if_pos hx]
    exact (pushReference_follows _ _).append (ih hxs)

/-- The literals of a value fit its case bands, so no check fails. -/
theorem pushOperands_follows (v : ElementValue) : Follows (P := P) limit (pushOperands v.tag v.operands)
    (Flatten.referAll (v.tag.cases.zip v.operands)) Grown := by
  rw [pushOperands, if_pos v.length_operands]
  exact pushAll_follows v.tag v.pool_of_mem_zip

theorem pushItems_follows {depth : Nat} {vs : List ElementValue}
    (h : ∀ v ∈ vs, Follows (P := P) limit (pushValue depth v) (Flatten.value limit depth v) Grown) :
    Follows (P := P) limit (pushItems depth vs) (Flatten.items limit depth vs) Grown := by
  induction vs with
  | nil => exact .empty
  | cons v vs ih =>
    obtain ⟨hv, hvs⟩ := List.forall_mem_cons.1 h
    exact hv.append (ih hvs)

theorem pushPairs_follows {nameBand : Band} {depth : Nat} {ps : List (String × ElementValue)}
    (h : ∀ q ∈ ps, Follows (P := P) limit (pushValue depth q.2) (Flatten.value limit depth q.2) Grown) :
    Follows (P := P) limit (pushPairs nameBand depth ps) (Flatten.pairs limit nameBand depth ps) Grown := by
  induction ps with
  | nil => exact .empty
  | cons q ps ih =>
    obtain ⟨hq, hps⟩ := List.forall_mem_cons.1 h
    refine ((pushReference_follows nameBand (.utf8 q.1)).bind fun n => hq.bind fun s => (ih hps).map).imp ?_
    rintro _ g k ⟨n, h₁, hn, s, h₂, hs, t, rfl, ht⟩
    rw [Grown, ht, hs, hn, Group.grow_append, Group.grow_append]

theorem pushValue_literal {v : ElementValue} (h : v.tag.dispatch = .literal v.tag.cases) (depth : Nat) :
    pushValue (P := P) depth v =
      checkDepth depth >>= fun _ => pushTo .tags v.tag.code >>= fun _ => pushOperands v.tag v.operands := by
  cases v <;> first | rfl | cases h

theorem pushValue_follows (v : ElementValue) (depth : Nat) :
    Follows (P := P) limit (pushValue depth v) (Flatten.value limit depth v) Grown := by
  -- tag, counts and calls go into the group ahead of what is below, where flattening puts them together at the end
  induction v using ElementValue.induct generalizing depth with
  | literal v hv =>
    rw [Flatten.value_literal limit hv, pushValue_literal hv]
    refine ((checkDepth_follows depth).bind fun _ =>
      ((pushOperands_follows v).ahead (Group.Grows.push · .tags v.tag.code)).map).imp ?_
    rintro _ g k ⟨-, _, rfl, t, rfl, ht⟩
    rw [Grown, ht, Group.grow_append, Group.grow_single]
  | array vs ih =>
    simp only [Flatten.value, pushValue]
    refine ((checkDepth_follows depth).bind fun _ => ((((pushItems_follows fun v hv => ih v hv _).ahead
      (Group.Grows.addCalls · vs.length)).ahead (Group.Grows.push · .arrayCounts vs.length)).ahead
      (Group.Grows.push · .tags Tag.array.code)).map).imp ?_
    rintro _ g k ⟨-, _, rfl, t, rfl, ht⟩
    rw [Grown, ht, Group.grow_append, Group.grow_append, Group.grow_append, Group.grow_single, Group.grow_single,
      Group.grow_ofCalls]
  | nested descriptor ps ih =>
    simp only [Flatten.value, pushValue]
    refine ((checkDepth_follows depth).bind fun _ =>
      ((pushReference_follows .nestTypes (.descriptor descriptor)).bind fun i =>
        (((pushPairs_follows fun q hq => ih q hq _).ahead (Group.Grows.addCalls · ps.length)).ahead
          (Group.Grows.push · .nestPairCounts ps.length)).map).ahead (Group.Grows.push · .tags Tag.nested.code)).imp ?_
    rintro _ g k ⟨-, _, rfl, i, h, hi, t, rfl, ht⟩
    rw [Grown, ht, hi, Group.grow_append, Group.grow_append, Group.grow_append, Group.grow_append, Group.grow_single,
      Group.grow_single, Group.grow_ofCalls]

theorem pushRoot_follows (a : Annotation) :
    Follows (P := P) limit (pushRoot a) (Flatten.root limit a) fun s g h => h = g.attach s := by
  have hpairs : Follows (P := P) limit (pushPairs .names 1 a.pairs) (Flatten.pairs limit .names 1 a.pairs) Grown :=
    pushPairs_follows fun q _ => pushValue_follows q.2 1
  refine (Follows.read fun g => (pushReference_follows .types (.descriptor a.descriptor)).bind fun t =>
    ((hpairs.behind (Group.Grows.pushMark · g.bands.mark)).ahead
      (Group.Grows.push · .pairCounts a.pairs.length)).map).imp ?_
  rintro _ g k ⟨t, h₁, ht, s, rfl, h₂, hs, rfl⟩
  rw [Group.attach_eq_grow, Group.grow_append, Group.grow_append, Group.grow_single, ← ht, ← hs]

theorem pushRoots_follows (as : List Annotation) :
    Follows (P := P) limit (pushRoots as) (Flatten.roots limit as) fun ss g h => h = ss.foldl Group.attach g := by
  induction as with
  | nil =>
    refine (Follows.pure []).imp ?_
    rintro _ g _ ⟨rfl, rfl⟩
    rfl
  | cons a as ih =>
    refine ((pushRoot_follows a).bind fun s => ih.map).imp ?_
    rintro _ g k ⟨s, h, rfl, ss, rfl, rfl⟩
    rfl

/-! ## Operations -/

/-- The result in place is that of the operation on a group as a value, or its
error with the group as before. -/
def Agrees (g : Group) (p : P) (r : EStateM.Result BandError (Group × P) Unit)
    (r' : EStateM.Result BandError P Group) : Prop :=
  match r' with
  | .ok h q => Adds p q ∧ r = .ok () (h, q)
  | .error e q => Adds p q ∧ r = .error e (g, q)

variable {g : Group} {p : P}

theorem transaction_agrees {x : InPlace P Unit} {y : Flatten P α} {Q : α → Group → Group → Prop}
    (hx : Follows g.config.maxNestingDepth x y Q) {build : α → Group} (hQ : ∀ a h, Q a g h → h = build a) :
    Agrees g p (transaction x (g, p)) ((y >>= fun a => pure (build a)) p) := by
  cases hy : y p with
  | ok a q =>
    obtain ⟨hq, h, hxh, -, ha⟩ := hx.ok rfl hy
    rw [bind_of_ok hy, ← hQ a h ha]
    exact ⟨hq, by simp only [transaction, hxh]⟩
  | error e q =>
    obtain ⟨hq, h, hxh, hgrows⟩ := hx.error rfl hy
    rw [bind_of_error hy]
    exact ⟨hq, by simp only [transaction, hxh, hgrows.cut]⟩

theorem require_agrees {allowed : Kind → Bool} {operation : Operation} {x : InPlace P Unit}
    {f : Unit → Flatten P Group} (h : allowed g.kind = true → Agrees g p (x (g, p)) (f () p)) :
    Agrees g p ((require allowed operation >>= fun _ => x) (g, p))
      ((g.require (allowed g.kind) operation >>= f) p) := by
  cases hkind : allowed g.kind with
  | true =>
    have hrequire : require allowed operation (g, p) = .ok () (g, p) := by
      simp only [require, bind, EStateM.bind, group, hkind]
      rfl
    rw [bind_of_ok hrequire]
    exact h hkind
  | false =>
    have hrequire : require allowed operation (g, p) = .error (.wrongKind g.kind operation) (g, p) := by
      simp only [require, bind, EStateM.bind, group, hkind]
      rfl
    rw [bind_of_error hrequire]
    exact ⟨.refl p, rfl⟩

theorem openEntry_agrees : Agrees g p (openEntry (g, p)) (g.openEntry p) :=
  require_agrees fun _ => ⟨.refl p, rfl⟩

theorem extendEntry_agrees : Agrees g p (extendEntry (g, p)) (g.extendEntry p) := by
  refine require_agrees fun _ => ?_
  simp only [bind, EStateM.bind, group]
  cases g.bands.annoCounts.getLast? with
  | none => exact ⟨.refl p, rfl⟩
  | some n => exact ⟨.refl p, rfl⟩

theorem addOne_agrees (a : Annotation) : Agrees g p (addOne a (g, p)) (g.addOne a p) :=
  require_agrees fun _ => transaction_agrees (pushRoot_follows a) fun _ _ h => h

theorem addMember_agrees (as : List Annotation) : Agrees g p (addMember as (g, p)) (g.addMember as p) := by
  refine require_agrees fun _ => ?_
  cases as.isEmpty with
  | true => exact ⟨.refl p, rfl⟩
  | false =>
    refine transaction_agrees ((pushRoots_follows as).behind (Group.Grows.push · .annoCounts as.length)) ?_
    rintro ss k ⟨h, rfl, rfl⟩
    rfl

omit [Interner P] in
theorem pushCounts_eq (ps : List (List Annotation)) : pushCounts (P := P) ps =
    update fun g => ps.foldl (fun g as => g.push .annoCounts as.length) g := by
  induction ps with
  | nil => rfl
  | cons as ps ih =>
    rw [pushCounts, ih]
    rfl

theorem addParameters_agrees (ps : List (List Annotation)) :
    Agrees g p (addParameters ps (g, p)) (g.addParameters ps p) := by
  refine require_agrees fun _ => ?_
  by_cases h : Group.maxParameters < ps.length
  · simp only [if_pos h]
    exact ⟨.refl p, rfl⟩
  · simp only [if_neg h, pushCounts_eq]
    exact transaction_agrees (((pushRoots_follows (P := P) ps.flatten).ahead
      (Group.Grows.foldl_push · .annoCounts (fun as => as.length) ps)).ahead
      (Group.Grows.push · .paramCounts ps.length)) fun ss h hk => hk

theorem addDefault_agrees (v : ElementValue) : Agrees g p (addDefault v (g, p)) (g.addDefault v p) := by
  refine require_agrees fun _ => ?_
  refine transaction_agrees (Follows.read fun g =>
    (pushValue_follows v 1).behind (Group.Grows.pushMark · g.bands.mark)) ?_
  rintro s k ⟨h, rfl, rfl⟩
  rfl

omit [Interner P] in
theorem popTimes_eq (b : Band) (n : Nat) (g : Group) (p : P) : popTimes b n (g, p) =
    .ok () ({ g with bands := g.bands.modify b fun xs => xs.take (xs.length - n) }, p) := by
  induction n generalizing g with
  | zero =>
    have hbands : g.bands.modify b (fun xs => xs.take (xs.length - 0)) = g.bands := by
      apply PerBand.ext_get
      intro b'
      rw [PerBand.get_modify, Nat.sub_zero, List.take_length, ite_self]
    rw [hbands]
    rfl
  | succ n ih =>
    have hbands : (g.bands.pop b).modify b (fun xs => xs.take (xs.length - n)) =
        g.bands.modify b (fun xs => xs.take (xs.length - (n + 1))) := by
      apply PerBand.ext_get
      intro b'
      rw [Bands.pop, PerBand.get_modify, PerBand.get_modify, PerBand.get_modify]
      by_cases h : b' = b
      · simp only [if_pos h, List.dropLast_eq_take, List.take_take, List.length_take]
        congr 1
        omega
      · simp only [if_neg h]
    rw [← hbands]
    exact ih _

theorem removeLatest_agrees : Agrees g p (removeLatest (g, p)) (BandError.orThrow g.removeLatest p) := by
  have hgroup : group (g, p) = .ok g (g, p) := rfl
  unfold removeLatest
  rw [bind_of_ok hgroup]
  cases hlatest : g.latestEntry with
  | error e =>
    rw [Group.removeLatest_of_error hlatest]
    exact ⟨.refl p, rfl⟩
  | ok latest =>
    rw [bind_of_ok (show BandError.orThrow (.ok latest) (g, p) = .ok latest (g, p) from rfl)]
    rcases Nat.lt_or_ge g.marks.length latest.trees with hlt | hge
    · rw [if_pos hlt, Group.removeLatest_of_desync hlatest hlt]
      exact ⟨.refl p, rfl⟩
    · rw [if_neg (Nat.not_lt.2 hge), Group.removeLatest_of_ok hlatest hge, Group.startOf]
      cases hcalls : g.callsSince (g.marks[g.marks.length - latest.trees]?.getD g.bands.mark) latest.trees with
      | error e => exact ⟨.refl p, rfl⟩
      | ok calls =>
        -- all checks have passed, and the group is cut piece by piece
        have hok : BandError.orThrow (.ok calls) (g, p) = .ok calls (g, p) := rfl
        rw [bind_of_ok hok, bind_of_ok (popTimes_eq _ _ _ _), bind_of_ok (popTimes_eq _ _ _ _)]
        exact ⟨.refl p, rfl⟩

theorem change_agrees (g : Group) (c : Group.Change) (p : P) : Agrees g p (change c (g, p)) (g.change c p) := by
  cases c with
  | openEntry => exact openEntry_agrees
  | extendEntry => exact extendEntry_agrees
  | addOne a => exact addOne_agrees a
  | addMember as => exact addMember_agrees as
  | addParameters ps => exact addParameters_agrees ps
  | addDefault v => exact addDefault_agrees v
  | removeLatest => exact removeLatest_agrees

/-- Making a change in place, or not making it when it fails, comes out as it
does on a group as a value; the pool has further literals at most. -/
theorem step_eq (g : Group) (c : Group.Change) (p : P) : step c (g, p) = g.step c p ∧ Adds p (g.step c p).2.2 := by
  have hagrees := change_agrees g c p
  unfold step Group.step
  cases hc : g.change c p with
  | ok h q =>
    rw [hc] at hagrees
    rw [hagrees.2]
    exact ⟨rfl, hagrees.1⟩
  | error e q =>
    rw [hc] at hagrees
    rw [hagrees.2]
    exact ⟨rfl, hagrees.1⟩

theorem change_eq_error {c : Group.Change} {s t : Group × P} {e : BandError} :
    change c s = .error e t ↔ step c s = (.error e, t) := by
  unfold step
  cases change c s <;> simp

end InPlace

end AnnotationBands
