import AnnotationBands.Proofs.Demand
import AnnotationBands.Proofs.Traversal
/-!
# Numbers that fit their tags

The values of bytes, characters, shorts and booleans are all sent as references
to 32-bit constants, so a reader may find a constant there that is none of the
type's numbers. Such a constant loses its high bits and cannot be told from
another. `Bands.InRange` excludes them: each constant that bands refer to under
a tag is one of the numbers of the tag's type. Then a literal has the operands
that it was made from (`ElementValue.operands_of_ofOperands?`).
-/

namespace AnnotationBands

/-- The 32-bit constants that are numbers of the tag's type. -/
def Tag.Admits (t : Tag) (v : Int32) : Prop :=
  match t with
  | .byte => -128 ≤ v.toInt ∧ v.toInt ≤ 127
  | .char => 0 ≤ v.toInt ∧ v.toInt ≤ 65535
  | .short => -32768 ≤ v.toInt ∧ v.toInt ≤ 32767
  | .boolean => v = 0 ∨ v = 1
  | _ => True

namespace Tag.Admits

variable {v : Int32}

theorem toInt32_toInt8 (h : Tag.byte.Admits v) : v.toInt8.toInt32 = v := by
  obtain ⟨hlow, hhigh⟩ : -128 ≤ v.toInt ∧ v.toInt ≤ 127 := h
  rw [← Int32.toInt_inj, Int8.toInt_toInt32, Int32.toInt_toInt8, Int.bmod_eq_of_le (by omega) (by omega)]

theorem toInt32_toInt16 (h : Tag.short.Admits v) : v.toInt16.toInt32 = v := by
  obtain ⟨hlow, hhigh⟩ : -32768 ≤ v.toInt ∧ v.toInt ≤ 32767 := h
  rw [← Int32.toInt_inj, Int16.toInt_toInt32, Int32.toInt_toInt16, Int.bmod_eq_of_le (by omega) (by omega)]

theorem ofNat_toUInt16 (h : Tag.char.Admits v) : Int32.ofNat v.toUInt32.toUInt16.toNat = v := by
  obtain ⟨hlow, hhigh⟩ : 0 ≤ v.toInt ∧ v.toInt ≤ 65535 := h
  have hword : v.toUInt32.toNat = v.toInt.toNat :=
    Int32.toNat_toUInt32_of_le (Int32.le_iff_toInt_le.2 (by simpa using hlow))
  have hmod : v.toInt.toNat % 2 ^ 16 = v.toInt.toNat := Nat.mod_eq_of_lt (by omega)
  have hsize : Int32.size = 4294967296 := rfl
  rw [← Int32.toInt_inj, Int32.toInt_ofNat', UInt32.toNat_toUInt16, hword, hmod, Int.toNat_of_nonneg hlow, hsize,
    Int.bmod_eq_of_le (by omega) (by omega)]

theorem ite_bne_zero (h : Tag.boolean.Admits v) : (if v != 0 then 1 else 0) = v := by
  rcases h with rfl | rfl
  · rfl
  · rfl

end Tag.Admits

namespace ElementValue

/-- A literal made from operands has their index spaces, and the operands
themselves unless they are a number that is none of its type's. -/
theorem operands_of_ofOperands? {tag : Tag} {ops : List Operand} {v : ElementValue} (h : ofOperands? tag ops = some v) :
    v.tag = tag ∧ ops.map Operand.pool = tag.cases.map CaseBand.pool ∧
      ((∀ w, ops = [.constant (.int w)] → tag.Admits w) → v.operands = ops) := by
  unfold ofOperands? at h
  split at h
  case h_1 w =>
    cases h
    refine ⟨rfl, rfl, fun hw => ?_⟩
    rw [operands, (hw w rfl).toInt32_toInt8]
  case h_2 w =>
    cases h
    refine ⟨rfl, rfl, fun hw => ?_⟩
    rw [operands, (hw w rfl).ofNat_toUInt16]
  case h_4 w =>
    cases h
    refine ⟨rfl, rfl, fun hw => ?_⟩
    rw [operands, (hw w rfl).toInt32_toInt16]
  case h_5 w =>
    cases h
    refine ⟨rfl, rfl, fun hw => ?_⟩
    rw [operands, (hw w rfl).ite_bne_zero]
  all_goals cases h <;> exact ⟨rfl, rfl, fun _ => rfl⟩

theorem ofOperands_eq_ok {tag : Tag} {ops : List Operand} {v : ElementValue} :
    ofOperands tag ops = .ok v ↔ ofOperands? tag ops = some v := by
  unfold ofOperands
  split
  · rename_i w hw
    rw [hw, Except.ok.injEq, Option.some.injEq]
  · rename_i hw
    simp [hw]

/-- Operands from the index spaces that a tag's case bands point into make a
literal. -/
theorem ofOperands?_of_pool {tag : Tag} (htag : tag.dispatch = .literal tag.cases) {ops : List Operand}
    (h : ops.map Operand.pool = tag.cases.map CaseBand.pool) : ∃ v, ofOperands? tag ops = some v := by
  cases tag with
  | array | nested => cases htag
  | enumConstant =>
    obtain ⟨x, more, rfl, hx, hmore⟩ := List.map_eq_cons_iff.1 h
    obtain ⟨y, rfl, hy⟩ := List.map_eq_singleton_iff.1 hmore
    rcases x with (_ | _ | _ | _) | d | _ <;> cases hx
    rcases y with (_ | _ | _ | _) | _ | n <;> cases hy
    exact ⟨_, rfl⟩
  | _ =>
    obtain ⟨x, rfl, hx⟩ := List.map_eq_singleton_iff.1 h
    rcases x with (_ | _ | _ | _) | _ | _ <;> cases hx
    exact ⟨_, rfl⟩

end ElementValue

namespace Bands

/-- The references to 32-bit constants, each with the tag that it stands
under. -/
def intReferences (bands : Bands) : List (Tag × Int) :=
  (bands.tagList.filter (.int ∈ ·.cases)).zip (bands.get .ints)

variable {L : Type} [Resolver L]

/-- Each 32-bit constant that the bands refer to is a number of its tag's
type. -/
def InRange (bands : Bands) (pool : L) : Prop :=
  ∀ r ∈ bands.intReferences, ∀ v, Resolver.constant pool .int r.2 = .ok (.int v) → r.1.Admits v

variable {s t : Bands} {due left : Multiset Band}

/-- Where no more references to 32-bit constants are due behind the bands than
ahead of them, they hold one for each of their tags. -/
theorem Settles.length_ints (h : s.Settles due left) (hints : due.count .ints = left.count .ints) :
    (s.tagList.filter (.int ∈ ·.cases)).length = (s.get .ints).length := by
  have hlen := h .ints
  have hdemand := s.demand_case List.sum .int
  rw [← List.countP_eq_length_filter]
  simp only [CaseBand.band] at hdemand
  omega

theorem Settles.inRange_append {pool : L} (h : s.Settles due left) (hints : due.count .ints = left.count .ints) :
    (s ++ t).InRange pool ↔ s.InRange pool ∧ t.InRange pool := by
  have hsplit : (s ++ t).intReferences = s.intReferences ++ t.intReferences := by
    rw [intReferences, tagList_append, List.filter_append, get_append, List.zip_append (h.length_ints hints)]
    rfl
  unfold InRange
  rw [hsplit, List.forall_mem_append]

end Bands

end AnnotationBands
