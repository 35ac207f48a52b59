import AnnotationBands.Bands
import AnnotationBands.ElementValue
/-!
Flattening a tree. A tree becomes a segment: what it adds to the end of each
band, and how many values are expanded below others. The literals of the tree
are interned from left to right. A value's depth is checked before anything of
it is interned, so a tree that is too deep leaves the literals up to that value
in the pool.
-/

namespace AnnotationBands

/-- What a tree adds to the bands of a group. -/
structure Segment where
  bands : Bands
  /-- Array elements and pairs of nested annotations. -/
  calls : Nat

namespace Segment

def empty : Segment := ⟨Bands.empty, 0⟩

def single (b : Band) (value : Int) : Segment := ⟨Bands.single b value, 0⟩

def ofCalls (calls : Nat) : Segment := ⟨Bands.empty, calls⟩

def append (s t : Segment) : Segment := ⟨s.bands ++ t.bands, s.calls + t.calls⟩

instance : Append Segment := ⟨append⟩

end Segment

/-- Flattening with a pool that interns literals. The pool keeps what was
interned when flattening fails. -/
abbrev Flatten (P : Type) := EStateM BandError P

namespace Flatten

def checkDepth {P : Type} (limit depth : Nat) : Flatten P Unit :=
  if limit < depth then throw (.nestingTooDeep limit) else pure ()

variable {P : Type} [Interner P]

def refer (b : Band) (operand : Operand) : Flatten P Segment := fun pool =>
  let (index, pool) := operand.intern pool
  .ok (Segment.single b index.toNat) pool

/-- Interns literals and refers to each in its case band. -/
def referAll : List (CaseBand × Operand) → Flatten P Segment
  | [] => return Segment.empty
  | (case, operand) :: more => do
    let first ← refer case.band operand
    let rest ← referAll more
    return first ++ rest

mutual

/-- Flattens a value that lies at the given depth. -/
def value (limit depth : Nat) : ElementValue → Flatten P Segment
  | .array elements => do
    checkDepth limit depth
    let rest ← items limit (depth + 1) elements
    return Segment.single .tags Tag.array.code ++ Segment.single .arrayCounts elements.length ++
      Segment.ofCalls elements.length ++ rest
  | .nested descriptor named => do
    checkDepth limit depth
    let type ← refer .nestTypes (.descriptor descriptor)
    let rest ← pairs limit .nestNames (depth + 1) named
    return Segment.single .tags Tag.nested.code ++ type ++ Segment.single .nestPairCounts named.length ++
      Segment.ofCalls named.length ++ rest
  | literal => do
    checkDepth limit depth
    let operands ← referAll (literal.tag.cases.zip literal.operands)
    return Segment.single .tags literal.tag.code ++ operands

def items (limit depth : Nat) : List ElementValue → Flatten P Segment
  | [] => return Segment.empty
  | v :: vs => do
    let first ← value limit depth v
    let rest ← items limit depth vs
    return first ++ rest

/-- Flattens named values one after the other, each name into the given band
and ahead of its value. -/
def pairs (limit : Nat) (nameBand : Band) (depth : Nat) : List (String × ElementValue) → Flatten P Segment
  | [] => return Segment.empty
  | (name, v) :: more => do
    let named ← refer nameBand (.utf8 name)
    let first ← value limit depth v
    let rest ← pairs limit nameBand depth more
    return named ++ first ++ rest

end

def root (limit : Nat) (a : Annotation) : Flatten P Segment := do
  let type ← refer .types (.descriptor a.descriptor)
  let rest ← pairs limit .names 1 a.pairs
  return type ++ Segment.single .pairCounts a.pairs.length ++ rest

def roots (limit : Nat) : List Annotation → Flatten P (List Segment)
  | [] => return []
  | a :: more => do
    let first ← root limit a
    let rest ← roots limit more
    return first :: rest

end Flatten

end AnnotationBands
