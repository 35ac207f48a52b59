import AnnotationBands.Error
/-!
The constant pool. Its two sides are classes, because flattening needs only a
way to intern literals and decoding only a way to resolve indices: `Interner`
and `Resolver`. `Pool` is the pool kept in memory, with one table of distinct
literals in first-seen order for each index space; interning only ever adds at
the end of one table.
-/

namespace AnnotationBands

open Ieee (Binary32 Binary64)

/-- A pool that gives each literal an index. -/
class Interner (P : Type u) where
  internDescriptor : String → P → UInt32 × P
  internUtf8 : String → P → UInt32 × P
  internConstant : Constant → P → UInt32 × P

/-- A pool that gives the literal at an index. -/
class Resolver (L : Type u) where
  descriptor : L → Int → Except BandError String
  utf8 : L → Int → Except BandError String
  constant : L → PoolKind → Int → Except BandError Constant

/-- Distinct literals in first-seen order. -/
structure Table (α : Type) where
  entries : List α
  nodup : entries.Nodup
  deriving DecidableEq

namespace Table

variable {α : Type}

def empty : Table α := ⟨[], List.nodup_nil⟩

def size (table : Table α) : Nat := table.entries.length

/-- The index of a literal, which is where it stands or will stand as the last
one, and the table that holds it. An index is a word of 32 bits. -/
def intern [DecidableEq α] (x : α) (table : Table α) : UInt32 × Table α :=
  ((table.entries.idxOf x).toUInt32,
    if h : x ∈ table.entries then table
    else ⟨table.entries ++ [x], List.nodup_append.mpr ⟨table.nodup, by simp, fun _ ha _ hb e =>
      h (List.mem_singleton.mp hb ▸ e ▸ ha)⟩⟩)

def resolve (pool : PoolKind) (table : Table α) (index : Int) : Except BandError α :=
  match index with
  | .ofNat i =>
    match table.entries[i]? with
    | some x => .ok x
    | none => .error (.unresolvedReference pool index)
  | .negSucc _ => .error (.unresolvedReference pool index)

end Table

/-- A constant pool: a table for each index space. -/
structure Pool where
  utf8s : Table String
  signatures : Table String
  ints : Table Int32
  floats : Table Binary32
  longs : Table Int64
  doubles : Table Binary64
  deriving DecidableEq

namespace Pool

def empty : Pool := ⟨.empty, .empty, .empty, .empty, .empty, .empty⟩

def size (p : Pool) : PoolKind → Nat
  | .utf8 => p.utf8s.size
  | .signature => p.signatures.size
  | .int => p.ints.size
  | .float => p.floats.size
  | .long => p.longs.size
  | .double => p.doubles.size

def isEmpty (p : Pool) : Bool := PoolKind.all.all (p.size · == 0)

def internUtf8 (s : String) (p : Pool) : UInt32 × Pool :=
  let (i, utf8s) := Table.intern s p.utf8s
  (i, { p with utf8s })

def internDescriptor (s : String) (p : Pool) : UInt32 × Pool :=
  let (i, signatures) := Table.intern s p.signatures
  (i, { p with signatures })

def internConstant (c : Constant) (p : Pool) : UInt32 × Pool :=
  match c with
  | .int v => let (i, ints) := Table.intern v p.ints; (i, { p with ints })
  | .float v => let (i, floats) := Table.intern v p.floats; (i, { p with floats })
  | .long v => let (i, longs) := Table.intern v p.longs; (i, { p with longs })
  | .double v => let (i, doubles) := Table.intern v p.doubles; (i, { p with doubles })

/-- The constant at an index of a numeric index space; the two text spaces hold
none. -/
def constant (p : Pool) (pool : PoolKind) (index : Int) : Except BandError Constant :=
  match pool with
  | .utf8 | .signature => .error (.unresolvedReference pool index)
  | .int => Constant.int <$> Table.resolve pool p.ints index
  | .float => Constant.float <$> Table.resolve pool p.floats index
  | .long => Constant.long <$> Table.resolve pool p.longs index
  | .double => Constant.double <$> Table.resolve pool p.doubles index

instance : Interner Pool := ⟨internDescriptor, internUtf8, internConstant⟩

instance : Resolver Pool where
  descriptor p := Table.resolve .signature p.signatures
  utf8 p := Table.resolve .utf8 p.utf8s
  constant := constant

end Pool

end AnnotationBands
