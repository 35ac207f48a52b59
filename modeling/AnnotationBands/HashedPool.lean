import Mathlib
import AnnotationBands.Pool
/-!
A constant pool with hashed tables. Beside its literals, a table keeps a hash
map that leads from a literal to its index, so that interning does not search.
Constants are told apart by their index space and bit pattern, and the table of
a numeric index space comes into being with its first constant.
-/

namespace AnnotationBands

instance : Hashable PoolKind := ⟨fun kind => (PoolKind.all.idxOf kind).toUInt64⟩

/-- The bit pattern, with zeros ahead of a short one. -/
def Constant.bits : Constant → UInt64
  | .int v => v.toUInt32.toUInt64
  | .float v => v.bits.toUInt64
  | .long v => v.toUInt64
  | .double v => v.bits

/-- A constant as a key of hash maps. -/
structure ConstantKey where
  constant : Constant

namespace ConstantKey

instance : BEq ConstantKey := ⟨fun a b => a.constant.pool == b.constant.pool && a.constant.bits == b.constant.bits⟩

instance : Hashable ConstantKey := ⟨fun a => mixHash (hash a.constant.pool) (hash a.constant.bits)⟩

theorem beq_iff {a b : ConstantKey} :
    (a == b) = true ↔ a.constant.pool = b.constant.pool ∧ a.constant.bits = b.constant.bits := by
  rw [← beq_iff_eq (a := a.constant.pool), ← beq_iff_eq (a := a.constant.bits), ← Bool.and_eq_true]
  rfl

/-- Within an index space, bit patterns tell constants apart. -/
theorem eq_of_bits {a b : Constant} (hpool : a.pool = b.pool) (hbits : a.bits = b.bits) : a = b := by
  cases a <;> cases b <;> cases hpool
  case int.int v w =>
    have : v.toUInt32 = w.toUInt32 := UInt32.toUInt64_inj.1 hbits
    cases v
    cases w
    exact congrArg _ (congrArg _ this)
  case float.float v w =>
    have : v.bits = w.bits := UInt32.toUInt64_inj.1 hbits
    cases v
    cases w
    exact congrArg _ (congrArg _ this)
  case long.long v w =>
    cases v
    cases w
    exact congrArg _ (congrArg _ hbits)
  case double.double v w =>
    cases v
    cases w
    exact congrArg _ (congrArg _ hbits)

instance : LawfulBEq ConstantKey where
  eq_of_beq {a b} h := by
    obtain ⟨hpool, hbits⟩ := beq_iff.1 h
    exact congrArg mk (eq_of_bits hpool hbits)
  rfl := beq_iff.2 ⟨rfl, rfl⟩

end ConstantKey

/-- Literals in the order of their indices, and the index of each. -/
structure HashedTable (α : Type) [BEq α] [Hashable α] where
  entries : Array α
  index : Std.HashMap α UInt32

namespace HashedTable

variable {α : Type} [BEq α] [Hashable α]

def empty : HashedTable α := ⟨#[], ∅⟩

def intern (x : α) (table : HashedTable α) : UInt32 × HashedTable α :=
  match table.index[x]? with
  | some i => (i, table)
  | none =>
    let i := table.entries.size.toUInt32
    (i, ⟨table.entries.push x, table.index.insert x i⟩)

def resolve (pool : PoolKind) (table : HashedTable α) (index : Int) : Except BandError α :=
  match index.toNat?.bind (table.entries[·]?) with
  | some x => .ok x
  | none => .error (.unresolvedReference pool index)

end HashedTable

/-- A constant pool: a table for each text space, and one for each numeric index
space that holds something. -/
structure HashedPool where
  utf8s : HashedTable String
  signatures : HashedTable String
  constants : Std.HashMap PoolKind (HashedTable ConstantKey)

namespace HashedPool

def empty : HashedPool := ⟨.empty, .empty, ∅⟩

def size (p : HashedPool) : PoolKind → Nat
  | .utf8 => p.utf8s.entries.size
  | .signature => p.signatures.entries.size
  | kind => (p.constants[kind]?.map (·.entries.size)).getD 0

def internUtf8 (s : String) (p : HashedPool) : UInt32 × HashedPool :=
  let (i, utf8s) := p.utf8s.intern s
  (i, { p with utf8s })

def internDescriptor (s : String) (p : HashedPool) : UInt32 × HashedPool :=
  let (i, signatures) := p.signatures.intern s
  (i, { p with signatures })

def internConstant (c : Constant) (p : HashedPool) : UInt32 × HashedPool :=
  let (i, table) := (p.constants.getD c.pool .empty).intern ⟨c⟩
  (i, { p with constants := p.constants.insert c.pool table })

/-- The constant at an index of a numeric index space; the two text spaces hold
none. -/
def constant (p : HashedPool) (pool : PoolKind) (index : Int) : Except BandError Constant :=
  match pool with
  | .utf8 | .signature => .error (.unresolvedReference pool index)
  | _ =>
    match p.constants[pool]? with
    | some table => ConstantKey.constant <$> table.resolve pool index
    | none => .error (.unresolvedReference pool index)

instance : Interner HashedPool := ⟨internDescriptor, internUtf8, internConstant⟩

instance : Resolver HashedPool where
  descriptor p := p.signatures.resolve .signature
  utf8 p := p.utf8s.resolve .utf8
  constant := constant

end HashedPool

end AnnotationBands
