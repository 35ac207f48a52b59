import AnnotationBands.Tag
import AnnotationBands.Pool
/-!
Element values of annotations: trees whose leaves are literals, and whose inner
nodes are arrays and nested annotations. A literal's tag and operands determine
it (`ofOperands?` undoes `operands`), and the operands fit the case bands that
the tag feeds (`operands_pool`).
-/

namespace AnnotationBands

open Ieee (Binary32 Binary64)

/-- The value of one element of an annotation. -/
inductive ElementValue where
  | byte (value : Int8)
  | char (value : UInt16)
  | int (value : Int32)
  | short (value : Int16)
  | boolean (value : Bool)
  | double (value : Binary64)
  | float (value : Binary32)
  | long (value : Int64)
  /-- A class literal, as a field descriptor. -/
  | classLiteral (descriptor : String)
  | enumConstant (typeDescriptor constName : String)
  | string (value : String)
  | array (items : List ElementValue)
  /-- A nested annotation: its type descriptor and its named values. -/
  | nested (descriptor : String) (pairs : List (String × ElementValue))

/-- An annotation: its type descriptor and its named values in the order of
their declaration. -/
structure Annotation where
  descriptor : String
  pairs : List (String × ElementValue)

/-- A literal on its way into a constant pool, or just resolved from one. -/
inductive Operand where
  | constant (value : Constant)
  | descriptor (value : String)
  | utf8 (value : String)
  deriving DecidableEq

namespace Operand

def pool : Operand → PoolKind
  | constant c => c.pool
  | descriptor _ => .signature
  | utf8 _ => .utf8

def intern {P : Type u} [Interner P] (operand : Operand) (pool : P) : UInt32 × P :=
  match operand with
  | constant c => Interner.internConstant c pool
  | descriptor d => Interner.internDescriptor d pool
  | utf8 s => Interner.internUtf8 s pool

end Operand

/-- The operand that an index of a case band refers to. -/
def CaseBand.resolve {L : Type u} [Resolver L] (case : CaseBand) (pool : L) (index : Int) : Except BandError Operand :=
  match case.pool with
  | .signature => Operand.descriptor <$> Resolver.descriptor pool index
  | .utf8 => Operand.utf8 <$> Resolver.utf8 pool index
  | kind => Operand.constant <$> Resolver.constant pool kind index

namespace ElementValue

def tag : ElementValue → Tag
  | byte _ => .byte
  | char _ => .char
  | int _ => .int
  | short _ => .short
  | boolean _ => .boolean
  | double _ => .double
  | float _ => .float
  | long _ => .long
  | classLiteral _ => .classLiteral
  | enumConstant _ _ => .enumConstant
  | string _ => .string
  | array _ => .array
  | nested _ _ => .nested

/-- The literals that the value consists of, in the order of its tag's case
bands. Arrays and nested annotations have none: their content is in values of
its own. -/
def operands : ElementValue → List Operand
  | byte v => [.constant (.int v.toInt32)]
  | char v => [.constant (.int (Int32.ofNat v.toNat))]
  | int v => [.constant (.int v)]
  | short v => [.constant (.int v.toInt32)]
  | boolean v => [.constant (.int (if v then 1 else 0))]
  | double v => [.constant (.double v)]
  | float v => [.constant (.float v)]
  | long v => [.constant (.long v)]
  | classLiteral d => [.descriptor d]
  | enumConstant t n => [.descriptor t, .utf8 n]
  | string s => [.utf8 s]
  | array _ | nested _ _ => []

/-- The literal value with a tag and operands. A number too large for the tag's
type loses its high bits, and every number but zero is true. -/
def ofOperands? : Tag → List Operand → Option ElementValue
  | .byte, [.constant (.int v)] => some (byte v.toInt8)
  | .char, [.constant (.int v)] => some (char v.toUInt32.toUInt16)
  | .int, [.constant (.int v)] => some (int v)
  | .short, [.constant (.int v)] => some (short v.toInt16)
  | .boolean, [.constant (.int v)] => some (boolean (v != 0))
  | .double, [.constant (.double v)] => some (double v)
  | .float, [.constant (.float v)] => some (float v)
  | .long, [.constant (.long v)] => some (long v)
  | .classLiteral, [.descriptor d] => some (classLiteral d)
  | .enumConstant, [.descriptor t, .utf8 n] => some (enumConstant t n)
  | .string, [.utf8 s] => some (string s)
  | _, _ => none

/-- The literal value with a tag and operands, or an error that tells how many
operands there were. -/
def ofOperands (tag : Tag) (operands : List Operand) : Except BandError ElementValue :=
  match ofOperands? tag operands with
  | some value => .ok value
  | none => .error (.arityMismatch tag.toChar tag.dispatch.arity operands.length)

/-- A value's operands go into the index spaces that its tag's case bands point
into. -/
theorem operands_pool (v : ElementValue) : v.operands.map Operand.pool = v.tag.cases.map CaseBand.pool := by
  cases v <;> rfl

mutual

/-- The number of levels: 1 for a literal; arrays and nested annotations add
one to their deepest value. -/
def depth : ElementValue → Nat
  | array items => 1 + depthOfItems items
  | nested _ pairs => 1 + depthOfPairs pairs
  | _ => 1

def depthOfItems : List ElementValue → Nat
  | [] => 0
  | v :: vs => max (depth v) (depthOfItems vs)

def depthOfPairs : List (String × ElementValue) → Nat
  | [] => 0
  | (_, v) :: ps => max (depth v) (depthOfPairs ps)

end

mutual

/-- The number of values below this one, each of which is an array's element or
a nested annotation's pair. -/
def backwardCalls : ElementValue → Nat
  | array items => items.length + callsOfItems items
  | nested _ pairs => pairs.length + callsOfPairs pairs
  | _ => 0

def callsOfItems : List ElementValue → Nat
  | [] => 0
  | v :: vs => backwardCalls v + callsOfItems vs

def callsOfPairs : List (String × ElementValue) → Nat
  | [] => 0
  | (_, v) :: ps => backwardCalls v + callsOfPairs ps

end

mutual

/-- Equality of values that compares floating-point literals as numbers: one
that is not a number differs from everything, and the two zeros are equal. -/
def numericEq : ElementValue → ElementValue → Bool
  | byte a, byte b => a == b
  | char a, char b => a == b
  | int a, int b => a == b
  | short a, short b => a == b
  | boolean a, boolean b => a == b
  | double a, double b => a.numericEq b
  | float a, float b => a.numericEq b
  | long a, long b => a == b
  | classLiteral a, classLiteral b => a == b
  | enumConstant t n, enumConstant t' n' => t == t' && n == n'
  | string a, string b => a == b
  | array a, array b => itemsNumericEq a b
  | nested d a, nested d' b => d == d' && pairsNumericEq a b
  | _, _ => false

def itemsNumericEq : List ElementValue → List ElementValue → Bool
  | [], [] => true
  | v :: vs, w :: ws => numericEq v w && itemsNumericEq vs ws
  | _, _ => false

def pairsNumericEq : List (String × ElementValue) → List (String × ElementValue) → Bool
  | [], [] => true
  | (m, v) :: ps, (n, w) :: qs => m == n && numericEq v w && pairsNumericEq ps qs
  | _, _ => false

end

end ElementValue

namespace Annotation

/-- The depth of the deepest value; 0 for an annotation without pairs. -/
def depth (a : Annotation) : Nat := ElementValue.depthOfPairs a.pairs

def backwardCalls (a : Annotation) : Nat := ElementValue.callsOfPairs a.pairs

/-- Equality of annotations that compares floating-point literals as numbers. -/
def numericEq (a b : Annotation) : Bool :=
  a.descriptor == b.descriptor && ElementValue.pairsNumericEq a.pairs b.pairs

def toValue (a : Annotation) : ElementValue := .nested a.descriptor a.pairs

end Annotation

end AnnotationBands
