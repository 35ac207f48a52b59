import AnnotationBands.Band
import AnnotationBands.Constant
/-!
The tags of values and where a tagged value goes. `Tag.dispatch` is the only
place that knows which bands a tag feeds; flattening, undoing and decoding all
go through it.
-/

namespace AnnotationBands

/-- The bands that hold references to the operands of literal values. -/
inductive CaseBand where
  | int
  | double
  | float
  | long
  | classLiteral
  | enumType
  | enumName
  | string
  deriving DecidableEq

namespace CaseBand

def all : List CaseBand := [int, double, float, long, classLiteral, enumType, enumName, string]

def name : CaseBand → String
  | int => "Int"
  | double => "Double"
  | float => "Float"
  | long => "Long"
  | classLiteral => "Class"
  | enumType => "EnumType"
  | enumName => "EnumName"
  | string => "String"

def band : CaseBand → Band
  | int => .ints
  | double => .doubles
  | float => .floats
  | long => .longs
  | classLiteral => .classes
  | enumType => .enumTypes
  | enumName => .enumNames
  | string => .strings

def pool : CaseBand → PoolKind
  | int => .int
  | double => .double
  | float => .float
  | long => .long
  | classLiteral | enumType => .signature
  | enumName | string => .utf8

end CaseBand

/-- What kind of value follows. -/
inductive Tag where
  | byte
  | char
  | int
  | short
  | boolean
  | double
  | float
  | long
  | classLiteral
  | enumConstant
  | string
  | array
  | nested
  deriving DecidableEq

/-- Where a tagged value goes. -/
inductive Dispatch where
  /-- One operand into each of the case bands, in order. -/
  | literal (cases : List CaseBand)
  /-- A count of elements, and that many values. -/
  | array
  /-- A type descriptor and a count of pairs, and that many names and values. -/
  | nested
  deriving DecidableEq

def Dispatch.arity : Dispatch → Nat
  | literal cases => cases.length
  | array | nested => 0

namespace Tag

def all : List Tag :=
  [byte, char, int, short, boolean, double, float, long, classLiteral, enumConstant, string, array, nested]

theorem mem_all (t : Tag) : t ∈ all := by cases t <;> decide

def name : Tag → String
  | byte => "Byte"
  | char => "Char"
  | int => "Int"
  | short => "Short"
  | boolean => "Boolean"
  | double => "Double"
  | float => "Float"
  | long => "Long"
  | classLiteral => "Class"
  | enumConstant => "Enum"
  | string => "String"
  | array => "Array"
  | nested => "Annotation"

/-- The character that stands for the tag in class files. -/
def toChar : Tag → Char
  | byte => 'B'
  | char => 'C'
  | int => 'I'
  | short => 'S'
  | boolean => 'Z'
  | double => 'D'
  | float => 'F'
  | long => 'J'
  | classLiteral => 'c'
  | enumConstant => 'e'
  | string => 's'
  | array => '['
  | nested => '@'

/-- The number that stands for the tag in its band. -/
def code (t : Tag) : Int := t.toChar.toNat

def ofCode? (value : Int) : Option Tag := all.find? (·.code == value)

theorem ofCode?_code (t : Tag) : ofCode? t.code = some t := by cases t <;> decide

/-- Where a value with the tag goes. -/
def dispatch : Tag → Dispatch
  | byte | char | int | short | boolean => .literal [.int]
  | double => .literal [.double]
  | float => .literal [.float]
  | long => .literal [.long]
  | classLiteral => .literal [.classLiteral]
  | enumConstant => .literal [.enumType, .enumName]
  | string => .literal [.string]
  | array => .array
  | nested => .nested

/-- The case bands that the tag feeds. -/
def cases (t : Tag) : List CaseBand :=
  match t.dispatch with
  | .literal cases => cases
  | .array | .nested => []

end Tag

end AnnotationBands
