import AnnotationBands.Config
import AnnotationBands.Entry
import AnnotationBands.Ieee.Shortest
/-!
Writing values as JSON texts, without blanks. A value of an inductive type is
an object with the constructor's name for its only member; the fields of a
structure keep their order.
-/

namespace AnnotationBands.Json

open Ieee

/-! ## Texts -/

/-- A digit in base 16. -/
def hexDigit (n : Nat) : Char := Nat.digitChar n

/-- A character inside a string. Quotes, backslashes and control characters are
escaped, and nothing else is. -/
def escaped (c : Char) : List Char :=
  match c with
  | '"' => ['\\', '"']
  | '\\' => ['\\', '\\']
  | '\x08' => ['\\', 'b']
  | '\x0c' => ['\\', 'f']
  | '\n' => ['\\', 'n']
  | '\r' => ['\\', 'r']
  | '\t' => ['\\', 't']
  | c => if c.toNat < 0x20 then ['\\', 'u', '0', '0', hexDigit (c.toNat / 16), hexDigit (c.toNat % 16)] else [c]

/-- A text between quotes. -/
def quoted (text : String) : String := String.ofList ('"' :: text.toList.flatMap escaped ++ ['"'])

/-! ## Numbers -/

/-- How floating-point numbers of a format are written. -/
structure FloatLayout where
  format : Format
  /-- The least exponent of a leading digit for which the number is written
  without an exponent. -/
  least : Int
  /-- The greatest one. -/
  greatest : Int

/-- Numbers of 32 bits are written without an exponent from 0.000001 up to, but
not including, 10 ^ 13. -/
def FloatLayout.binary32 : FloatLayout := ⟨.binary32, -6, 12⟩

/-- Numbers of 64 bits are written without an exponent from 0.00001 up to, but
not including, 10 ^ 16. -/
def FloatLayout.binary64 : FloatLayout := ⟨.binary64, -5, 15⟩

/-- A decimal written without an exponent, with a digit at least on both sides
of the point. -/
def positional (d : Decimal) : List Char :=
  let digits := d.characters
  let whole := d.leadingExponent + 1
  if whole ≤ 0 then '0' :: '.' :: List.replicate (-whole).toNat '0' ++ digits
  else
    let places := whole.toNat
    if digits.length ≤ places then digits ++ List.replicate (places - digits.length) '0' ++ ['.', '0']
    else digits.take places ++ '.' :: digits.drop places

/-- A decimal written with an exponent, which has a sign. -/
def scientific (d : Decimal) : List Char :=
  let exponent := d.leadingExponent
  let mantissa :=
    match d.characters with
    | lead :: next :: more => lead :: '.' :: next :: more
    | digits => digits
  mantissa ++ 'e' :: (if exponent < 0 then '-' else '+') :: Nat.toDigits 10 exponent.natAbs

/-- A floating-point number by its pattern, in the fewest digits that read
back. What is no finite number is null. -/
def FloatLayout.write (layout : FloatLayout) (pattern : Nat) : String :=
  let magnitude := layout.format.magnitude pattern
  if layout.format.isFinite pattern then
    let digits :=
      if magnitude = 0 then ['0', '.', '0']
      else
        let d := layout.format.shortest magnitude
        let exponent := d.leadingExponent
        if layout.least ≤ exponent ∧ exponent ≤ layout.greatest then positional d else scientific d
    String.ofList (if layout.format.isNegative pattern then '-' :: digits else digits)
  else "null"

def ofBinary32 (v : Binary32) : String := FloatLayout.binary32.write v.bits.toNat

def ofBinary64 (v : Binary64) : String := FloatLayout.binary64.write v.bits.toNat

def ofBool (b : Bool) : String := if b then "true" else "false"

/-! ## Containers -/

/-- An array of written items. -/
def ofItems (items : List String) : String := "[" ++ String.intercalate "," items ++ "]"

/-- An object of written members. -/
def ofMembers (members : List (String × String)) : String :=
  "\x7b" ++ String.intercalate "," (members.map fun (name, value) => quoted name ++ ":" ++ value) ++ "\x7d"

/-- A constructor with its written arguments. -/
def constructed (name value : String) : String := ofMembers [(name, value)]

/-- An annotation by its written pairs. -/
def ofAnnotationParts (descriptor : String) (pairs : List String) : String :=
  ofMembers [("descriptor", quoted descriptor), ("pairs", ofItems pairs)]

end Json

open Json

/-! ## Values and annotations -/

namespace ElementValue

mutual

def toJson : ElementValue → String
  | byte v => constructed "Byte" (toString v.toInt)
  | char v => constructed "Char" (toString v.toNat)
  | int v => constructed "Int" (toString v.toInt)
  | short v => constructed "Short" (toString v.toInt)
  | boolean v => constructed "Boolean" (ofBool v)
  | double v => constructed "Double" (ofBinary64 v)
  | float v => constructed "Float" (ofBinary32 v)
  | long v => constructed "Long" (toString v.toInt)
  | classLiteral d => constructed "Class" (quoted d)
  | enumConstant t n => constructed "Enum" (ofMembers [("type_descriptor", quoted t), ("const_name", quoted n)])
  | string s => constructed "String" (quoted s)
  | array items => constructed "Array" (ofItems (itemsToJson items))
  | nested d pairs => constructed "Annotation" (ofAnnotationParts d (pairsToJson pairs))

/-- Values written one by one. -/
def itemsToJson : List ElementValue → List String
  | [] => []
  | v :: vs => toJson v :: itemsToJson vs

/-- Named values written one by one, each as an array of the name and the
value. -/
def pairsToJson : List (String × ElementValue) → List String
  | [] => []
  | (name, v) :: more => ofItems [quoted name, toJson v] :: pairsToJson more

end

end ElementValue

def Annotation.toJson (a : Annotation) : String := ofAnnotationParts a.descriptor (ElementValue.pairsToJson a.pairs)

def Entry.toJson : Entry → String
  | .member annotations => constructed "Annotations" (ofItems (annotations.map Annotation.toJson))
  | .parameters lists =>
    constructed "Parameters" (ofItems (lists.map fun annotations => ofItems (annotations.map Annotation.toJson)))
  | .defaultValue v => constructed "Default" v.toJson

def Constant.toJson : Constant → String
  | .int v => constructed "Int" (toString v.toInt)
  | .float v => constructed "Float" (ofBinary32 v)
  | .long v => constructed "Long" (toString v.toInt)
  | .double v => constructed "Double" (ofBinary64 v)

def Config.toJson (c : Config) : String :=
  ofMembers [("max_nesting_depth", toString c.maxNestingDepth), ("verify_undo", ofBool c.verifyUndo),
    ("log_bands", ofBool c.logBands)]

def PoolKind.toJson (k : PoolKind) : String := quoted k.name

def Tag.toJson (t : Tag) : String := quoted t.name

def Kind.toJson (k : Kind) : String := quoted k.name

def Context.toJson (c : Context) : String := quoted c.label

end AnnotationBands
