import AnnotationBands.Config
import AnnotationBands.Entry
import AnnotationBands.Json.Grammar
/-!
Turning JSON trees into the types of this library.

A structure is an object of its fields or an array of them in their order.
Members with other names are passed over, whatever they hold. A value of an
inductive type is an object with the constructor's name for its only member; a
constructor without arguments can also be its name alone. Arrays and objects
that are entered, rather than passed over, may lie within each other
`maxNesting` deep; decoders take the number of further levels that they may
enter.
-/

namespace AnnotationBands.Json

open Ieee (Binary32 Binary64)

/-- How many arrays and objects may lie within each other. -/
def maxNesting : Nat := 127

/-! ## Leaves -/

/-- A text. -/
def toText? : Json → Option String
  | .string text => text
  | _ => none

def toBool? : Json → Option Bool
  | .bool b => some b
  | _ => none

/-- An integer within bounds. -/
def toIntBetween? (low high : Int) : Json → Option Int
  | .number n => n.toInt?.filter fun v => low ≤ v ∧ v ≤ high
  | _ => none

/-- A count of 64 bits. -/
def toCount? (tree : Json) : Option Nat := Int.toNat <$> tree.toIntBetween? 0 (UInt64.size - 1)

def toBinary32? : Json → Option Binary32
  | .number n => n.toBinary32?
  | _ => none

def toBinary64? : Json → Option Binary64
  | .number n => n.toBinary64?
  | _ => none

/-! ## Containers -/

/-- The items of an array. -/
def toItems? : Json → Option (List Json)
  | .array items => some items
  | _ => none

/-- A list, given the decoder of its items one level further in. -/
def toList? {α : Type} (room : Nat) (item : Json → Option α) (tree : Json) : Option (List α) := do
  if room = 0 then none
  let items ← tree.toItems?
  items.mapM item

/-- The value of a member that occurs once; `some none` if it does not occur,
`none` if it occurs more than once. -/
def member? (members : List (Option String × Json)) (name : String) : Option (Option Json) :=
  match members.filter (·.1 == some name) with
  | [] => some none
  | [(_, tree)] => some (some tree)
  | _ => none

/-- The fields of a structure, each as far as it is there. In an array the last
fields may be missing. -/
def toFields? (room : Nat) (names : List String) : Json → Option (List (Option Json))
  | .object members => if room = 0 || members.any (·.1.isNone) then none else names.mapM (member? members)
  | .array items =>
    if room = 0 || names.length < items.length then none
    else some (items.map some ++ List.replicate (names.length - items.length) none)
  | _ => none

/-- The two fields of a structure that needs both. -/
def toTwoFields? (room : Nat) (first second : String) (tree : Json) : Option (Json × Json) := do
  match ← tree.toFields? room [first, second] with
  | [some x, some y] => return (x, y)
  | _ => none

/-- The only member of an object. -/
def toOnlyMember? (room : Nat) : Json → Option (String × Json)
  | .object [(some name, tree)] => if room = 0 then none else some (name, tree)
  | _ => none

/-- A constructor without arguments, by its name. -/
def toEnumerator? {α : Type} (all : List α) (name : α → String) (room : Nat) : Json → Option α
  | .string (some text) => all.find? (name · == text)
  | tree => do
    let (text, .null) ← tree.toOnlyMember? room | none
    all.find? (name · == text)

/-! ## Values and annotations -/

/-- A pair of an annotation: an array of a name and a value, given the decoder
of the value. -/
def toPair? {α : Type} (room : Nat) (value : Json → Option α) : Json → Option (String × α)
  | .array [name, tree] =>
    if room = 0 then none
    else do
      let name ← name.toText?
      let value ← value tree
      return (name, value)
  | _ => none

/-- An annotation, given the decoder of its values, which lie three levels
further in. -/
def annotationFrom? (room : Nat) (value : Json → Option ElementValue) (tree : Json) : Option Annotation := do
  let (descriptor, pairs) ← tree.toTwoFields? room "descriptor" "pairs"
  let descriptor ← descriptor.toText?
  let pairs ← pairs.toList? (room - 1) (toPair? (room - 2) value)
  return ⟨descriptor, pairs⟩

/-- A literal value, by the name of its constructor. -/
def toLiteral? (room : Nat) (name : String) (tree : Json) : Option ElementValue :=
  match name with
  | "Byte" => (fun v => .byte (Int8.ofInt v)) <$> tree.toIntBetween? Int8.minValue.toInt Int8.maxValue.toInt
  | "Char" => (fun v => .char (UInt16.ofNat v.toNat)) <$> tree.toIntBetween? 0 (UInt16.size - 1)
  | "Int" => (fun v => .int (Int32.ofInt v)) <$> tree.toIntBetween? Int32.minValue.toInt Int32.maxValue.toInt
  | "Short" => (fun v => .short (Int16.ofInt v)) <$> tree.toIntBetween? Int16.minValue.toInt Int16.maxValue.toInt
  | "Boolean" => .boolean <$> tree.toBool?
  | "Double" => .double <$> tree.toBinary64?
  | "Float" => .float <$> tree.toBinary32?
  | "Long" => (fun v => .long (Int64.ofInt v)) <$> tree.toIntBetween? Int64.minValue.toInt Int64.maxValue.toInt
  | "Class" => .classLiteral <$> tree.toText?
  | "Enum" => do
    let (type, const) ← tree.toTwoFields? room "type_descriptor" "const_name"
    return .enumConstant (← type.toText?) (← const.toText?)
  | "String" => .string <$> tree.toText?
  | _ => none

/-- A value. Its own object is one level, an array inside it a second, an
annotation inside it three more. -/
def elementValueOf? : Nat → Json → Option ElementValue
  | 0, _ => none
  | room + 1, tree => do
    let (name, body) ← tree.toOnlyMember? (room + 1)
    match name with
    | "Array" =>
      match room with
      | inner + 1 => .array <$> body.toList? (inner + 1) (elementValueOf? inner)
      | 0 => none
    | "Annotation" =>
      match room with
      | inner + 3 => Annotation.toValue <$> body.annotationFrom? (inner + 3) (elementValueOf? inner)
      | few => Annotation.toValue <$> body.annotationFrom? few fun _ => none
    | name => body.toLiteral? room name

/-- An annotation that is not nested in another. -/
def annotationOf? (room : Nat) (tree : Json) : Option Annotation :=
  tree.annotationFrom? room (elementValueOf? (room - 3))

/-- An entry, by the name of its constructor. -/
def entryOf? (room : Nat) (tree : Json) : Option Entry := do
  let (name, body) ← tree.toOnlyMember? room
  match name with
  | "Annotations" => .member <$> body.toList? (room - 1) (annotationOf? (room - 2))
  | "Parameters" =>
    .parameters <$> body.toList? (room - 1) fun annotations => annotations.toList? (room - 2) (annotationOf? (room - 3))
  | "Default" => .defaultValue <$> body.elementValueOf? (room - 1)
  | _ => none

/-- A constant, by the name of its constructor. -/
def constantOf? (room : Nat) (tree : Json) : Option Constant := do
  let (name, body) ← tree.toOnlyMember? room
  match name with
  | "Int" => (fun v => .int (Int32.ofInt v)) <$> body.toIntBetween? Int32.minValue.toInt Int32.maxValue.toInt
  | "Float" => .float <$> body.toBinary32?
  | "Long" => (fun v => .long (Int64.ofInt v)) <$> body.toIntBetween? Int64.minValue.toInt Int64.maxValue.toInt
  | "Double" => .double <$> body.toBinary64?
  | _ => none

/-- Settings; each that is missing keeps the value it has by default. -/
def configOf? (room : Nat) (tree : Json) : Option Config := do
  let [depth, verify, log] ← tree.toFields? room ["max_nesting_depth", "verify_undo", "log_bands"] | none
  let config := Config.default
  return {
    maxNestingDepth := ← depth.elim (some config.maxNestingDepth) toCount?
    verifyUndo := ← verify.elim (some config.verifyUndo) toBool?
    logBands := ← log.elim (some config.logBands) toBool? }

end Json

/-! ## Texts -/

open Json

def Annotation.ofJson? (text : String) : Option Annotation := do (← parse? text).annotationOf? maxNesting

def ElementValue.ofJson? (text : String) : Option ElementValue := do (← parse? text).elementValueOf? maxNesting

def Entry.ofJson? (text : String) : Option Entry := do (← parse? text).entryOf? maxNesting

def Constant.ofJson? (text : String) : Option Constant := do (← parse? text).constantOf? maxNesting

def Config.ofJson? (text : String) : Option Config := do (← parse? text).configOf? maxNesting

def PoolKind.ofJson? (text : String) : Option PoolKind := do
  (← parse? text).toEnumerator? PoolKind.all PoolKind.name maxNesting

def Tag.ofJson? (text : String) : Option Tag := do (← parse? text).toEnumerator? Tag.all Tag.name maxNesting

def Kind.ofJson? (text : String) : Option Kind := do (← parse? text).toEnumerator? Kind.all Kind.name maxNesting

def Context.ofJson? (text : String) : Option Context := do
  (← parse? text).toEnumerator? Context.all Context.label maxNesting

end AnnotationBands
