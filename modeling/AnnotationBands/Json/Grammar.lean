import AnnotationBands.Json.Basic
/-!
Reading JSON texts, strictly: no comma at an end, no leading zeros or plus
signs, no raw control characters, nothing behind the value but blanks. Each
reader takes what it reads from the front of the characters and gives the rest.
-/

namespace AnnotationBands.Json

namespace Grammar

/-! ## Blanks -/

/-- The characters that may stand between tokens. -/
def isBlank (c : Char) : Bool := c == ' ' || c == '\n' || c == '\t' || c == '\r'

/-- The rest after blanks. -/
def skipBlanks (input : List Char) : List Char := input.dropWhile isBlank

/-! ## Numbers -/

/-- The digits at the front, as numbers. -/
def digits (input : List Char) : List Nat := (input.takeWhile Char.isDigit).map fun c => c.toNat - '0'.toNat

/-- The rest after the digits at the front. -/
def afterDigits (input : List Char) : List Char := input.dropWhile Char.isDigit

/-- A fraction, which is a point and at least one digit, if there is a point. -/
def fraction : List Char → Option (Option (List Nat) × List Char)
  | '.' :: rest => if (digits rest).isEmpty then none else some (some (digits rest), afterDigits rest)
  | rest => some (none, rest)

/-- The digits of an exponent, of which there is at least one. -/
def exponentDigits (negative : Bool) (input : List Char) : Option (Option (Bool × List Nat) × List Char) :=
  if (digits input).isEmpty then none else some (some (negative, digits input), afterDigits input)

/-- The exponent behind its letter, with or without a sign. -/
def signedExponent : List Char → Option (Option (Bool × List Nat) × List Char)
  | '-' :: rest => exponentDigits true rest
  | '+' :: rest => exponentDigits false rest
  | rest => exponentDigits false rest

/-- An exponent, if its letter is there. -/
def exponent : List Char → Option (Option (Bool × List Nat) × List Char)
  | 'e' :: rest => signedExponent rest
  | 'E' :: rest => signedExponent rest
  | rest => some (none, rest)

/-- A number behind its sign. A leading zero stands alone. -/
def unsignedNumber (negative : Bool) (input : List Char) : Option (Number × List Char) := do
  let whole := digits input
  if whole.isEmpty || (whole.head? == some 0 && whole.length != 1) then none
  let (fraction, rest) ← fraction (afterDigits input)
  let (exponent, rest) ← exponent rest
  return (⟨negative, whole, fraction, exponent⟩, rest)

/-- A number. -/
def number : List Char → Option (Number × List Char)
  | '-' :: rest => unsignedNumber true rest
  | rest => unsignedNumber false rest

/-! ## Strings -/

/-- A character of a string, or half of one that takes two escapes. -/
inductive Piece where
  | char (c : Char)
  | surrogate (code : Nat)

/-- The value of a digit in base 16. -/
def hexDigit? (c : Char) : Option Nat :=
  if c.isDigit then some (c.toNat - '0'.toNat)
  else if 'a' ≤ c ∧ c ≤ 'f' then some (c.toNat - 'a'.toNat + 10)
  else if 'A' ≤ c ∧ c ≤ 'F' then some (c.toNat - 'A'.toNat + 10)
  else none

/-- What an escape of four hexadecimal digits stands for. -/
def hexPiece? (a b c d : Char) : Option Piece := do
  let code := 4096 * (← hexDigit? a) + 256 * (← hexDigit? b) + 16 * (← hexDigit? c) + (← hexDigit? d)
  return if 0xD800 ≤ code ∧ code < 0xE000 then .surrogate code else .char (Char.ofNat code)

/-- What an escape of one letter stands for. -/
def escape? : Char → Option Char
  | '"' => some '"'
  | '\\' => some '\\'
  | '/' => some '/'
  | 'b' => some '\x08'
  | 'f' => some '\x0c'
  | 'n' => some '\n'
  | 'r' => some '\r'
  | 't' => some '\t'
  | _ => none

/-- The pieces of a string up to its closing quote. -/
def pieces : List Char → Option (List Piece × List Char)
  | [] => none
  | '"' :: rest => some ([], rest)
  | '\\' :: 'u' :: a :: b :: c :: d :: rest => do
    let piece ← hexPiece? a b c d
    let (more, rest) ← pieces rest
    return (piece :: more, rest)
  | '\\' :: letter :: rest => do
    let c ← escape? letter
    let (more, rest) ← pieces rest
    return (.char c :: more, rest)
  | c :: rest =>
    if c.toNat < 0x20 then none
    else do
      let (more, rest) ← pieces rest
      return (.char c :: more, rest)

/-- The characters of pieces: a high half is followed by a low one, and no half
stands alone. -/
def join : List Piece → Option (List Char)
  | [] => some []
  | .char c :: more => (c :: ·) <$> join more
  | .surrogate high :: .surrogate low :: more =>
    if high < 0xDC00 ∧ 0xDC00 ≤ low then
      (Char.ofNat (0x10000 + (high - 0xD800) * 0x400 + (low - 0xDC00)) :: ·) <$> join more
    else none
  | .surrogate _ :: _ => none

/-- A string behind its opening quote. -/
def string (input : List Char) : Option (Option String × List Char) := do
  let (ps, rest) ← pieces input
  return ((join ps).map String.ofList, rest)

/-! ## Values -/

/-- A member's name and the colon after it. -/
def memberName (input : List Char) : Option (Option String × List Char) :=
  match skipBlanks input with
  | '"' :: rest => do
    let (name, rest) ← string rest
    match skipBlanks rest with
    | ':' :: rest => some (name, rest)
    | _ => none
  | _ => none

mutual

/-- A value. Each value and each member takes a character at least, so the
number of characters bounds the steps. -/
def value : Nat → List Char → Option (Json × List Char)
  | 0, _ => none
  | steps + 1, input =>
    match skipBlanks input with
    | 'n' :: 'u' :: 'l' :: 'l' :: rest => some (.null, rest)
    | 't' :: 'r' :: 'u' :: 'e' :: rest => some (.bool true, rest)
    | 'f' :: 'a' :: 'l' :: 's' :: 'e' :: rest => some (.bool false, rest)
    | '"' :: rest => do
      let (text, rest) ← string rest
      return (.string text, rest)
    | '[' :: rest =>
      match skipBlanks rest with
      | ']' :: rest => some (.array [], rest)
      | rest => do
        let (items, rest) ← items steps rest
        return (.array items, rest)
    | '\x7b' :: rest =>
      match skipBlanks rest with
      | '\x7d' :: rest => some (.object [], rest)
      | rest => do
        let (members, rest) ← members steps rest
        return (.object members, rest)
    | rest => do
      let (n, rest) ← number rest
      return (.number n, rest)

/-- The items of an array, of which there is at least one, and the closing
bracket. -/
def items : Nat → List Char → Option (List Json × List Char)
  | 0, _ => none
  | steps + 1, input => do
    let (item, rest) ← value steps input
    match skipBlanks rest with
    | ',' :: rest =>
      let (more, rest) ← items steps rest
      return (item :: more, rest)
    | ']' :: rest => return ([item], rest)
    | _ => none

/-- The members of an object, of which there is at least one, and the closing
brace. -/
def members : Nat → List Char → Option (List (Option String × Json) × List Char)
  | 0, _ => none
  | steps + 1, input => do
    let (name, rest) ← memberName input
    let (item, rest) ← value steps rest
    match skipBlanks rest with
    | ',' :: rest =>
      let (more, rest) ← members steps rest
      return ((name, item) :: more, rest)
    | '\x7d' :: rest => return ([(name, item)], rest)
    | _ => none

end

end Grammar

/-- The tree of a text that is one value and blanks. -/
def parse? (text : String) : Option Json :=
  let input := text.toList
  match Grammar.value (input.length + 1) input with
  | some (tree, rest) => if (Grammar.skipBlanks rest).isEmpty then some tree else none
  | none => none

end AnnotationBands.Json
