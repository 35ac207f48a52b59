/-!
The byte code of one band value. A codec writes a natural number in 1 to
`maxBytes` bytes. A byte below `low` ends the number; a byte at or above it is
a digit in base `radix` and the number goes on, but the byte in the last
position always ends it. `low + radix = 256`, so the digits that go on fill the
rest of a byte's range.
-/

namespace AnnotationBands

/-- The two codecs in use. -/
inductive Codec where
  /-- One raw byte for each value. -/
  | byte1
  /-- Up to five bytes with base-64 digits, for values of any size. -/
  | unsigned5
  deriving DecidableEq

namespace Codec

def name : Codec → String
  | byte1 => "BYTE1"
  | unsigned5 => "UNSIGNED5"

/-- The most bytes that one value takes. -/
def maxBytes : Codec → Nat
  | byte1 => 1
  | unsigned5 => 5

/-- The base of the digits that do not end a value. -/
def radix : Codec → Nat
  | byte1 => 256
  | unsigned5 => 64

/-- The least byte that does not end a value. -/
def low (c : Codec) : Nat := 256 - c.radix

def display (c : Codec) : String :=
  c.name ++ "(" ++ toString c.maxBytes ++ "," ++ toString c.radix ++ ")"

/-- How many values have a code of at most `n` bytes: `low` choices of an
ending byte at each of `n` positions, each after a run of `radix` digits, and
the codes whose last byte is not an ending one. -/
def reach (c : Codec) : Nat → Nat
  | 0 => 1
  | n + 1 => c.low + c.radix * c.reach n

/-- How many values the codec can write. -/
def cardinality (c : Codec) : Nat := c.reach c.maxBytes

def largest (c : Codec) : Nat := c.cardinality - 1

/-- The values that the codec can write. -/
def Encodes (c : Codec) (value : Int) : Prop := 0 ≤ value ∧ value ≤ c.largest

instance (c : Codec) (value : Int) : Decidable (c.Encodes value) := by unfold Encodes; infer_instance

/-- The digit byte for a number at or above `low`: the byte from `low` upwards
that is congruent to it. -/
def digit (c : Codec) (z : Nat) : Nat := c.low + (z - c.low) % c.radix

/-- The bytes of a number in at most `n` bytes, the least digit first. -/
def digits (c : Codec) : Nat → Nat → List UInt8
  | 0, _ => []
  | n + 1, z =>
    if z < c.low then [UInt8.ofNat z]
    else UInt8.ofNat (c.digit z) :: c.digits n ((z - c.digit z) / c.radix)

/-- Reads one number of at most `n` bytes from the front of the input; `none`
when the input ends inside it. -/
def absorb (c : Codec) : Nat → List UInt8 → Option (Nat × List UInt8)
  | 0, input => some (0, input)
  | _ + 1, [] => none
  | n + 1, b :: input =>
    if b.toNat < c.low then some (b.toNat, input)
    else (c.absorb n input).map fun (v, rest) => (b.toNat + c.radix * v, rest)

end Codec

end AnnotationBands
