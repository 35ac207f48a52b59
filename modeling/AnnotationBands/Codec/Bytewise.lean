import AnnotationBands.BandCodec
/-!
The byte code byte by byte. Encoding puts one byte after the other at the end of
a buffer and goes on with what is left of the number, decoding takes one byte
after the other and adds it to a running total, and both look at no more bytes
than one value may have. A buffer keeps what was put into it.
-/

namespace AnnotationBands

/-- A computation that writes to the end of a buffer. -/
abbrev Buffer := EStateM BandError (List UInt8)

namespace Codec

/-- The sum of the powers of the radix so far, and the next power, after some
more rounds. -/
def sumPowers (c : Codec) : Nat → Int → Int → Int × Int
  | 0, sum, power => (sum, power)
  | n + 1, sum, power => c.sumPowers n (sum + power) (power * c.radix)

/-- How many values the codec can write, by the powers of its radix. -/
def codewords (c : Codec) : Int :=
  let (sum, power) := c.sumPowers c.maxBytes 0 1
  c.low * sum + power

/-- The least number at or above `low` that the radix leads to from a digit. -/
def lift (c : Codec) (digit : Int) : Int := if digit < c.low then c.lift (digit + c.radix) else digit
termination_by (c.low - digit).toNat
decreasing_by
  have hradix : 0 < c.radix := by cases c <;> decide
  omega

/-- Puts a number into the buffer as one byte. -/
def putByte (byte : Int) : Buffer Unit := fun out => .ok () (out ++ [UInt8.ofInt byte])

/-- Puts at most `n` bytes of a number into the buffer. -/
def putDigits (c : Codec) : Nat → Int → Buffer Unit
  | 0, _ => pure ()
  | n + 1, z => do
    let byte := if z < c.low then z else c.lift (z.tmod c.radix)
    putByte byte
    if byte < c.low then pure () else c.putDigits n ((z - byte).tdiv c.radix)

def putValue (c : Codec) (value : Int) : Buffer Unit :=
  if 0 ≤ value ∧ value ≤ c.codewords - 1 then c.putDigits c.maxBytes value else throw (.valueOutOfRange c value)

def putValues (c : Codec) : List Int → Buffer Unit
  | [] => pure ()
  | value :: values => do
    c.putValue value
    c.putValues values

/-- Takes the next byte of the input. -/
def takeByte : Input UInt8
  | [] => .error (.io .endOfInput) []
  | b :: input => .ok b input

/-- Takes at most `n` bytes and adds each to the total, times the power of the
radix that its place has. -/
def takeDigits (c : Codec) : Nat → Int → Int → Input Int
  | 0, total, _ => return total
  | n + 1, total, power => do
    let b ← takeByte
    let total := total + b.toNat * power
    if b.toNat < c.low then return total else c.takeDigits n total (power * c.radix)

def takeValue (c : Codec) : Input Int := c.takeDigits c.maxBytes 0 1

def takeValues (c : Codec) : Nat → Input (List Int)
  | 0 => return []
  | n + 1 => do
    let value ← c.takeValue
    let values ← c.takeValues n
    return value :: values

end Codec

/-- Bands are put into a new buffer, of which nothing is kept when a value has
no code. -/
def BandCodec.bytewise : BandCodec where
  encode c values :=
    match c.putValues values [] with
    | .ok () out => .ok out
    | .error e _ => .error e
  decode c n := c.takeValues n

end AnnotationBands
