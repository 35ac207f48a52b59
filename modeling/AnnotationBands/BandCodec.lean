import AnnotationBands.Error
/-!
Coding whole bands. The bytes of a band carry no framing: a reader has to know
how many values to expect. A band codec is a pair of functions, so that a
reader or writer of bands can be stated for all of them; `BandCodec.direct`
writes each value with the byte code of the given `Codec` and nothing else.
-/

namespace AnnotationBands

/-- Reading from a byte source: the state is what is left of the input. -/
abbrev Input := EStateM BandError (List UInt8)

namespace Codec

def encodeValue (c : Codec) (value : Int) : Except BandError (List UInt8) :=
  if c.Encodes value then .ok (c.digits c.maxBytes value.toNat) else .error (.valueOutOfRange c value)

/-- Reads one value. Input that ends inside a value is used up. -/
def decodeValue (c : Codec) : Input Int := fun input =>
  match c.absorb c.maxBytes input with
  | some (value, rest) => .ok value rest
  | none => .error (.io .endOfInput) []

/-- The bytes of a list of values, one after the other; the first value without
a code is the error. -/
def encodeList (c : Codec) : List Int → Except BandError (List UInt8)
  | [] => .ok []
  | value :: values => do
    let bytes ← c.encodeValue value
    let rest ← c.encodeList values
    return bytes ++ rest

def decodeList (c : Codec) : Nat → Input (List Int)
  | 0 => return []
  | n + 1 => do
    let value ← c.decodeValue
    let values ← c.decodeList n
    return value :: values

end Codec

/-- A way to turn bands into bytes and back. -/
structure BandCodec where
  encode : Codec → List Int → Except BandError (List UInt8)
  decode : Codec → Nat → Input (List Int)

/-- Each value by its byte code, one after the other. -/
def BandCodec.direct : BandCodec := ⟨Codec.encodeList, Codec.decodeList⟩

end AnnotationBands
