import AnnotationBands.Band
import AnnotationBands.Constant
/-!
Everything that can go wrong, by cause. `BandError.message` is the one place
that words an error.
-/

namespace AnnotationBands

/-- The operations of a group that are refused for some kinds. -/
inductive Operation where
  | openEntry
  | extendEntry
  | addOne
  | addMember
  | addParameters
  | addDefault
  deriving DecidableEq

def Operation.name : Operation → String
  | openEntry => "new_entry_in_anno_n"
  | extendEntry => "increment_anno_n"
  | addOne => "add_annotation"
  | addMember => "add_member_annotations"
  | addParameters => "add_parameter_annotations"
  | addDefault => "add_default_value"

/-- What a byte source or sink can fail with. -/
inductive IoFault where
  /-- The input ended before the bytes that were asked for. -/
  | endOfInput
  /-- Any other failure, in the words of the source or sink. -/
  | other (text : String)
  deriving DecidableEq

def IoFault.message : IoFault → String
  | endOfInput => "failed to fill whole buffer"
  | other text => text

/-- The causes of failure. -/
inductive BandError where
  | wrongKind (kind : Kind) (operation : Operation)
  /-- There is no entry to extend or remove; the band is the one that would
  hold it. -/
  | noOpenEntry (band : Band)
  /-- A method has more parameters than one entry can count. -/
  | tooManyParameters (count : Nat)
  | nestingTooDeep (limit : Nat)
  | arityMismatch (tag : Char) (expected found : Nat)
  /-- A band holds another number of values than the rest calls for. -/
  | desync (band : Band) (expected found : Nat)
  | valueOutOfRange (codec : Codec) (value : Int)
  | unexpectedEnd (band : Band)
  /-- No tag is written as this number. -/
  | unknownTag (value : Int)
  /-- The index space holds nothing at this index. -/
  | unresolvedReference (pool : PoolKind) (index : Int)
  | io (fault : IoFault)
  deriving DecidableEq

/-- A number in base 16 with at least two digits; a negative one as its two's
complement in 64 bits. -/
def hexadecimal (value : Int) : String :=
  let digits := Nat.toDigits 16 (value % UInt64.size).toNat
  String.ofList (List.replicate (2 - digits.length) '0' ++ digits)

namespace BandError

def message : BandError → String
  | wrongKind kind operation => operation.name ++ " is not valid for " ++ kind.code ++ " band groups"
  | noOpenEntry band => "No open entry in " ++ band.name
  | tooManyParameters count => "Too many parameters: " ++ toString count ++ " (param_NB holds at most 255)"
  | nestingTooDeep limit => "Value nesting exceeds the configured limit of " ++ toString limit
  | arityMismatch tag expected found =>
    "Tag '" ++ String.singleton tag ++ "' expects " ++ toString expected ++ " operand(s), got " ++ toString found
  | desync band expected found =>
    "Band " ++ band.name ++ " out of step: expected " ++ toString expected ++ " entries, found " ++ toString found
  | valueOutOfRange codec value => "Value " ++ toString value ++ " cannot be encoded with " ++ codec.name
  | unexpectedEnd band => "Unexpected end of input while reading " ++ band.name
  | unknownTag value => "Unknown value tag: 0x" ++ hexadecimal value
  | unresolvedReference pool index => "Unresolved " ++ pool.wireName ++ " reference: " ++ toString index
  | io fault => "IO error: " ++ fault.message

/-- A result as a step of a computation with state; an error leaves the state
as it is. -/
def orThrow {σ α : Type} : Except BandError α → EStateM BandError σ α
  | .ok x => pure x
  | .error e => throw e

end BandError

end AnnotationBands
