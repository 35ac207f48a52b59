import AnnotationBands.BandCodec
import AnnotationBands.Config
import AnnotationBands.Entry
/-!
Reading the bands of a group back from bytes. The bytes carry no counts of
their own: the number of entries and the number of calls come from outside, and
every other count from the bands read before.
-/

namespace AnnotationBands

/-- The bands of a group as read from bytes, not yet turned back into trees. -/
structure DecodedBands where
  kind : Kind
  config : Config
  entryCount : Nat
  bands : Bands

namespace DecodedBands

/-- Reads one band; the band is blamed when the input ends. -/
def readBand (codec : BandCodec) (b : Band) (count : Nat) : Input (List Int) := fun input =>
  match codec.decode b.codec count input with
  | .ok values rest => .ok values rest
  | .error (.io .endOfInput) rest => .error (.unexpectedEnd b) rest
  | .error e rest => .error e rest

/-- Reads a band if the kind sends it; it is empty otherwise. -/
def readIfSent (codec : BandCodec) (kind : Kind) (b : Band) (count : Nat) : Input (List Int) :=
  if b.isTransmitted kind then readBand codec b count else pure []

/-- The sum of a band of counts, which has to be a count itself. -/
def total (b : Band) (values : List Int) : Except BandError Nat :=
  match wordSum values with
  | .ofNat n => .ok n
  | .negSucc n => .error (.valueOutOfRange b.codec (.negSucc n))

/-- The tags that a band's values stand for. -/
def tagsOf : List Int → Except BandError (List Tag)
  | [] => .ok []
  | v :: vs =>
    match Tag.ofCode? v with
    | some tag => do return tag :: (← tagsOf vs)
    | none => .error (.unknownTag v)

/-- The number of operands that tags send to a case band. -/
def caseCount (case : CaseBand) (tags : List Tag) : Nat := (tags.flatMap Tag.cases).count case

/-- One more than the largest count of values. -/
def countLimit : Nat := UInt64.size

/-- Reads every band that the kind sends, for a number of entries and a number
of array elements and nested pairs. -/
def read (codec : BandCodec) (kind : Kind) (config : Config) (entries calls : Nat) : Input DecodedBands := do
  let paramCounts ← readIfSent codec kind .paramCounts entries
  let places ← if kind.isParameter then BandError.orThrow (total .paramCounts paramCounts) else pure entries
  let annoCounts ← readIfSent codec kind .annoCounts places
  let annotations ← BandError.orThrow (total .annoCounts annoCounts)
  let types ← readIfSent codec kind .types annotations
  let pairCounts ← readIfSent codec kind .pairCounts annotations
  let pairs ← BandError.orThrow (total .pairCounts pairCounts)
  let names ← readIfSent codec kind .names pairs
  let roots := if kind.hasDescriptors then pairs else entries
  if countLimit ≤ roots + calls then
    throw (.valueOutOfRange Band.tags.codec (min calls (countLimit / 2 - 1) : Nat))
  let tagValues ← readBand codec .tags (roots + calls)
  let tags ← BandError.orThrow (tagsOf tagValues)
  let ints ← readBand codec .ints (caseCount .int tags)
  let doubles ← readBand codec .doubles (caseCount .double tags)
  let floats ← readBand codec .floats (caseCount .float tags)
  let longs ← readBand codec .longs (caseCount .long tags)
  let classes ← readBand codec .classes (caseCount .classLiteral tags)
  let enumTypes ← readBand codec .enumTypes (caseCount .enumType tags)
  let enumNames ← readBand codec .enumNames (caseCount .enumName tags)
  let strings ← readBand codec .strings (caseCount .string tags)
  let arrayCounts ← readBand codec .arrayCounts (tags.count .array)
  let nestTypes ← readBand codec .nestTypes (tags.count .nested)
  let nestPairCounts ← readBand codec .nestPairCounts (tags.count .nested)
  let nestPairs ← BandError.orThrow (total .nestPairCounts nestPairCounts)
  let nestNames ← readBand codec .nestNames nestPairs
  let elements ← BandError.orThrow (total .arrayCounts arrayCounts)
  if elements + nestPairs ≠ calls then
    throw (.desync .tags calls (elements + nestPairs))
  return ⟨kind, config, entries,
    { paramCounts, annoCounts, types, pairCounts, names, tags := tagValues, ints, doubles, floats, longs, classes,
      enumTypes, enumNames, strings, arrayCounts, nestTypes, nestPairCounts, nestNames }⟩

def entries {L : Type} [Resolver L] (decoded : DecodedBands) (pool : L) : Except BandError (List Entry) :=
  decoded.bands.entries decoded.kind decoded.entryCount decoded.config.maxNestingDepth pool

end DecodedBands

end AnnotationBands
