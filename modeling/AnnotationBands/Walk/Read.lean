import AnnotationBands.Walk
import AnnotationBands.ElementValue
/-!
Rebuilding trees. Each reference is resolved in the pool right after it is
read. As when passing over a value, the number of tags ahead bounds the
recursion.
-/

namespace AnnotationBands.Walk

variable {L : Type} [Resolver L] (pool : L)

/-- Reads a reference to a descriptor. -/
def readDescriptor (b : Band) : Walk String := do
  let index ← next b
  BandError.orThrow (Resolver.descriptor pool index)

/-- Reads a reference to a text. -/
def readUtf8 (b : Band) : Walk String := do
  let index ← next b
  BandError.orThrow (Resolver.utf8 pool index)

/-- Reads an operand of a literal. -/
def readOperand (case : CaseBand) : Walk Operand := do
  let index ← next case.band
  BandError.orThrow (case.resolve pool index)

/-- Reads a value at the given depth, with the given number of tags ahead. -/
def readValueWithin : Nat → Nat → Walk ElementValue
  | 0, depth => do
    checkDepth depth
    failPastEnd .tags
  | tagsAhead + 1, depth => do
    checkDepth depth
    let tag ← nextTag
    match tag.dispatch with
    | .literal cases =>
      let operands ← forEach (readOperand pool) cases
      BandError.orThrow (ElementValue.ofOperands tag operands)
    | .array =>
      let length ← nextCount .arrayCounts
      addCalls length
      let items ← collect length (readValueWithin tagsAhead (depth + 1))
      return .array items
    | .nested =>
      let descriptor ← readDescriptor pool .nestTypes
      let count ← nextCount .nestPairCounts
      addCalls count
      let pairs ← collect count do
        let name ← readUtf8 pool .nestNames
        let value ← readValueWithin tagsAhead (depth + 1)
        return (name, value)
      return .nested descriptor pairs

/-- Reads a value that is not nested in another. -/
def readValue : Walk ElementValue := fun c => readValueWithin pool (c.remaining .tags) 1 c

/-- Reads an annotation that is not nested in another. -/
def readRoot : Walk Annotation := do
  let descriptor ← readDescriptor pool .types
  let count ← nextCount .pairCounts
  let pairs ← collect count do
    let name ← readUtf8 pool .names
    let value ← readValue pool
    return (name, value)
  return ⟨descriptor, pairs⟩

end AnnotationBands.Walk
