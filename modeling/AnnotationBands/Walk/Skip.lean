import AnnotationBands.Walk
/-!
Passing over trees without a pool. A walk over a value reads one tag before it
goes into the value's elements, so the number of tags ahead bounds the
recursion, whatever the counts in the bands say: with no tag left, the next
step is the one that runs past the end of the tags.
-/

namespace AnnotationBands.Walk

/-- Passes over the next value of each band. -/
def skipEach : List Band → Walk Unit
  | [] => return ()
  | b :: bs => do
    let _ ← next b
    skipEach bs

/-- Passes over a value at the given depth, with the given number of tags
ahead. -/
def skipValueWithin : Nat → Nat → Walk Unit
  | 0, depth => do
    checkDepth depth
    failPastEnd .tags
  | tagsAhead + 1, depth => do
    checkDepth depth
    let tag ← nextTag
    match tag.dispatch with
    | .literal cases => skipEach (cases.map CaseBand.band)
    | .array =>
      let length ← nextCount .arrayCounts
      addCalls length
      times length (skipValueWithin tagsAhead (depth + 1))
    | .nested =>
      let _ ← next .nestTypes
      let pairs ← nextCount .nestPairCounts
      addCalls pairs
      times pairs do
        let _ ← next .nestNames
        skipValueWithin tagsAhead (depth + 1)

/-- Passes over a value that is not nested in another. -/
def skipValue : Walk Unit := fun c => skipValueWithin (c.remaining .tags) 1 c

/-- Passes over an annotation that is not nested in another. -/
def skipRoot : Walk Unit := do
  let _ ← next .types
  let pairs ← nextCount .pairCounts
  times pairs do
    let _ ← next .names
    skipValue

end AnnotationBands.Walk
