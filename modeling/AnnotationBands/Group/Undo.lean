import AnnotationBands.Group
import AnnotationBands.Walk.Skip
/-!
Removing the latest entry of a group, with every tree that it covers. How many
trees that is stands in the counts of entries; where the first of them starts
stands in its mark.
-/

namespace AnnotationBands

/-- How much of a group the latest entry takes up. -/
structure LatestEntry where
  /-- Parameter counts. -/
  paramCounts : Nat
  /-- Annotation counts. -/
  annoCounts : Nat
  /-- Annotations or default values. -/
  trees : Nat

namespace Group

/-- The extent of the latest entry. -/
def latestEntry (g : Group) : Except BandError LatestEntry :=
  if g.kind.isParameter then
    match g.bands.paramCounts.getLast? with
    | none => .error (.noOpenEntry .paramCounts)
    | some n =>
      let parameters := n.toNat
      let counts := g.bands.annoCounts
      if counts.length < parameters then .error (.desync .annoCounts parameters counts.length)
      else .ok ⟨1, parameters, ((counts.drop (counts.length - parameters)).map Int.toNat).foldr (· + ·) 0⟩
  else if g.kind.hasDescriptors then
    match g.bands.annoCounts.getLast? with
    | none => .error (.noOpenEntry .annoCounts)
    | some n => .ok ⟨0, 1, n.toNat⟩
  else if g.marks.isEmpty then .error (.noOpenEntry .tags)
  else .ok ⟨0, 0, 1⟩

/-- Passes over trees and checks that they end where the content bands do. -/
def skipTrees (g : Group) (trees : Nat) : Walk Unit := do
  Walk.times trees (if g.kind.hasDescriptors then Walk.skipRoot else Walk.skipValue)
  Walk.ensureExhausted Band.content

/-- The calls of the trees from a mark to the end: counted by a walk that also
checks them, or summed up. -/
def callsSince (g : Group) (start : Mark) (trees : Nat) : Except BandError Nat :=
  if g.config.verifyUndo then
    match g.skipTrees trees (Cursor.ofMark g.bands start (some g.config.maxNestingDepth)) with
    | .ok () c => .ok c.calls
    | .error e _ => .error e
  else .ok (g.bands.sumSince .arrayCounts start + g.bands.sumSince .nestPairCounts start).toNat

/-- The bands without the latest counts of an entry. -/
def dropCounts (bands : Bands) (latest : LatestEntry) : Bands :=
  { bands with
    paramCounts := bands.paramCounts.take (bands.paramCounts.length - latest.paramCounts)
    annoCounts := bands.annoCounts.take (bands.annoCounts.length - latest.annoCounts) }

/-- Removes the latest entry and every tree that it covers. -/
def removeLatest (g : Group) : Except BandError Group := do
  let latest ← g.latestEntry
  if g.marks.length < latest.trees then
    throw (.desync .annoCounts latest.trees g.marks.length)
  else
    let kept := g.marks.length - latest.trees
    let start := g.marks[kept]?.getD g.bands.mark
    let calls ← g.callsSince start latest.trees
    return { g with
      bands := (dropCounts g.bands latest).truncateContent start
      calls := g.calls - calls
      marks := g.marks.take kept }

end Group

end AnnotationBands
