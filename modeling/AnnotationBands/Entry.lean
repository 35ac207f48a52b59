import AnnotationBands.Kind
import AnnotationBands.Walk.Read
/-!
Entries: what the surrounding structure counts. All entries of a group are
rebuilt by one walk from the start of its bands, which has to end at the end of
every band.
-/

namespace AnnotationBands

/-- One entry of a group. -/
inductive Entry where
  /-- The annotations of one class, field or method. -/
  | member (annotations : List Annotation)
  /-- The annotations of each parameter of one method. -/
  | parameters (parameters : List (List Annotation))
  /-- The default value of one annotation-type method. -/
  | defaultValue (value : ElementValue)

namespace Walk

variable {L : Type} [Resolver L] (pool : L)

/-- Reads one entry of a group of the given kind. The counts of all parameters
come before the annotations of any. -/
def readEntry (kind : Kind) : Walk Entry :=
  if kind.isParameter then do
    let parameters ← nextCount .paramCounts
    let counts ← collect parameters (nextCount .annoCounts)
    let annotations ← forEach (fun n => collect n (readRoot pool)) counts
    return .parameters annotations
  else if kind.hasDescriptors then do
    let n ← nextCount .annoCounts
    let annotations ← collect n (readRoot pool)
    return .member annotations
  else do
    let value ← readValue pool
    return .defaultValue value

/-- Reads a number of entries, which have to use up all bands. -/
def readEntries (kind : Kind) (count : Nat) : Walk (List Entry) := do
  let entries ← collect count (readEntry pool kind)
  ensureExhausted Band.all
  return entries

end Walk

def Bands.entries {L : Type} [Resolver L] (bands : Bands) (kind : Kind) (count maxDepth : Nat) (pool : L) :
    Except BandError (List Entry) :=
  (Walk.readEntries pool kind count).result (Cursor.start bands (some maxDepth))

end AnnotationBands
