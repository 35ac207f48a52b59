import AnnotationBands.Config
import AnnotationBands.Entry
import AnnotationBands.Segment
/-!
A group: the bands of one kind of annotations in one context, built up by
adding trees. Each tree added leaves a mark, the lengths of the bands ahead of
it, which removal cuts back to. An operation gives a new group or an error, so
a failed one leaves the group as it was; only the pool keeps the literals that
were interned up to the failure.
-/

namespace AnnotationBands

/-- The annotations of one kind in one context, as bands. -/
structure Group where
  kind : Kind
  context : Context
  config : Config
  bands : Bands
  /-- Array elements and pairs of nested annotations. -/
  calls : Nat
  /-- The lengths of the bands ahead of each annotation or default value, in
  the order of their addition. -/
  marks : List Mark

namespace Group

def empty (kind : Kind) (context : Context) (config : Config) : Group := ⟨kind, context, config, Bands.empty, 0, []⟩

def label (g : Group) : String := g.context.label ++ "_" ++ g.kind.code

def qualifiedName (g : Group) (b : Band) : String := g.label ++ " " ++ b.name

/-- Whether the group holds an annotation or default value. Counts of entries
alone are no content. -/
def hasContent (g : Group) : Bool := !g.marks.isEmpty

/-- The number of entries, as the surrounding structure counts them. -/
def entryCount (g : Group) : Nat :=
  if g.kind.isParameter then g.bands.paramCounts.length
  else if g.kind.hasDescriptors then g.bands.annoCounts.length
  else g.marks.length

def decode {L : Type} [Resolver L] (g : Group) (pool : L) : Except BandError (List Entry) :=
  g.bands.entries g.kind g.entryCount g.config.maxNestingDepth pool

/-- The group with a tree added, its mark included. -/
def attach (g : Group) (s : Segment) : Group :=
  { g with bands := g.bands ++ s.bands, calls := g.calls + s.calls, marks := g.marks ++ [g.bands.mark] }

def push (g : Group) (b : Band) (value : Int) : Group := { g with bands := g.bands.push b value }

end Group

end AnnotationBands
