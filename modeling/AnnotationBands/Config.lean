/-!
What can be set for a group or a reader.
-/

namespace AnnotationBands

/-- The settings of a group or a reader. -/
structure Config where
  /-- The deepest value accepted; a value that is not nested in another has
  depth 1. -/
  maxNestingDepth : Nat := 64
  /-- Walk over what is about to be removed and check that it ends where the
  bands do. -/
  verifyUndo : Bool := true
  /-- Report each band that is written to a log. Nothing that this library
  computes depends on it. -/
  logBands : Bool := true
  deriving DecidableEq

def Config.default : Config := {}

end AnnotationBands
