import AnnotationBands.Group.Add
import AnnotationBands.Group.Undo
/-!
The operations that change a group, as data: what a history of a group consists
of.
-/

namespace AnnotationBands

/-- An operation that changes a group. -/
inductive Group.Change where
  | openEntry
  | extendEntry
  | addOne (a : Annotation)
  | addMember (annotations : List Annotation)
  | addParameters (parameters : List (List Annotation))
  | addDefault (value : ElementValue)
  | removeLatest

namespace Group

variable {P : Type} [Interner P]

def change (g : Group) : Change → Flatten P Group
  | .openEntry => g.openEntry
  | .extendEntry => g.extendEntry
  | .addOne a => g.addOne a
  | .addMember as => g.addMember as
  | .addParameters ps => g.addParameters ps
  | .addDefault v => g.addDefault v
  | .removeLatest => BandError.orThrow g.removeLatest

/-- Makes a change, or leaves the group as it is when it fails. -/
def step (g : Group) (c : Change) (pool : P) : Except BandError Unit × Group × P :=
  match g.change c pool with
  | .ok g' pool' => (.ok (), g', pool')
  | .error e pool' => (.error e, g, pool')

end Group

end AnnotationBands
