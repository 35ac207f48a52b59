import AnnotationBands.Error
/-!
Where bytes go: a sink takes bytes up to its room and then fails. A write that
does not fit leaves in the sink what did.
-/

namespace AnnotationBands

structure Sink where
  /-- How many more bytes it takes; `none` for any number. -/
  room : Option Nat
  /-- What it says once it is full. -/
  fault : IoFault
  received : List UInt8

namespace Sink

def fresh (room : Option Nat) (fault : IoFault) : Sink := ⟨room, fault, []⟩

/-- Writes all bytes, or as many as there is room for and fails. Writing
nothing never fails. -/
def write (bytes : List UInt8) : EStateM BandError Sink Unit := fun sink =>
  match sink.room with
  | none => .ok () { sink with received := sink.received ++ bytes }
  | some room =>
    if bytes.length ≤ room then
      .ok () { sink with room := some (room - bytes.length), received := sink.received ++ bytes }
    else .error (.io sink.fault) { sink with room := some 0, received := sink.received ++ bytes.take room }

end Sink

end AnnotationBands
