import AnnotationBands.Sink
/-!
Writing piece by piece. A writer takes as many as it likes of the bytes it is
offered and answers how many, or it fails; the rest is offered again until there
is none. `Writer.pieces` hands them on to a sink.
-/

namespace AnnotationBands

/-- A way to take some of the bytes that are offered. A write that is
interrupted is made again, and all attempts up to the one that is not
interrupted count as one write. -/
structure Writer (σ : Type) where
  write : List UInt8 → σ → Except IoFault Nat × σ

namespace Writer

/-- Offers the bytes that are left until there are none, and never no bytes. To
take none of them is a failure. -/
def writeAll {σ : Type} (w : Writer σ) (bytes : List UInt8) : EStateM BandError σ Unit := fun s =>
  if bytes = [] then .ok () s
  else
    match w.write bytes s with
    | (.error fault, s) => .error (.io fault) s
    | (.ok n, s) =>
      if n = 0 then .error (.io (.other "failed to write whole buffer")) s else w.writeAll (bytes.drop n) s
termination_by bytes.length
decreasing_by
  rename_i hbytes hn
  have hpos := List.length_pos_iff.2 hbytes
  rw [List.length_drop]
  omega

/-- Gives a sink at most `size bytes + 1` of the bytes at a time, and no more
than it has room for. -/
def pieces (size : List UInt8 → Nat) : Writer Sink where
  write bytes sink :=
    let piece := bytes.take (sink.room.elim (size bytes + 1) (min (size bytes + 1)))
    if sink.room = some 0 ∧ bytes ≠ [] then (.error sink.fault, sink)
    else (.ok piece.length,
      { sink with room := sink.room.map (· - piece.length), received := sink.received ++ piece })

end Writer

end AnnotationBands
