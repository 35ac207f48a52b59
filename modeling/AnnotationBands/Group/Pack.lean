import AnnotationBands.BandCodec
import AnnotationBands.Group
import AnnotationBands.Writer
/-!
Writing a group. The bands of its kind are encoded and written one by one in
wire order, so what comes ahead of a failure is in the sink. Writing to a sink
is one case of writing to anything that takes bytes in pieces of its own choice.
-/

namespace AnnotationBands.Group

/-- Encodes and writes bands one by one; the number of bytes written. -/
def packBands (codec : BandCodec) (bands : Bands) : List Band → EStateM BandError Sink Nat
  | [] => return 0
  | b :: bs => do
    let bytes ← BandError.orThrow (codec.encode b.codec (bands.get b))
    Sink.write bytes
    let more ← packBands codec bands bs
    return bytes.length + more

/-- Writes the group; the number of bytes written. A group without content
writes nothing, whatever it counts. -/
def pack (codec : BandCodec) (g : Group) : EStateM BandError Sink Nat :=
  if g.hasContent then packBands codec g.bands (Band.transmitted g.kind) else pure 0

/-- Encodes bands and writes them to the writer one by one; the number of bytes
written. -/
def packBandsTo {σ : Type} (w : Writer σ) (codec : BandCodec) (bands : Bands) : List Band → EStateM BandError σ Nat
  | [] => return 0
  | b :: bs => do
    let bytes ← BandError.orThrow (codec.encode b.codec (bands.get b))
    w.writeAll bytes
    let more ← packBandsTo w codec bands bs
    return bytes.length + more

/-- Writes the group to the writer; the number of bytes written. -/
def packTo {σ : Type} (w : Writer σ) (codec : BandCodec) (g : Group) : EStateM BandError σ Nat :=
  if g.hasContent then packBandsTo w codec g.bands (Band.transmitted g.kind) else pure 0

end AnnotationBands.Group
