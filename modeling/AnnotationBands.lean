import AnnotationBands.Codec.Lemmas
import AnnotationBands.DecodedBands
import AnnotationBands.Group.Change
import AnnotationBands.Group.Pack
import AnnotationBands.Json.Decode
import AnnotationBands.Json.Write
import AnnotationBands.Proofs.Flat
import AnnotationBands.Proofs.Flatten
import AnnotationBands.Proofs.Traversal
import AnnotationBands.Proofs.Counting
import AnnotationBands.Proofs.PoolReferences
import AnnotationBands.Proofs.Layout
import AnnotationBands.Proofs.Entries
import AnnotationBands.Proofs.Ledger
import AnnotationBands.Proofs.Simulation
import AnnotationBands.Proofs.Session
import AnnotationBands.Proofs.CrossBand
import AnnotationBands.Proofs.Undo
import AnnotationBands.Proofs.WireFormat
import AnnotationBands.Proofs.ByteRoundTrip
import AnnotationBands.Proofs.Demand
import AnnotationBands.Proofs.Narrowing
import AnnotationBands.Proofs.Passage
import AnnotationBands.Proofs.Exhausted
import AnnotationBands.Proofs.Reading
import AnnotationBands.Proofs.CountRules
import AnnotationBands.Proofs.Canonical
import AnnotationBands.Proofs.Reencode
import AnnotationBands.Proofs.LeftOver
import AnnotationBands.Proofs.Histories
import AnnotationBands.Proofs.PoolIndependence
import AnnotationBands.Proofs.Answers
import AnnotationBands.Proofs.UndoCheck
import AnnotationBands.HashedPool
import AnnotationBands.Proofs.HashedTables
import AnnotationBands.Group.InPlace
import AnnotationBands.Proofs.Atomicity
import AnnotationBands.Proofs.EntrySchedules
import AnnotationBands.Proofs.Accounting
import AnnotationBands.Proofs.SameWalk
import AnnotationBands.Proofs.DepthLimit
import AnnotationBands.Codec.Bytewise
import AnnotationBands.Proofs.Bytewise
import AnnotationBands.Proofs.UniqueCodes
import AnnotationBands.Proofs.Packing
import AnnotationBands.Proofs.OversizedCounts
import AnnotationBands.Proofs.ReadInPlace
import AnnotationBands.Proofs.Forward
import AnnotationBands.Proofs.Conservation
