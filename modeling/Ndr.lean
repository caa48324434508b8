import Ndr.Heap.Isomorphism
import Ndr.Pipe.Script
import Ndr.Proofs.Aggregate
import Ndr.Proofs.Assembly.Aggregate
import Ndr.Proofs.Assembly.Agreement
import Ndr.Proofs.Assembly.Containment
import Ndr.Proofs.Assembly.Delivery
import Ndr.Proofs.Assembly.Founded
import Ndr.Proofs.Assembly.Graph
import Ndr.Proofs.Assembly.Replay
import Ndr.Proofs.Assembly.Text
import Ndr.Proofs.Assembly.Upkeep
import Ndr.Proofs.Assembly.Wrapping
import Ndr.Proofs.Association
import Ndr.Proofs.BackReference
import Ndr.Proofs.BlockCopy
import Ndr.Proofs.Bounded.Unmarshal
import Ndr.Proofs.Box
import Ndr.Proofs.Chunking
import Ndr.Proofs.Conformance.Hoisting
import Ndr.Proofs.Conversions.Release
import Ndr.Proofs.Correlation
import Ndr.Proofs.Deferral.Order
import Ndr.Proofs.DeletedNodes
import Ndr.Proofs.Delivery
import Ndr.Proofs.Discriminant
import Ndr.Proofs.Effect
import Ndr.Proofs.Exchange
import Ndr.Proofs.GraphEquality
import Ndr.Proofs.Handles
import Ndr.Proofs.HostRelease
import Ndr.Proofs.HostSlots
import Ndr.Proofs.Isomorphism
import Ndr.Proofs.Limits.Operation
import Ndr.Proofs.Lockstep.Basic
import Ndr.Proofs.Lockstep.Element
import Ndr.Proofs.Lockstep.Operation
import Ndr.Proofs.Lockstep.Pointer
import Ndr.Proofs.Lockstep.Steps
import Ndr.Proofs.Lockstep.Struct
import Ndr.Proofs.Lockstep.Walk
import Ndr.Proofs.LowerBound
import Ndr.Proofs.Marshal.Faults
import Ndr.Proofs.Marshal.Packing
import Ndr.Proofs.NodeTables
import Ndr.Proofs.Packing
import Ndr.Proofs.PipePlacement
import Ndr.Proofs.Pipes.LifeCycle
import Ndr.Proofs.PointerGraph
import Ndr.Proofs.Prefix
import Ndr.Proofs.Range
import Ndr.Proofs.Record
import Ndr.Proofs.Recutting
import Ndr.Proofs.Renaming
import Ndr.Proofs.Reversal
import Ndr.Proofs.Rollback
import Ndr.Proofs.Stream
import Ndr.Proofs.Text
import Ndr.Proofs.TextRoundTrip
import Ndr.Proofs.Transmission
import Ndr.Proofs.TypeVector.Alignment
import Ndr.Proofs.TypeVector.Reading
import Ndr.Proofs.TypeVector.Unchecked
import Ndr.Proofs.TypeVector.Width
import Ndr.Proofs.Unmarshal.Moves
import Ndr.Proofs.Unmarshal.Progress
import Ndr.Proofs.Unmarshal.Zero
import Ndr.Proofs.Wire
import Ndr.Routine.Standard
import Ndr.Session
import Ndr.Value.Text
import Ndr.Wire.Script
