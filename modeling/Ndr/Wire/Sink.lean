import Ndr.Fault

/-!
The sending side of a transport: it supplies buffers, takes vectors of filled chunks, and takes
back the chunks of a message that failed. What it answers may depend on all that happened to it.
-/

namespace Ndr

/-- A piece of a message. -/
abbrev Chunk := Array UInt8

/-! ### What happened -/

/-- What happened at the sending side of a transport. -/
inductive Sink.Event where
  /-- An empty buffer was supplied. -/
  | supplied (capacity : Nat)
  /-- A buffer was supplied that already held bytes. -/
  | suppliedUsed (capacity : Nat)
  | refused (capacity : Nat)
  | transmitted (chunks : List Chunk)
  /-- The chunks were taken, and the transport failed on them. -/
  | lost (chunks : List Chunk)
  | released (chunks : List Chunk)

namespace Sink.Event

/-- The capacity of a buffer that was asked for. -/
def asked? : Event → Option Nat
  | supplied capacity | suppliedUsed capacity | refused capacity => some capacity
  | _ => none

def isSupply (e : Event) : Bool := e.asked?.isSome

/-- The chunks of a vector that went through. -/
def sent : Event → List Chunk
  | transmitted chunks => chunks
  | _ => []

def isTransmission : Event → Bool
  | transmitted _ => true
  | _ => false

/-- The chunks that were given back. -/
def givenBack : Event → List Chunk
  | released chunks => chunks
  | _ => []

end Sink.Event

theorem Sink.no_events (p : Sink.Event → Bool) : 0 = [].countP p := rfl

/-- The events at the sending side of a transport, newest first, and how many of them there are
of two kinds. -/
structure Sink.History where
  events : List Sink.Event := []
  supplies : Nat := 0
  transmissions : Nat := 0
  supplies_eq : supplies = events.countP Sink.Event.isSupply := by exact Sink.no_events _
  transmissions_eq : transmissions = events.countP Sink.Event.isTransmission := by
    exact Sink.no_events _

/-- The history after one more event. -/
def Sink.History.record (h : Sink.History) (e : Sink.Event) : Sink.History where
  events := e :: h.events
  supplies := h.supplies + if e.isSupply then 1 else 0
  transmissions := h.transmissions + if e.isTransmission then 1 else 0
  supplies_eq := by rw [List.countP_cons, h.supplies_eq]
  transmissions_eq := by rw [List.countP_cons, h.transmissions_eq]

/-! ### Transports -/

structure Sink where
  /-- What a buffer of some capacity holds when it is supplied. -/
  supply : Sink.History → Nat → Except Fault Chunk
  deliver : Sink.History → List Chunk → Except Fault Unit
  history : Sink.History := {}

namespace Sink

/-- A transport that never fails. -/
def reliable : Sink where
  supply _ _ := .ok #[]
  deliver _ _ := .ok ()

def record (s : Sink) (e : Event) : Sink := { s with history := s.history.record e }

/-- What happened, newest first. -/
def events (s : Sink) : List Event := s.history.events

/-! ### What a transport took -/

/-- The capacities asked for, in order. -/
def asked (s : Sink) : List Nat := s.events.reverse.filterMap Event.asked?

/-- The chunks that went through, in order. -/
def chunks (s : Sink) : List Chunk := s.events.reverse.flatMap Event.sent

def transmissions (s : Sink) : Nat := s.history.transmissions

def released (s : Sink) : List Chunk := s.events.reverse.flatMap Event.givenBack

/-- The message, as far as it went through. -/
def message (s : Sink) : List UInt8 := s.chunks.flatMap Array.toList

end Sink

end Ndr
