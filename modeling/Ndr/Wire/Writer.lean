import Ndr.Config
import Ndr.Wire.Sink

/-!
Writing a message into chunks. A chunk that starts at a position `p` has room for
`bufferSize - p % 8` bytes, so every chunk ends at a multiple of eight and no aligned word is
cut. Full chunks wait in a vector, which goes to the transport when it is long enough.
-/

namespace Ndr

/-- The chunk being filled: its bytes, newest first, and the room left in it. -/
structure OpenChunk where
  written : List UInt8
  room : Nat

def OpenChunk.close (c : OpenChunk) : Chunk := c.written.reverse.toArray

theorem IoVector.none_waiting : 0 = ([] : List Chunk).length := rfl

/-- The full chunks that wait for the transport, newest first, and their number. -/
structure IoVector where
  waiting : List Chunk := []
  size : Nat := 0
  size_eq : size = waiting.length := by exact IoVector.none_waiting

namespace IoVector

def push (v : IoVector) (c : Chunk) : IoVector where
  waiting := c :: v.waiting
  size := v.size + 1
  size_eq := by rw [List.length_cons, v.size_eq]

/-- The chunks in the order in which they were filled. -/
def chunks (v : IoVector) : List Chunk := v.waiting.reverse

@[simp] theorem chunks_push (v : IoVector) (c : Chunk) : (v.push c).chunks = v.chunks ++ [c] := by
  simp [chunks, push]

theorem length_chunks (v : IoVector) : v.chunks.length = v.size := by
  simp [chunks, v.size_eq]

end IoVector

structure Writer where
  sink : Sink
  bufferSize : Nat
  vectorSize : Nat
  current : Option OpenChunk := none
  vector : IoVector := {}
  /-- The bytes written so far. -/
  position : Nat := 0

/-- An action on a message being written. -/
abbrev Put := EStateM Fault Writer

namespace Writer

def new (sink : Sink) (config : Config) : Writer where
  sink
  bufferSize := config.bufferSize
  vectorSize := config.vectorSize

/-- The bytes written and not handed over yet. -/
def waiting (w : Writer) : List UInt8 :=
  w.vector.chunks.flatMap Array.toList ++ match w.current with
    | some c => c.written.reverse
    | none => []

/-! ### Chunks -/

/-- Add the chunk being filled to those that wait, unless it is empty. -/
def shelve (w : Writer) : Writer :=
  match w.current with
  | some c =>
    { w with
      current := none
      vector := if c.written.isEmpty then w.vector else w.vector.push c.close }
  | none => w

/-- Hand the waiting chunks to the transport, whatever it does with them. -/
def transmit : Put Unit := fun w =>
  let chunks := w.vector.chunks
  let handed := { w with vector := {} }
  match w.sink.deliver w.sink.history chunks with
  | .ok () => .ok () { handed with sink := w.sink.record (.transmitted chunks) }
  | .error e => .error e { handed with sink := w.sink.record (.lost chunks) }

/-- A buffer of the transport for the bytes from this position on. -/
def openChunk : Put Unit := fun w =>
  let capacity := w.bufferSize - w.position % 8
  match w.sink.supply w.sink.history capacity with
  | .error e => .error e { w with sink := w.sink.record (.refused capacity) }
  | .ok buffer =>
    if buffer.isEmpty then
      .ok () { w with
        sink := w.sink.record (.supplied capacity)
        current := some ⟨[], capacity⟩ }
    else
      .error (.bufferExhausted .nonEmptyBuffer)
        { w with sink := w.sink.record (.suppliedUsed capacity) }

/-- The next chunk. A vector that is long enough goes out first. -/
def nextChunk : Put Unit := do
  modify shelve
  let w ← get
  if w.vectorSize ≤ w.vector.size then transmit
  openChunk

/-- The room left in the chunk being filled. -/
def room (w : Writer) : Nat :=
  match w.current with
  | some c => c.room
  | none => 0

/-- Room for `n` bytes in one chunk. -/
def ensure (n : Nat) : Put Unit := do
  let w ← get
  if w.current.isNone ∨ w.room < n then
    nextChunk
    let w ← get
    if w.room < n then throw (.bufferExhausted (.tooSmall n w.room))

/-- Add bytes to the chunk being filled. -/
def append (w : Writer) (bytes : List UInt8) : Writer :=
  { w with
    current := w.current.map fun c => ⟨bytes.reverseAux c.written, c.room - bytes.length⟩
    position := w.position + bytes.length }

/-! ### Writing -/

/-- Write bytes that stay together. -/
def putTogether (bytes : List UInt8) : Put Unit := do
  ensure bytes.length
  modify (·.append bytes)

/-- Zeros up to a multiple of `alignment`. -/
def align (alignment : Nat) : Put Unit := do
  let pad := padding (← get).position alignment
  if pad ≠ 0 then putTogether (List.replicate pad 0)

/-- Write a run of bytes, cut where chunks end; every chunk takes at least one of at most
`fuel` bytes. -/
def putRunFrom : Nat → List UInt8 → Put Unit
  | _, [] => return
  | 0, _ :: _ => return
  | fuel + 1, bytes => do
    if (← get).room = 0 then nextChunk
    let room := (← get).room
    modify (·.append (bytes.take room))
    putRunFrom fuel (bytes.drop room)

/-- Write a run of bytes. -/
def putRun (bytes : List UInt8) : Put Unit := putRunFrom bytes.length bytes

/-! ### The end of a message -/

/-- Hand over what waits, and count the message. -/
def finish : Put Nat := do
  modify shelve
  if (← get).vector.size ≠ 0 then transmit
  return (← get).position

/-- Give back what waits, after a fault. -/
def abandon (w : Writer) : Writer :=
  let pending := w.vector.chunks ++ match w.current with
    | some c => [c.close]
    | none => []
  { w with
    current := none
    vector := {}
    sink := if pending.isEmpty then w.sink else w.sink.record (.released pending) }

end Writer

end Ndr
