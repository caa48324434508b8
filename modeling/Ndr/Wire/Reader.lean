import Ndr.Fault

/-!
Reading a message from the chunks of a transport. Alignment follows the position in the whole
message, and a word that lies across chunks is put together.
-/

namespace Ndr

/-- What a transport has to give: a piece of the message, or a fault. -/
inductive Delivery where
  | chunk (bytes : List UInt8)
  | fault (fault : Fault)

/-- The receiving side of a transport: what it still has to give, and what happened to it.
Chunks that were given back are newest first. -/
structure Source where
  pending : List Delivery
  receives : Nat := 0
  released : List (List UInt8) := []

/-- The bytes that a transport still has to give, up to its first fault. -/
def Source.bytes (s : Source) : List UInt8 := go s.pending
where
  go : List Delivery → List UInt8
    | .chunk bytes :: rest => bytes ++ go rest
    | _ => []

/-- A message in one chunk. -/
def Source.ofBytes (bytes : List UInt8) : Source where
  pending := if bytes.isEmpty then [] else [.chunk bytes]

/-- The pieces of `size` bytes of a message; the last may be shorter. -/
def piecesOf (size : Nat) (bytes : List UInt8) : List (List UInt8) :=
  go bytes.length bytes
where
  go : Nat → List UInt8 → List (List UInt8)
    | 0, _ | _, [] => []
    | fuel + 1, bytes => bytes.take (max size 1) :: go fuel (bytes.drop (max size 1))

/-- A message in chunks of `size` bytes. -/
def Source.inPieces (size : Nat) (bytes : List UInt8) : Source where
  pending := (piecesOf size bytes).map .chunk

structure Reader where
  source : Source
  /-- What is left of the chunk being read. -/
  current : List UInt8 := []
  /-- The bytes read so far. -/
  position : Nat := 0

/-- An action on a message being read. -/
abbrev Fetch := EStateM Fault Reader

/-- Whether a list has at least `n` elements; no more of it is looked at. -/
def hasAtLeast {α : Type} : Nat → List α → Bool
  | 0, _ => true
  | _ + 1, [] => false
  | n + 1, _ :: rest => hasAtLeast n rest

theorem hasAtLeast_iff {α : Type} {n : Nat} {l : List α} :
    hasAtLeast n l = true ↔ n ≤ l.length := by
  induction n generalizing l with
  | zero => simp [hasAtLeast]
  | succ n ih => cases l <;> simp [hasAtLeast, ih]

namespace Reader

/-- All that is left of the message, up to the first fault of the transport. -/
def rest (r : Reader) : List UInt8 := r.current ++ r.source.bytes

/-! ### Chunks -/

/-- Take in a chunk. An exhausted chunk is given back for it; one that still holds bytes is
joined to it, and it is given back. -/
def take (r : Reader) (bytes : List UInt8) (pending : List Delivery) : Reader :=
  { r with
    current := r.current ++ bytes
    source :=
      { pending
        receives := r.source.receives + 1
        released := (if r.current.isEmpty then [] else bytes) :: r.source.released } }

/-- Receive these deliveries until `n` bytes stand together. -/
def ensureFrom (n : Nat) : List Delivery → Fetch Unit
  | [] => fun r =>
    if hasAtLeast n r.current then .ok () r
    else
      .error (.bufferUnderflow n r.current.length)
        { r with source := { r.source with pending := [], receives := r.source.receives + 1 } }
  | .fault e :: rest => fun r =>
    if hasAtLeast n r.current then .ok () r
    else
      .error e
        { r with source := { r.source with pending := rest, receives := r.source.receives + 1 } }
  | .chunk bytes :: rest => fun r =>
    if hasAtLeast n r.current then .ok () r else ensureFrom n rest (r.take bytes rest)

/-- Have `n` bytes together. -/
def ensure (n : Nat) : Fetch Unit := do ensureFrom n (← get).source.pending

/-- Pass `n` bytes of the chunk being read. -/
def pass (r : Reader) (n : Nat) : Reader :=
  { r with current := r.current.drop n, position := r.position + n }

/-! ### Reading -/

/-- Read `n` bytes that stay together. -/
def getTogether (n : Nat) : Fetch (List UInt8) := do
  ensure n
  modifyGet fun r => (r.current.take n, r.pass n)

/-- Pass the padding up to a multiple of `alignment`. -/
def align (alignment : Nat) : Fetch Unit := do
  let pad := padding (← get).position alignment
  if pad ≠ 0 then let _ ← getTogether pad

/-- Read `n` bytes, a chunk at a time; every step reads at least one byte, of at most `fuel`.
What was read earlier comes reversed, chunk by chunk. -/
def getRunFrom : Nat → Nat → List (List UInt8) → Fetch (List UInt8)
  | _, 0, before => return before.reverse.flatten
  | 0, _ + 1, before => return before.reverse.flatten
  | fuel + 1, n, before => do
    if (← get).current.isEmpty then ensure 1
    let bytes ← modifyGet fun r =>
      let bytes := r.current.take n
      (bytes, { r with current := r.current.drop n, position := r.position + bytes.length })
    getRunFrom fuel (n - bytes.length) (bytes :: before)

/-- Read a run of `n` bytes. -/
def getRun (n : Nat) : Fetch (List UInt8) := getRunFrom n n []

/-! ### The end of a message -/

/-- Give back what is left of the chunk being read. -/
def finish (r : Reader) : Source :=
  { r.source with released := r.current :: r.source.released }

end Reader

end Ndr
