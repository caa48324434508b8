import Ndr.Wire.Reader
import Ndr.Wire.Sink

/-!
Transports that follow a script: which call fails, and how a message is cut on the way.
-/

namespace Ndr

/-! ### Sending -/

/-- A script of a sending side, by the numbers of its calls counted from zero. -/
structure Sink.Script where
  /-- The buffer that is refused. -/
  failSupply : Option Nat := none
  /-- The buffer that already holds a byte. -/
  usedSupply : Option Nat := none
  /-- The vector that is lost. -/
  failDeliver : Option Nat := none

def Sink.Script.sink (s : Sink.Script) : Sink where
  supply history _ :=
    if s.failSupply = some history.supplies then
      .error (.bufferExhausted (.transport "no buffer"))
    else if s.usedSupply = some history.supplies then .ok #[0]
    else .ok #[]
  deliver history _ :=
    if s.failDeliver = some history.transmissions then
      .error (.bufferExhausted (.transport "no transmit"))
    else .ok ()

/-! ### Receiving -/

/-- Pieces of these sizes, and the rest of the message in one piece. -/
def piecesOfSizes : List Nat → List UInt8 → List (List UInt8)
  | [], [] => []
  | [], rest => [rest]
  | n :: ns, bytes => bytes.take n :: piecesOfSizes ns (bytes.drop n)

theorem flatten_piecesOfSizes (sizes : List Nat) (bytes : List UInt8) :
    (piecesOfSizes sizes bytes).flatten = bytes := by
  induction sizes generalizing bytes with
  | nil => cases bytes <;> simp [piecesOfSizes]
  | cons n ns ih => simp [piecesOfSizes, ih]

/-- A message in pieces of these sizes. -/
def Source.inSizes (sizes : List Nat) (bytes : List UInt8) : Source where
  pending := (piecesOfSizes sizes bytes).map .chunk

/-- A transport that fails on the call with some number, counted from zero. -/
def Source.failingAt (s : Source) (call : Nat) : Source :=
  if call ≤ s.pending.length then
    { s with
      pending :=
        s.pending.take call ++ [.fault (.bufferExhausted (.transport "no receive"))] }
  else s

end Ndr
