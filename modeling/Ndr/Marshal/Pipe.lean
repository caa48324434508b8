import Ndr.Marshal.Basic
import Ndr.TypeVector.Check

/-!
Writing pipes: pieces of elements, each behind their number, and a zero at the end.
-/

namespace Ndr.Marshal

variable (env : Env)

/-- Write at most `fuel` pieces of a pipe, the empty one included. -/
def putPieces (walk : Walk) (h : PipeHandle) (element : Descriptor) (site : Site Scope) :
    Nat → Marshalling Unit
  | 0 => return
  | fuel + 1 => do
    let least := env.config.minPipeChunk
    let capacity := max (← onPipe h (Pipe.ask least)) least
    let piece ← onPipe h (Pipe.pull capacity)
    if 2 ^ 32 ≤ piece.length then throw .integerOverflow
    putCount env piece.length
    piece.forM fun v => walk element v site
    onPipe h (modify (·.advance piece.length))
    if piece.isEmpty then onPipe h (modify Pipe.finish)
    else putPieces walk h element site fuel

/-- Write a pipe, which has to be a parameter of its own. Every piece but the last takes from the
elements that are still to send. -/
def putPipe (walk : Walk) (element : Nat) (v : Value) (site : Site Scope) : Marshalling Unit := do
  if site.embedded then throw (.pipeMisuse .outsideParameters)
  let h ← v.pipe?
  let d ← env.vector.stream element
  d.checkPiped
  onPipe h (Pipe.enter .send)
  let pending ← onPipe h do return (← get).pending.length
  putPieces env walk h d site.inside (pending + 1)

end Ndr.Marshal
