import Ndr.TypeVector.Check
import Ndr.Unmarshal.Basic

/-!
Reading pipes: every piece of the message goes to the application in pieces for which it grants
room, and an empty one at the end.
-/

namespace Ndr.Unmarshal

variable (env : Env)

/-- Hand `n` elements of a message to the application, at most `fuel` pieces of them. -/
def getPiece (walk : Walk) (h : PipeHandle) (element : Descriptor) (site : Site ScopeId) :
    Nat → Nat → Unmarshalling Unit
  | _, 0 => return
  | 0, _ + 1 => return
  | fuel + 1, n => do
    let size := min (max (← onPipe h (Pipe.ask n)) 1) n
    let piece ← repeatM size (walk element site)
    onPipe h (Pipe.push piece)
    onPipe h (modify (·.advance size))
    getPiece walk h element site fuel (n - size)

/-- Read at most `fuel` pieces of a message, the empty one included. -/
def getPieces (walk : Walk) (h : PipeHandle) (element : Descriptor) (site : Site ScopeId) :
    Nat → Unmarshalling Unit
  | 0 => return
  | fuel + 1 => do
    let n ← getCount env
    if n = 0 then
      onPipe h (Pipe.push [])
      onPipe h (modify Pipe.finish)
    else
      checkCount env n
      getPiece walk h element site n n
      getPieces walk h element site fuel

/-- Read a pipe into the pipe that the parameter holds. Every piece takes bytes of the message. -/
def getPipe (walk : Walk) (element : Nat) (current : Value) (site : Site ScopeId) :
    Unmarshalling Value := do
  let h ← current.pipe?
  let d ← env.vector.stream element
  d.checkPiped
  onPipe h (Pipe.enter .receive)
  let fuel := (← get).reader.rest.length + 1
  getPieces env walk h d site.inside fuel
  return .pipe h

end Ndr.Unmarshal
