import Ndr.Pipe.Basic

/-!
Applications of pipes that follow a script: how much room they grant, how many elements they
hand over at a time, and which call fails.
-/

namespace Ndr

namespace Pipe

/-- A script: the room granted, the elements handed over at a time (as requested, where none is
given), and the numbers of the calls that fail, counted from zero. -/
structure Script where
  room : Option Nat := none
  take : Option Nat := none
  failPull : Option Nat := none
  failPush : Option Nat := none

def Script.application (s : Script) : Application where
  grant _ requested := s.room.getD requested
  cut history max :=
    if s.failPull = some history.pulls then
      .error (.pipeMisuse (.application "pull failed"))
    else .ok (s.take.getD max)
  accept history _ :=
    if s.failPush = some history.pushes then
      .error (.pipeMisuse (.application "push failed"))
    else .ok ()

end Pipe

end Ndr
