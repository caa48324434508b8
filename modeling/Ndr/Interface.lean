import Ndr.Assembler.Finish
import Ndr.Routine.Basic

/-!
An interface: its type vector, the layouts of its structs and its conversion routines.
-/

namespace Ndr

structure Interface where
  vector : TypeVector
  layout : Layout := {}
  /-- The routines by index. -/
  routines : List Routine := []

namespace Interface

/-- The interface that was assembled. -/
def ofAssembler (a : Assembler) : Except Fault Interface := do
  let (bytes, layout) ← a.finish
  return { vector := ← TypeVector.parse bytes, layout }

def routine (i : Interface) (index : Nat) : Except Fault Routine :=
  match i.routines[index]? with
  | some r => .ok r
  | none => .error (.missingRoutine index)

/-- The sizes of an interface in words. -/
def describe (i : Interface) : String :=
  "Interface \x7b type_vec_len: " ++ toString i.vector.size ++ ", offsets: "
    ++ toString i.layout.entries.size ++ ", routines: " ++ toString i.routines.length ++ " \x7d"

end Interface

end Ndr
