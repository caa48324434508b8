import Ndr.Machine

/-!
Sessions: machines that work side by side. Machines may share a heap or a registry; all share
the pipes and the record of the calls of routines.
-/

namespace Ndr

/-- A machine, with the numbers of the heap and of the registry that it uses. -/
structure Member where
  machine : Machine
  heap : Nat := 0
  contexts : Option Nat := none

structure Session where
  heaps : Array Heap
  registries : Array Registry := #[]
  pipes : Array Pipe := #[]
  /-- The calls of routines, newest first. -/
  calls : List Routine.Call := []
  /-- The machines by number, `none` for one that was refused. -/
  members : Array (Option Member)

namespace Session

variable (s : Session)

/-! ### Parts -/

def heap (n : Nat) : Heap := s.heaps[n]?.getD {}

def registry (n : Nat) : Registry := s.registries[n]?.getD {}

def member? (n : Nat) : Option Member := s.members[n]?.join

def setHeap (n : Nat) (h : Heap) : Session := { s with heaps := s.heaps.setIfInBounds n h }

def setRegistry (n : Nat) (r : Registry) : Session :=
  { s with registries := s.registries.setIfInBounds n r }

def setMember (n : Nat) (m : Member) : Session :=
  { s with members := s.members.setIfInBounds n (some m) }

/-! ### Operations -/

/-- What a machine finds around it. -/
def surroundings (m : Member) : Surroundings where
  heap := s.heap m.heap
  contexts := m.contexts.bind fun n => s.registries[n]?
  pipes := s.pipes
  calls := s.calls

/-- The session with what a machine left behind. -/
def keep (n : Nat) (m : Member) (machine : Machine) (w : Surroundings) : Session :=
  let s := { s.setHeap m.heap w.heap with pipes := w.pipes, calls := w.calls }
  let s := match m.contexts, w.contexts with
    | some k, some r => s.setRegistry k r
    | _, _ => s
  s.setMember n { m with machine }

/-- Run an operation of a machine. -/
def operate {τ α : Type} (n : Nat) (m : Member)
    (run : Machine → Surroundings → Outcome τ α) : Outcome τ α × Session :=
  let o := run m.machine (s.surroundings m)
  (o, s.keep n m o.machine o.surroundings)

/-- Note a cell of a machine as deleted. -/
def noteDeleted (n : Nat) (m : Member) (c : CellId) : Bool × Session :=
  let (noted, machine) := m.machine.noteDeleted c
  (noted, s.setMember n { m with machine })

end Session

end Ndr
