import Ndr.Fault

/-!
The limits of a machine.
-/

namespace Ndr

structure Config where
  /-- The size of a chunk of output. -/
  bufferSize : Nat := 2048
  /-- The chunks handed to the transport at a time. -/
  vectorSize : Nat := 10
  /-- The least room, in elements, for a chunk of a pipe. -/
  minPipeChunk : Nat := 8
  /-- The most elements of one received array. -/
  maxElements : Nat := 16 * 1024 * 1024
  /-- The most conversions open one within another. -/
  maxConversions : Nat := 16
  /-- The most descriptors open one within another. -/
  maxNesting : Nat := 64
  /-- The most elements of a received array that are not read but filled in. -/
  maxFilled : Nat := 64 * 1024
  deriving DecidableEq, Inhabited

namespace Config

/-- Chunks end at multiples of eight, and vectors and pipe chunks are not empty. -/
def check (c : Config) : Except Fault Unit :=
  if c.bufferSize < 8 ∨ c.bufferSize % 8 ≠ 0 then .error (.invalidConfig .bufferSize)
  else if c.vectorSize = 0 then .error (.invalidConfig .vectorSize)
  else if c.maxNesting = 0 then .error (.invalidConfig .nestingDepth)
  else if c.minPipeChunk = 0 then .error (.invalidConfig .pipeChunk)
  else .ok ()

theorem check_eq_ok_iff (c : Config) :
    c.check = .ok () ↔
      8 ≤ c.bufferSize ∧ c.bufferSize % 8 = 0 ∧ 0 < c.vectorSize ∧ 0 < c.maxNesting ∧
        0 < c.minPipeChunk := by
  unfold check
  repeat' split
  all_goals simp
  all_goals omega

end Config

end Ndr
