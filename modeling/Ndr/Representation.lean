import Ndr.ByteOrder

/-!
The representation of the data of a call: how its sender lays down integers, characters and
floating point numbers, and the four bytes that announce it.
-/

namespace Ndr

/-- The encoding of characters. -/
inductive CharacterSet where
  | ascii
  | ebcdic
  deriving DecidableEq, Inhabited

/-- The encoding of floating point numbers. -/
inductive FloatFormat where
  | ieee
  | vax
  | cray
  | ibm
  deriving DecidableEq, Inhabited

/-- The representation that a message announces. -/
structure Representation where
  integers : ByteOrder := .little
  characters : CharacterSet := .ascii
  floats : FloatFormat := .ieee
  deriving DecidableEq, Inhabited

def CharacterSet.name : CharacterSet → String
  | ascii => "Ascii"
  | ebcdic => "Ebcdic"

def FloatFormat.name : FloatFormat → String
  | ieee => "Ieee"
  | vax => "Vax"
  | cray => "Cray"
  | ibm => "Ibm"

namespace Representation

/-! ### The announced form -/

/-- The code of the byte order, which travels in the high half of the first byte. -/
def integerCode : ByteOrder → UInt8
  | .big => 0
  | .little => 1

/-- The code of the character set, which travels in the low half of the first byte. -/
def characterCode : CharacterSet → UInt8
  | .ascii => 0
  | .ebcdic => 1

def floatCode : FloatFormat → UInt8
  | .ieee => 0
  | .vax => 1
  | .cray => 2
  | .ibm => 3

/-- The four bytes that announce a representation; the last two are reserved. -/
def toBytes (r : Representation) : List UInt8 :=
  [characterCode r.characters ||| integerCode r.integers <<< 4, floatCode r.floats, 0, 0]

/-- The representation that four bytes announce. Any non-zero half stands for the second
choice, and any float code from three on for the last. -/
def ofBytes (first second : UInt8) : Representation where
  integers := if first &&& 0xF0 = 0 then .big else .little
  characters := if first &&& 0x0F = 0 then .ascii else .ebcdic
  floats :=
    if second = 0 then .ieee else if second = 1 then .vax else if second = 2 then .cray else .ibm

theorem ofBytes_toBytes (r : Representation) :
    ofBytes (characterCode r.characters ||| integerCode r.integers <<< 4)
      (floatCode r.floats) = r := by
  obtain ⟨i, c, f⟩ := r
  cases i <;> cases c <;> cases f <;> rfl

end Representation

end Ndr
