import Ndr.Fault
import Ndr.Opcode

/-!
The type vector: the byte code that describes an interface, behind a header of twelve bytes
that gives its version and its byte order.
-/

namespace Ndr

/-- A type vector whose header was accepted. -/
structure TypeVector where
  bytes : Array UInt8
  /-- The order of the bytes of its own operands. -/
  order : ByteOrder
  minor : UInt16
  deriving DecidableEq, Inhabited

namespace TypeVector

/-! ### The header -/

def headerSize : Nat := 12

/-- The version that is executed: this major, and minor ones up to this. -/
def majorVersion : UInt16 := 8

def minorVersion : UInt16 := 10

/-- The word of `width` bytes at `offset`. -/
def wordAt? (bytes : Array UInt8) (order : ByteOrder) (offset width : Nat) : Option Nat :=
  if offset + width ≤ bytes.size then
    some (order.decode (bytes.extract offset (offset + width)).toList)
  else none

/-- The byte order that a header announces. -/
def orderOf (code : UInt8) : Except Fault ByteOrder :=
  if code = 0 then .ok .big
  else if code = 1 then .ok .little
  else .error (.invalidDescriptor 4 .integerOrder)

/-- The type vector in `bytes`. A vector that asks for the layout of a faulty older version is
refused. -/
def parse (bytes : Array UInt8) : Except Fault TypeVector :=
  if h : bytes.size < headerSize then .error (.truncatedVector 0 headerSize)
  else do
    have : 12 ≤ bytes.size := Nat.le_of_not_lt h
    let order ← orderOf bytes[4]
    let major := UInt16.ofNat (order.decode [bytes[0], bytes[1]])
    let minor := UInt16.ofNat (order.decode [bytes[2], bytes[3]])
    if major ≠ majorVersion ∨ minorVersion < minor then .error (.versionMismatch major minor)
    else
      let flags := UInt32.ofNat (order.decode [bytes[8], bytes[9], bytes[10], bytes[11]])
      if flags ≠ 0 then .error (.unsupportedFlags flags)
      else .ok { bytes, order, minor }

def size (tv : TypeVector) : Nat := tv.bytes.size

/-- A vector that is all header. -/
def isEmpty (tv : TypeVector) : Bool := tv.size ≤ headerSize

end TypeVector

end Ndr
