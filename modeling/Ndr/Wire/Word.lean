import Ndr.Value.Basic
import Ndr.Wire.Reader
import Ndr.Wire.Writer

/-!
Scalars on the wire: each as a word of its size, aligned to its size, in the byte order of the
message.
-/

namespace Ndr

/-! ### Values as words -/

/-- The word that holds a value of a scalar type, if it is one. -/
def Scalar.word? (kind : Scalar) (v : Value) : Option Nat :=
  match kind, v with
  | boolean, .boolean b => some (if b then 1 else 0)
  | byte, .byte b | usmall, .usmall b | char, .char b => some b.toNat
  | small, .small v => some v.toUInt8.toNat
  | short, .short v => some v.toUInt16.toNat
  | ushort, .ushort v => some v.toNat
  | enum, .enum v => some (v.toUInt32.toNat % 2 ^ 16)
  | long, .long v | v1Enum, .enum v => some v.toUInt32.toNat
  | ulong, .ulong v | errorStatus, .errorStatus v | float, .float v => some v.toNat
  | hyper, .hyper v => some v.toUInt64.toNat
  | uhyper, .uhyper v | double, .double v => some v.toNat
  | _, _ => none

/-- The value of a scalar type that a word holds. -/
def Scalar.ofWord (kind : Scalar) (n : Nat) : Value :=
  match kind with
  | boolean => .boolean (n != 0)
  | byte => .byte (UInt8.ofNat n)
  | char => .char (UInt8.ofNat n)
  | small => .small (UInt8.ofNat n).toInt8
  | usmall => .usmall (UInt8.ofNat n)
  | short => .short (UInt16.ofNat n).toInt16
  | ushort => .ushort (UInt16.ofNat n)
  | enum => .enum (UInt32.ofNat n).toInt32
  | long => .long (UInt32.ofNat n).toInt32
  | ulong => .ulong (UInt32.ofNat n)
  | v1Enum => .enum (UInt32.ofNat n).toInt32
  | errorStatus => .errorStatus (UInt32.ofNat n)
  | float => .float (UInt32.ofNat n)
  | hyper => .hyper (UInt64.ofNat n).toInt64
  | uhyper => .uhyper (UInt64.ofNat n)
  | double => .double (UInt64.ofNat n)

/-- Whether a scalar of this type can travel in a representation. -/
def Scalar.checkRepresentation (kind : Scalar) (r : Representation) : Except Fault Unit :=
  match kind with
  | char => r.checkCharacters
  | float | double => r.checkFloats
  | _ => .ok ()

/-- An enumeration in 16 bits has no negative values. -/
def Scalar.checkEnum (kind : Scalar) (v : Int) : Except Fault Unit :=
  if kind = enum ∧ (v < 0 ∨ enumMax < v) then .error (.outOfRange v 0 enumMax) else .ok ()

/-! ### Writing -/

namespace Writer

/-- A word of `width` bytes, where the message stands. -/
def putWord (order : ByteOrder) (width v : Nat) : Put Unit := putTogether (order.encode width v)

/-- An aligned word of `width` bytes. -/
def putAligned (order : ByteOrder) (width v : Nat) : Put Unit := do
  align width
  putWord order width v

/-- A count or a node id. -/
def putCount (order : ByteOrder) (v : Nat) : Put Unit := putAligned order 4 v

def putScalar (r : Representation) (kind : Scalar) (v : Value) : Put Unit := do
  align kind.size
  match kind.word? v with
  | none => throw (.typeMismatch (.scalar kind) v.kind)
  | some w =>
    kind.checkRepresentation r
    kind.checkEnum (v.toInt?.getD 0)
    putWord r.integers kind.size w

end Writer

/-! ### Reading -/

namespace Reader

def getWord (order : ByteOrder) (width : Nat) : Fetch Nat :=
  return order.decode (← getTogether width)

def getAligned (order : ByteOrder) (width : Nat) : Fetch Nat := do
  align width
  getWord order width

/-- A count or a node id. -/
def getCount (order : ByteOrder) : Fetch Nat := getAligned order 4

def getScalar (r : Representation) (kind : Scalar) : Fetch Value := do
  align kind.size
  kind.checkRepresentation r
  let w ← getWord r.integers kind.size
  kind.checkEnum w
  return kind.ofWord w

end Reader

end Ndr
