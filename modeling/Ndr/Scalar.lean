import Ndr.ByteOrder

/-!
The scalar types: their sizes on the wire, which of them are signed or integral, and how a
32-bit operand of a type vector reads at the width of a scalar.
-/

namespace Ndr

/-- A scalar type. -/
inductive Scalar where
  | boolean
  | byte
  | char
  | small
  | usmall
  | short
  | ushort
  /-- An enumeration in 16 bits, whose values are not negative. -/
  | enum
  | long
  | ulong
  /-- An enumeration in 32 bits. -/
  | v1Enum
  | errorStatus
  | float
  | hyper
  | uhyper
  | double
  deriving DecidableEq, Inhabited

namespace Scalar

/-- Every scalar type. -/
def all : List Scalar :=
  [boolean, byte, char, small, usmall, short, ushort, enum, long, ulong, v1Enum, errorStatus,
    float, hyper, uhyper, double]

theorem mem_all (kind : Scalar) : kind ∈ all := by cases kind <;> decide

def name : Scalar → String
  | boolean => "boolean"
  | byte => "byte"
  | char => "char"
  | small => "small"
  | usmall => "unsigned small"
  | short => "short"
  | ushort => "unsigned short"
  | enum => "enum"
  | long => "long"
  | ulong => "unsigned long"
  | v1Enum => "v1_enum"
  | errorStatus => "error_status_t"
  | float => "float"
  | hyper => "hyper"
  | uhyper => "unsigned hyper"
  | double => "double"

/-- The bytes of a scalar on the wire. A scalar is aligned to its size. -/
def size : Scalar → Nat
  | boolean | byte | char | small | usmall => 1
  | short | ushort | enum => 2
  | long | ulong | v1Enum | errorStatus | float => 4
  | hyper | uhyper | double => 8

theorem size_pos (kind : Scalar) : 0 < kind.size := by cases kind <;> decide

theorem size_dvd_eight (kind : Scalar) : kind.size ∣ 8 := by cases kind <;> decide

def isSigned : Scalar → Bool
  | small | short | long | hyper | enum | v1Enum => true
  | _ => false

/-- The scalars that can govern an array or a union. -/
def isIntegral : Scalar → Bool
  | float | double => false
  | _ => true

/-- A 32-bit operand at the width and the sign of a scalar. -/
def normalize (kind : Scalar) (raw : UInt32) : Int :=
  match kind with
  | small => raw.toUInt8.toInt8.toInt
  | short | enum => raw.toUInt16.toInt16.toInt
  | long | v1Enum => raw.toInt32.toInt
  | boolean | byte | char | usmall => raw.toUInt8.toNat
  | ushort => raw.toUInt16.toNat
  | ulong | errorStatus | float | hyper | uhyper | double => raw.toNat

/-- The largest value of an enumeration in 16 bits. -/
def enumMax : Nat := 0x7FFF

end Scalar

end Ndr
