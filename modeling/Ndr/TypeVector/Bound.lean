import Ndr.Opcode

/-!
Bound records: how one end of a dimension of an array, or of the part of it that is sent, is
found. A record is constant, comes from the text of a string, or names a field of its scope.
-/

namespace Ndr

/-! ### Codes -/

/-- The kinds of the bounds of a dimension. The kinds of the limits of what is sent share the
first and the last code but two. -/
abbrev BoundKind := UInt8

namespace BoundKind

def fixed : BoundKind := 0
def minIs : BoundKind := 1
def maxIs : BoundKind := 2
def sizeIs : BoundKind := 3
def string : BoundKind := 4

/-- The kinds of a limit. -/
def firstIs : BoundKind := 1
def lastIs : BoundKind := 2
def lengthIs : BoundKind := 3

/-- The limit that is the upper bound itself. -/
def upperConf : BoundKind := 5

end BoundKind

namespace BoundFlag

/-- The field comes ahead of what it governs. -/
def early : UInt8 := 0x10

/-- The field names an interface. -/
def interfaceId : UInt8 := 0x40

/-- The field is not compared with the wire. -/
def unchecked : UInt8 := 0x80

/-- The half of the kind byte that holds the kind. -/
def kindMask : UInt8 := 0x0F

end BoundFlag

/-! ### Records -/

structure Bound where
  kind : BoundKind
  flags : UInt8
  /-- The scalar type of the field, or the size of a character. -/
  fieldType : UInt8
  /-- The operator that turns the field into the bound. -/
  operator : UInt8
  /-- The constant, or the number of the field. -/
  value : UInt32
  deriving DecidableEq, Inhabited

namespace Bound

def hasFlag (b : Bound) (flag : UInt8) : Bool := b.flags &&& flag ≠ 0

/-- The value of a constant bound. -/
def constant (b : Bound) : Int := b.value.toInt32.toInt

/-- The number of the field that a correlated bound names. -/
def field (b : Bound) : Nat := b.value.toNat

/-- A constant bound. -/
def ofConstant (v : Int32) : Bound := ⟨.fixed, 0, 0, 0, v.toUInt32⟩

/-- A bound from a field. -/
def ofField (kind : BoundKind) (field : UInt32) : Bound :=
  ⟨kind, 0, Scalar.long.code, 0, field⟩

/-- A bound from the text of a string. -/
def ofString (characterSize : UInt8) : Bound := ⟨.string, 0, characterSize, 0, 0⟩

theorem constant_ofConstant (v : Int32) : (ofConstant v).constant = v.toInt := rfl

end Bound

/-- The two ends of a dimension, or of its part that is sent. -/
structure BoundPair where
  lower : Bound
  upper : Bound
  deriving DecidableEq, Inhabited

namespace BoundPair

/-- The dimension of `n` elements. -/
def ofLength (n : UInt32) : BoundPair := ⟨.ofConstant 0, .ofConstant (n.toInt32 - 1)⟩

def isConstant (p : BoundPair) : Bool := p.lower.kind == .fixed && p.upper.kind == .fixed

end BoundPair

/-- A dimension of an array, with the limits of what is sent where the array has them. -/
structure Dimension where
  bounds : BoundPair
  limits : Option BoundPair
  deriving DecidableEq, Inhabited

end Ndr
