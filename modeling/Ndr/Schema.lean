import Ndr.TypeVector.Bound

/-!
Type expressions: the types of an interface as trees, from which a type vector is assembled.
Structs are named by number, so that a struct can point to itself.
-/

namespace Ndr

/-- The number of a struct, in the order of declaration. -/
abbrev StructId := Nat

mutual

inductive TypeSpec where
  | scalar (kind : Scalar)
  /-- A scalar between two operands. -/
  | range (kind : Scalar) (lower upper : UInt32)
  | struct (id : StructId)
  | nested (struct : StructSpec)
  | array (array : ArraySpec)
  | union (union : UnionSpec)
  | pointer (kind : PointerKind) (pointee : TypeSpec)
  | ignore
  | converted (kind : ConversionKind) (routine : UInt32) (wire : TypeSpec)
  | freeRep (routine : UInt32) (inner : TypeSpec)
  | pipe (element : TypeSpec)
  | context (direction : ContextDirection)
  /-- A marker that aligns to 2, 4 or 8. -/
  | align (boundary : Nat)
  | deletedNodes
  | void
  /-- An opcode without operands. -/
  | opcode (op : Opcode)

/-- The fields of a struct in wire order. -/
structure StructSpec where
  fields : List TypeSpec
  /-- The slot of each field; the fields in order where there is none. -/
  hostSlots : Option (List UInt32)

structure ArraySpec where
  kind : ArrayKind
  bounds : List BoundPair
  /-- One pair a dimension for arrays of which a part is sent. -/
  limits : List BoundPair
  element : TypeSpec
  string : Bool
  v1 : Bool

structure UnionSpec where
  switch : Scalar
  /-- The field that selects the arm, for a union that does not hold its own switch. -/
  switchField : Option UInt32
  /-- The arms by case; an empty arm has no type. -/
  arms : List (UInt32 × Option TypeSpec)
  default : DefaultArm
  optional : Bool

/-- The arm of the values without a case. -/
inductive DefaultArm where
  | missing
  | empty
  | arm (spec : TypeSpec)

end

instance : Inhabited TypeSpec := ⟨.void⟩

/-- Whether a type takes no slot of its struct. -/
def TypeSpec.isMarker : TypeSpec → Bool
  | .align _ => true
  | _ => false

namespace StructSpec

/-- The fields that take a slot. -/
def slotted (s : StructSpec) : List TypeSpec := s.fields.filter (!·.isMarker)

def lastField? (s : StructSpec) : Option TypeSpec := s.slotted.getLast?

end StructSpec

namespace UnionSpec

/-- The types of the arms, the default last. -/
def armTypes (u : UnionSpec) : List TypeSpec :=
  u.arms.filterMap (·.2) ++ match u.default with
    | .arm spec => [spec]
    | .missing | .empty => []

end UnionSpec

namespace ArraySpec

/-! ### Arrays of one dimension -/

/-- An array of `n` elements. -/
def fixed (n : UInt32) (element : TypeSpec) : ArraySpec :=
  ⟨.fixed, [.ofLength n], [], element, false, false⟩

/-- An array whose size a field gives. -/
def conformant (size : UInt32) (element : TypeSpec) : ArraySpec :=
  ⟨.conformant, [⟨.ofConstant 0, .ofField .sizeIs size⟩], [], element, false, false⟩

/-- An array of `n` elements, as many sent as a field says. -/
def varying (n length : UInt32) (element : TypeSpec) : ArraySpec :=
  ⟨.varying, [.ofLength n], [⟨.ofConstant 0, .ofField .lengthIs length⟩], element, false, false⟩

/-- An array whose size and whose part that is sent are both given by fields. -/
def openEnded (size length : UInt32) (element : TypeSpec) : ArraySpec :=
  ⟨.openEnded, [⟨.ofConstant 0, .ofField .sizeIs size⟩],
    [⟨.ofConstant 0, .ofField .lengthIs length⟩], element, false, false⟩

/-- A string of any length. -/
def ofString (character : Scalar) : ArraySpec :=
  let terminator := Bound.ofString (UInt8.ofNat character.size)
  ⟨.openEnded, [⟨.ofConstant 0, terminator⟩], [⟨.ofConstant 0, terminator⟩],
    .scalar character, true, false⟩

/-- A string in an array of `n` characters, with 16-bit counts. -/
def ofV1String (n : UInt32) (character : Scalar) : ArraySpec :=
  let terminator := Bound.ofString (UInt8.ofNat character.size)
  ⟨.varying, [.ofLength n], [⟨.ofConstant 0, terminator⟩], .scalar character, true, true⟩

end ArraySpec

end Ndr
