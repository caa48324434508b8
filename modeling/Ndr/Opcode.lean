import Ndr.Scalar

/-!
The opcodes of a type vector. Opcodes are grouped by the kind of type they introduce; each has
one byte, and a byte has at most one opcode.
-/

namespace Ndr

/-! ### Kinds of types -/

/-- Whether a struct ends with an array whose size travels ahead of the struct. -/
inductive StructKind where
  | fixed
  | conformant
  /-- A conformant struct whose array has 16-bit counts. -/
  | v1Conformant
  deriving DecidableEq, Inhabited

/-- What of the size of an array travels with its elements. -/
inductive ArrayKind where
  /-- Nothing. -/
  | fixed
  /-- The range of the elements that are sent. -/
  | varying
  /-- The number of elements. -/
  | conformant
  /-- Both. -/
  | openEnded
  deriving DecidableEq, Inhabited

def ArrayKind.isConformant : ArrayKind → Bool
  | conformant | openEnded => true
  | fixed | varying => false

def ArrayKind.isVarying : ArrayKind → Bool
  | varying | openEnded => true
  | fixed | conformant => false

inductive PointerKind where
  /-- Never null, and no other pointer reaches its pointee. -/
  | ref
  /-- May be null. -/
  | unique
  /-- May be null or share its pointee. -/
  | full
  deriving DecidableEq, Inhabited

inductive ContextDirection where
  | input
  | inputOutput
  | output
  deriving DecidableEq, Inhabited

/-- The attribute that gives a type another form on the wire. -/
inductive ConversionKind where
  | transmitAs
  | representAs
  deriving DecidableEq, Inhabited

/-- A boundary that a marker in a struct aligns to. -/
inductive Boundary where
  | two
  | four
  | eight
  deriving DecidableEq, Inhabited

def Boundary.toNat : Boundary → Nat
  | two => 2
  | four => 4
  | eight => 8

/-- A modifier without operands, ahead of a descriptor. -/
inductive Mark where
  | string
  | v1Array
  | v1String
  | passedByRef
  | allocate
  | allocateRef
  deriving DecidableEq, Inhabited

/-- Opcodes of layers that are not hosted here: the reserved zero, national character sets
and object interfaces. -/
inductive Unhosted where
  | null
  | csType
  | csShadow
  | csArray
  | csAttribute
  | csReleaseShadow
  | interface
  | dynamicInterface
  | orpcInterface
  deriving DecidableEq, Inhabited

/-! ### Opcodes -/

inductive Opcode where
  | scalar (kind : Scalar)
  | struct (kind : StructKind)
  | beginNested
  | endNested
  | array (kind : ArrayKind)
  | encapsulatedUnion
  | switchedUnion
  /-- The arm that no value selects. -/
  | noArm
  | void
  | pointer (kind : PointerKind)
  | ignore
  | mark (mark : Mark)
  | range
  | freeRep
  | conversion (kind : ConversionKind)
  | align (boundary : Boundary)
  | pipe
  | context (direction : ContextDirection)
  | deletedNodes
  | unhosted (opcode : Unhosted)
  | endOfList
  deriving DecidableEq, Inhabited

def Scalar.code : Scalar → UInt8
  | boolean => 1
  | byte => 2
  | char => 3
  | double => 4
  | enum => 5
  | float => 6
  | small => 7
  | short => 8
  | long => 9
  | hyper => 10
  | usmall => 11
  | ushort => 12
  | ulong => 13
  | uhyper => 14
  | v1Enum => 45
  | errorStatus => 50

namespace Opcode

/-- The byte of an opcode. -/
def toByte : Opcode → UInt8
  | scalar kind => kind.code
  | struct .fixed => 15
  | struct .conformant => 16
  | struct .v1Conformant => 48
  | beginNested => 18
  | endNested => 19
  | array .fixed => 20
  | array .varying => 21
  | array .conformant => 22
  | array .openEnded => 23
  | encapsulatedUnion => 24
  | switchedUnion => 25
  | noArm => 26
  | void => 27
  | pointer .full => 29
  | pointer .unique => 30
  | pointer .ref => 31
  | ignore => 32
  | mark .passedByRef => 28
  | mark .string => 33
  | mark .allocate => 36
  | mark .allocateRef => 37
  | mark .v1Array => 46
  | mark .v1String => 47
  | conversion .transmitAs => 34
  | conversion .representAs => 35
  | align .two => 38
  | align .four => 39
  | align .eight => 40
  | pipe => 41
  | context .input => 42
  | context .inputOutput => 43
  | context .output => 44
  | freeRep => 49
  | deletedNodes => 51
  | unhosted .null => 0
  | unhosted .csType => 52
  | unhosted .csShadow => 53
  | unhosted .csArray => 54
  | unhosted .csAttribute => 55
  | unhosted .csReleaseShadow => 56
  | unhosted .interface => 57
  | unhosted .dynamicInterface => 58
  | unhosted .orpcInterface => 59
  | range => 60
  | endOfList => 254

/-- The opcode of a byte. -/
def ofByte? (b : UInt8) : Option Opcode :=
  match b.toNat with
  | 0 => some (unhosted .null)
  | 1 => some (scalar .boolean)
  | 2 => some (scalar .byte)
  | 3 => some (scalar .char)
  | 4 => some (scalar .double)
  | 5 => some (scalar .enum)
  | 6 => some (scalar .float)
  | 7 => some (scalar .small)
  | 8 => some (scalar .short)
  | 9 => some (scalar .long)
  | 10 => some (scalar .hyper)
  | 11 => some (scalar .usmall)
  | 12 => some (scalar .ushort)
  | 13 => some (scalar .ulong)
  | 14 => some (scalar .uhyper)
  | 15 => some (struct .fixed)
  | 16 => some (struct .conformant)
  | 18 => some beginNested
  | 19 => some endNested
  | 20 => some (array .fixed)
  | 21 => some (array .varying)
  | 22 => some (array .conformant)
  | 23 => some (array .openEnded)
  | 24 => some encapsulatedUnion
  | 25 => some switchedUnion
  | 26 => some noArm
  | 27 => some void
  | 28 => some (mark .passedByRef)
  | 29 => some (pointer .full)
  | 30 => some (pointer .unique)
  | 31 => some (pointer .ref)
  | 32 => some ignore
  | 33 => some (mark .string)
  | 34 => some (conversion .transmitAs)
  | 35 => some (conversion .representAs)
  | 36 => some (mark .allocate)
  | 37 => some (mark .allocateRef)
  | 38 => some (align .two)
  | 39 => some (align .four)
  | 40 => some (align .eight)
  | 41 => some pipe
  | 42 => some (context .input)
  | 43 => some (context .inputOutput)
  | 44 => some (context .output)
  | 45 => some (scalar .v1Enum)
  | 46 => some (mark .v1Array)
  | 47 => some (mark .v1String)
  | 48 => some (struct .v1Conformant)
  | 49 => some freeRep
  | 50 => some (scalar .errorStatus)
  | 51 => some deletedNodes
  | 52 => some (unhosted .csType)
  | 53 => some (unhosted .csShadow)
  | 54 => some (unhosted .csArray)
  | 55 => some (unhosted .csAttribute)
  | 56 => some (unhosted .csReleaseShadow)
  | 57 => some (unhosted .interface)
  | 58 => some (unhosted .dynamicInterface)
  | 59 => some (unhosted .orpcInterface)
  | 60 => some range
  | 254 => some endOfList
  | _ => none

theorem ofByte?_toByte (op : Opcode) : ofByte? op.toByte = some op := by
  cases op with
  | scalar kind => cases kind <;> rfl
  | struct kind => cases kind <;> rfl
  | array kind => cases kind <;> rfl
  | pointer kind => cases kind <;> rfl
  | mark m => cases m <;> rfl
  | conversion kind => cases kind <;> rfl
  | align b => cases b <;> rfl
  | context d => cases d <;> rfl
  | unhosted u => cases u <;> rfl
  | _ => rfl

/-- Two opcodes never share a byte. -/
theorem toByte_injective {a b : Opcode} (h : a.toByte = b.toByte) : a = b := by
  have := ofByte?_toByte a
  rw [h, ofByte?_toByte b] at this
  exact (Option.some.inj this).symm

end Opcode

/-! ### Bytes and flags beside the opcodes -/

/-- The byte that fills gaps in a type vector. -/
def filler : UInt8 := 255

namespace Property

/-! #### The bits of a properties byte -/

def dependsOnCharacters : UInt8 := 0x01
def dependsOnIntegers : UInt8 := 0x02
def dependsOnFloats : UInt8 := 0x04
def hasPointers : UInt8 := 0x08

end Property

end Ndr
