import Ndr.Opcode

/-!
Descriptors: the types that a type vector spells, each with the modifiers ahead of it. Structs,
arrays, unions and pointees are named by the offset of their definition or stream.
-/

namespace Ndr

/-- The modifiers ahead of a descriptor. -/
structure Modifiers where
  string : Bool := false
  v1Array : Bool := false
  v1String : Bool := false
  passedByRef : Bool := false
  allocate : Bool := false
  allocateRef : Bool := false
  /-- The operands of a range, at their raw width. -/
  range : Option (UInt32 × UInt32) := none
  /-- The routine that releases the value once it is marshalled. -/
  freeRep : Option Nat := none
  deriving DecidableEq, Inhabited

namespace Modifiers

def add (m : Modifiers) : Mark → Modifiers
  | .string => { m with string := true }
  | .v1Array => { m with v1Array := true }
  | .v1String => { m with v1String := true }
  | .passedByRef => { m with passedByRef := true }
  | .allocate => { m with allocate := true }
  | .allocateRef => { m with allocateRef := true }

def isString (m : Modifiers) : Bool := m.string || m.v1String

/-- Counts have 16 bits, and no first index is sent. -/
def isV1 (m : Modifiers) : Bool := m.v1Array || m.v1String

end Modifiers

mutual

/-- A type with its modifiers. -/
structure Descriptor where
  /-- The offset of the first modifier, or of the opcode. -/
  offset : Nat
  modifiers : Modifiers
  form : TypeForm

inductive TypeForm where
  | scalar (kind : Scalar)
  | struct (kind : StructKind) (props : UInt8) (definition : Nat)
  | nested (align layout : Nat) (fields : List Descriptor)
  | array (kind : ArrayKind) (props : UInt8) (dims definition : Nat)
  | encapsulatedUnion (props : UInt8) (definition : Nat)
  | switchedUnion (props : UInt8) (switchField definition : Nat)
  | pointer (kind : PointerKind) (props : UInt8) (pointee : Nat)
  | ignore
  | converted (kind : ConversionKind) (props : UInt8) (routine wire : Nat)
  | pipe (props : UInt8) (element : Nat)
  | context (direction : ContextDirection)
  | align (boundary : Boundary)
  | deletedNodes
  | void
  | unhosted (opcode : Unhosted)

end

instance : Inhabited TypeForm := ⟨.void⟩

instance : Inhabited Descriptor := ⟨⟨0, {}, .void⟩⟩

/-! ### Questions about a descriptor -/

/-- Whether a descriptor takes a slot of its struct; alignment markers do not. -/
def Descriptor.isField (d : Descriptor) : Bool :=
  match d.form with
  | .align _ => false
  | _ => true

mutual

/-- Whether a type holds pointers, as far as its properties tell. -/
def Descriptor.hasPointers : Descriptor → Bool
  | ⟨_, _, form⟩ => form.hasPointers

def TypeForm.hasPointers : TypeForm → Bool
  | .pointer .. | .ignore => true
  | .struct _ props _ | .array _ props _ _ | .encapsulatedUnion props _ | .switchedUnion props _ _
  | .converted _ props _ _ => props &&& Property.hasPointers ≠ 0
  | .nested _ _ fields => anyHasPointers fields
  | .scalar _ | .pipe .. | .context _ | .align _ | .deletedNodes | .void | .unhosted _ => false

def anyHasPointers : List Descriptor → Bool
  | [] => false
  | d :: ds => d.hasPointers || anyHasPointers ds

end

theorem anyHasPointers_eq (ds : List Descriptor) :
    anyHasPointers ds = ds.any Descriptor.hasPointers := by
  induction ds with
  | nil => rfl
  | cons d ds ih => simp [anyHasPointers, ih]

end Ndr
