import Ndr.TypeVector.Definition

/-!
What is asked of array and struct definitions wherever they are used, in writing and in reading
alike.
-/

namespace Ndr

namespace ArrayDefinition

variable (d : ArrayDefinition)

/-- The definition has the dimensions that its descriptor declares. -/
def checkDims (declared : Nat) : Except Fault Unit :=
  if declared = d.dimensions.length then .ok ()
  else .error (.dimensionMismatch declared d.dimensions.length)

/-- An array whose size does not travel has constant bounds. -/
def checkBounds (kind : ArrayKind) : Except Fault Unit :=
  if kind.isConformant ∨ d.dimensions.all (·.bounds.isConstant) then .ok ()
  else .error (.invalidDescriptor d.offset .correlatedFixed)

/-- The bound that the text of a string gives: the upper limit, else the upper bound. -/
def stringBound? : Option Bound :=
  match d.dimensions.head? with
  | none => none
  | some dim =>
    let limit := dim.limits.bind fun l => if l.upper.kind = .string then some l.upper else none
    limit.or (if dim.bounds.upper.kind = .string then some dim.bounds.upper else none)

/-- The type of the characters of a string. The bound of a string may record their size. -/
def characterKind : Except Fault Scalar :=
  if d.dimensions.length ≠ 1 then .error (.invalidDescriptor d.offset .stringDimensions)
  else
    match d.element.form with
    | .scalar kind =>
      if !kind.isIntegral then .error (.invalidDescriptor d.offset .stringElement)
      else
        match d.stringBound? with
        | none => .ok kind
        | some b =>
          if b.fieldType = 0 ∨ b.fieldType.toNat = kind.size then .ok kind
          else .error (.invalidDescriptor d.offset .characterSize)
    | _ => .error (.invalidDescriptor d.offset .stringElement)

end ArrayDefinition

/-! ### Elements of one byte -/

/-- The scalar type of an element that is one byte on the wire and carries no modifier. -/
def Descriptor.byteElement? (d : Descriptor) : Option Scalar :=
  match d.form with
  | .scalar kind =>
    if (kind = .byte ∨ kind = .usmall ∨ kind = .char) ∧ d.modifiers = {} then some kind else none
  | _ => none

/-- The byte of an element of such a type. -/
def Scalar.byteOf? (kind : Scalar) (v : Value) : Option UInt8 :=
  match kind, v with
  | byte, .byte b | usmall, .usmall b | char, .char b => some b
  | _, _ => none

/-- The element of such a type that a byte stands for. -/
def Scalar.ofByte (kind : Scalar) (b : UInt8) : Value :=
  match kind with
  | byte => .byte b
  | usmall => .usmall b
  | _ => .char b

/-! ### Elements of pipes -/

/-- The elements of a pipe hold no pointers, and are no pipes. -/
def Descriptor.checkPiped (d : Descriptor) : Except Fault Unit :=
  let isPipe := match d.form with
    | .pipe .. => true
    | _ => false
  if d.hasPointers || isPipe then .error (.invalidDescriptor d.offset .pipeElement) else .ok ()

/-! ### The end of a conformant struct -/

/-- The last field of a conformant struct: its conformant array, or a conformant struct that
ends with it. -/
inductive Tail where
  | array (modifiers : Modifiers) (kind : ArrayKind) (dims definition : Nat)
  | struct (definition : Nat)

/-- The last field and its number, where a struct can end with the array defined at
`trailing`. -/
def conformantTail? (fields : List Descriptor) (trailing : Nat) : Option (Nat × Tail) :=
  let slotted := fields.filter Descriptor.isField
  match slotted.getLast? with
  | none => none
  | some d =>
    let index := slotted.length - 1
    match d.form with
    | .array kind _ dims definition =>
      if kind.isConformant ∧ definition = trailing then
        some (index, .array d.modifiers kind dims definition)
      else none
    | .struct kind _ definition => if kind ≠ .fixed then some (index, .struct definition) else none
    | _ => none

end Ndr
