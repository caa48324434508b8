import Ndr.TypeVector.Bound
import Ndr.TypeVector.Scan

/-!
What stands at an offset of a type vector: a stream of one descriptor, a parameter list, and
the definitions of structs, arrays and unions.
-/

namespace Ndr

/-- A parameter of an operation. -/
structure Parameter where
  index : Nat
  descriptor : Descriptor

structure StructDefinition where
  offset : Nat
  align : Nat
  props : UInt8
  /-- The place of its layout in the table of host slots. -/
  layout : Nat
  /-- The definition of the conformant array at its end. -/
  trailing : Option Nat
  fields : List Descriptor

structure ArrayDefinition where
  offset : Nat
  dimensions : List Dimension
  element : Descriptor

structure UnionDefinition where
  offset : Nat
  switch : Scalar
  /-- Whether a value without an arm is no fault. -/
  optional : Bool
  /-- The alignment of the arms. -/
  align : Nat
  armCount : Nat
  armsAt : Nat

/-- What an arm holds. -/
inductive ArmBody where
  | empty
  /-- The mark of a default that is no arm. -/
  | absent
  | stream (offset : Nat)
  deriving DecidableEq

structure Arm where
  label : UInt32
  props : UInt8
  body : ArmBody
  deriving DecidableEq

namespace TypeVector

variable (tv : TypeVector)

/-- The result of reading at an offset. -/
def readAt {α : Type} (offset : Nat) (scan : Scan α) : Except Fault α :=
  match scan.run offset with
  | .ok a _ => .ok a
  | .error e _ => .error e

/-! ### Streams and parameter lists -/

/-- The descriptor at `offset`, alone in its list. -/
def stream (offset : Nat) : Except Fault Descriptor :=
  readAt offset do
    match ← tv.readDescriptor with
    | some d =>
      tv.expectEnd
      return d
    | none => throw (.invalidDescriptor offset .emptyStream)

def readParameter : Scan Parameter := do
  let index ← tv.readNat
  let here ← get
  match ← tv.readDescriptor with
  | some descriptor =>
    tv.expectEnd
    return { index, descriptor }
  | none => throw (.invalidDescriptor here .bareParameter)

def parameters (offset : Nat) : Except Fault (List Parameter) :=
  readAt offset do repeatM (← tv.readNat) tv.readParameter

/-! ### Structs -/

/-- The operand of a struct without a conformant array. -/
def noTrailing : Nat := 0xFFFFFFFF

def structDefinition (offset : Nat) : Except Fault StructDefinition :=
  readAt offset do
    let align ← tv.readByte
    let props ← tv.readByte
    tv.skip 2
    let layout ← tv.readNat
    let trailing ← tv.readNat
    let fields ← tv.readFields tv.readDescriptor false (tv.size + 1) []
    let align ← checkAlign align offset
    return { offset, align, props, layout, fields
             trailing := if trailing = noTrailing then none else some trailing }

/-! ### Arrays -/

def readBound : Scan Bound := do
  let kind ← tv.readByte
  let fieldType ← tv.readByte
  let operator ← tv.readByte
  tv.skip 1
  let value ← tv.readWord
  return { kind := kind &&& BoundFlag.kindMask
           flags := kind &&& ~~~BoundFlag.kindMask
           fieldType, operator, value }

def readBoundPair : Scan BoundPair := do
  let lower ← tv.readBound
  return { lower, upper := ← tv.readBound }

/-- The dimensions with these bounds and, where there are any, these limits. -/
def dimensionsOf (bounds : List BoundPair) (limits : Option (List BoundPair)) : List Dimension :=
  match limits with
  | none => bounds.map fun b => { bounds := b, limits := none }
  | some limits => (bounds.zip limits).map fun (b, l) => { bounds := b, limits := some l }

/-- The array definition at `offset`; only those of varying arrays record limits. -/
def arrayDefinition (offset : Nat) (varying : Bool) : Except Fault ArrayDefinition :=
  readAt offset do
    let dims ← tv.readByte
    if dims = 0 then throw (.invalidDescriptor offset .noDimensions)
    tv.skip 3
    let bounds ← repeatM dims.toNat tv.readBoundPair
    let limits ← if varying then some <$> repeatM dims.toNat tv.readBoundPair else pure none
    let here ← get
    match ← tv.readDescriptor with
    | some element =>
      tv.expectEnd
      return { offset, dimensions := dimensionsOf bounds limits, element }
    | none => throw (.invalidDescriptor here .noElement)

/-! ### Unions -/

/-- The bytes of the record of an arm. -/
def armWidth : Nat := 16

/-- The flag of a union whose values need no arm. -/
def optionalFlag : UInt8 := 0x01

/-- The union definition at `offset`. Its arms and its default must fit the vector. -/
def unionDefinition (offset : Nat) : Except Fault UnionDefinition :=
  readAt offset do
    match ← tv.readOpcode with
    | .scalar switch =>
      if !switch.isIntegral then throw (.invalidDescriptor offset .switchNotIntegral)
      let flags ← tv.readByte
      let align ← tv.readByte
      tv.skip 1
      let armCount ← tv.readNat
      let armsAt ← get
      let needed := (armCount + 1) * armWidth
      if tv.size < armsAt + needed then throw (.truncatedVector armsAt needed)
      let align ← checkAlign align offset
      return { offset, switch, align, armCount, armsAt, optional := flags &&& optionalFlag ≠ 0 }
    | _ => throw (.invalidDescriptor offset .switchNotIntegral)

/-- The record of an arm at `offset`. -/
def armAt (offset : Nat) : Except Fault Arm :=
  readAt offset do
    let label ← tv.readWord
    let op ← tv.readOpcode
    let props ← tv.readByte
    tv.skip 2
    let stream ← tv.readNat
    let _ ← tv.readWord
    return { label, props
             body := match op with
               | .void => .empty
               | .noArm => .absent
               | _ => .stream stream }

/-- The first of the `n` arms from `offset` on whose case is `switch`. -/
def findCase (kind : Scalar) (switch : Int) : Nat → Nat → Except Fault (Option Arm)
  | 0, _ => .ok none
  | n + 1, offset => do
    let arm ← tv.armAt offset
    if kind.normalize arm.label = switch then return some arm
    findCase kind switch n (offset + armWidth)

/-- The arm that a value selects: the first of its case, else the default if there is one. -/
def findArm (u : UnionDefinition) (switch : Int) : Except Fault (Option Arm) := do
  match ← tv.findCase u.switch switch u.armCount u.armsAt with
  | some arm => return some arm
  | none =>
    let arm ← tv.armAt (u.armsAt + u.armCount * armWidth)
    return if arm.body = .absent then none else some arm

end TypeVector

end Ndr
