import Ndr.Repetition
import Ndr.TypeVector.Basic
import Ndr.TypeVector.Descriptor

/-!
Reading a type vector from a position on. A read that fails leaves the position where it got
to: a missing byte is not passed, the gap ahead of a missing word is, and so is an unknown
opcode.
-/

namespace Ndr

/-- An action on a position in a type vector. -/
abbrev Scan := EStateM Fault Nat

namespace TypeVector

variable (tv : TypeVector)

/-! ### Bytes and words -/

def readByte : Scan UInt8 := do
  let here ← get
  match tv.bytes[here]? with
  | some b => set (here + 1); return b
  | none => throw (.truncatedVector here 1)

def skip (n : Nat) : Scan Unit := do
  let here ← get
  if tv.size < here + n then throw (.truncatedVector here n)
  set (here + n)

/-- A word of four bytes at the next multiple of four. -/
def readWord : Scan UInt32 := do
  modify fun here => here + padding here 4
  let here ← get
  match wordAt? tv.bytes tv.order here 4 with
  | some v => set (here + 4); return UInt32.ofNat v
  | none => throw (.truncatedVector here 4)

/-- A word that is an offset, an index or a count. -/
def readNat : Scan Nat := return (← tv.readWord).toNat

def readOpcode : Scan Opcode := do
  let here ← get
  let b ← tv.readByte
  match Opcode.ofByte? b with
  | some op => return op
  | none => throw (.unknownOpcode b here)

def expectEnd : Scan Unit := do
  let here ← get
  match ← tv.readOpcode with
  | .endOfList => return
  | _ => throw (.invalidDescriptor here .expectedEnd)

/-- The alignment in the byte `align` of the record at `offset`. -/
def checkAlign (align : UInt8) (offset : Nat) : Except Fault Nat :=
  if align = 1 ∨ align = 2 ∨ align = 4 ∨ align = 8 then .ok align.toNat
  else .error (.invalidDescriptor offset .badAlignment)

/-! ### Descriptors -/

/-- The descriptors up to the end of a list, or of a nested struct. `next` reads one, and
`fuel` bounds their number. -/
def readFields (next : Scan (Option Descriptor)) (nested : Bool) :
    Nat → List Descriptor → Scan (List Descriptor)
  | 0, _ => do throw (.truncatedVector (← get) 1)
  | fuel + 1, before => do
    let here ← get
    match tv.bytes[here]? with
    | none => throw (.truncatedVector here 1)
    | some b =>
      if b = Opcode.endNested.toByte then
        if nested then
          set (here + 1)
          return before.reverse
        else throw (.invalidDescriptor here .unbalancedEnd)
      else
        match ← next with
        | some d => readFields next nested fuel (d :: before)
        | none =>
          if nested then throw (.invalidDescriptor here .unclosedNested)
          else return before.reverse

/-- The rest of the descriptor that began at `start` with these modifiers, `none` at the end of
a list. Every modifier and every nesting takes one from `fuel` and at least one byte. -/
def readDescriptorFrom : Nat → Nat → Modifiers → Scan (Option Descriptor)
  | 0, _, _ => do throw (.truncatedVector (← get) 1)
  | fuel + 1, start, modifiers => do
    let here ← get
    let op ← tv.readOpcode
    let found (form : TypeForm) : Option Descriptor := some { offset := start, modifiers, form }
    match op with
    | .endOfList =>
      if modifiers = {} then return none
      else throw (.invalidDescriptor here .danglingModifier)
    | .mark mark => readDescriptorFrom fuel start (modifiers.add mark)
    | .range =>
      let lower ← tv.readWord
      let upper ← tv.readWord
      readDescriptorFrom fuel start { modifiers with range := some (lower, upper) }
    | .freeRep =>
      let routine ← tv.readNat
      readDescriptorFrom fuel start { modifiers with freeRep := some routine }
    | .scalar kind => return found (.scalar kind)
    | .struct kind =>
      let props ← tv.readByte
      return found (.struct kind props (← tv.readNat))
    | .beginNested =>
      let align ← checkAlign (← tv.readByte) here
      let layout ← tv.readNat
      let next : Scan (Option Descriptor) := do readDescriptorFrom fuel (← get) {}
      return found (.nested align layout (← tv.readFields next true (tv.size + 1) []))
    | .array kind =>
      let props ← tv.readByte
      let dims ← tv.readByte
      return found (.array kind props dims.toNat (← tv.readNat))
    | .encapsulatedUnion =>
      let props ← tv.readByte
      return found (.encapsulatedUnion props (← tv.readNat))
    | .switchedUnion =>
      let props ← tv.readByte
      let field ← tv.readNat
      return found (.switchedUnion props field (← tv.readNat))
    | .pointer kind =>
      let props ← tv.readByte
      return found (.pointer kind props (← tv.readNat))
    | .ignore => return found .ignore
    | .conversion kind =>
      let props ← tv.readByte
      let routine ← tv.readNat
      return found (.converted kind props routine (← tv.readNat))
    | .pipe =>
      let props ← tv.readByte
      return found (.pipe props (← tv.readNat))
    | .context direction => return found (.context direction)
    | .align boundary => return found (.align boundary)
    | .deletedNodes => return found .deletedNodes
    | .void => return found .void
    | .unhosted opcode => return found (.unhosted opcode)
    | .noArm | .endNested => throw (.invalidDescriptor here .strayMarker)

/-- The descriptor at the position, `none` at the end of a list. -/
def readDescriptor : Scan (Option Descriptor) := do
  tv.readDescriptorFrom (tv.size + 1) (← get) {}

end TypeVector

end Ndr
