import Ndr.Assembler.Measure

/-!
Laying down types: a descriptor into a record, and ahead of it the definitions and streams it
refers to.
-/

namespace Ndr

namespace Assembler

/-- A way to write a type into a record; the answer has the definition of the type where it is
an array. -/
abbrev Write := TypeSpec → Record → Assemble (Record × Option Nat)

/-! ### Streams, arrays and unions -/

/-- A stream of one descriptor. -/
def emitStream (write : Write) (spec : TypeSpec) : Assemble Nat := do
  let (r, _) ← write spec (← record)
  emit (r.op .endOfList)

/-- The definition of an array. -/
def emitArray (write : Write) (s : ArraySpec) : Assemble Nat := do
  let dims := s.bounds.length
  if dims = 0 ∨ 255 < dims then malformed .dimensionCount
  if s.kind.isVarying ∧ s.limits.length ≠ dims then malformed .limitCount
  let r := ((((← record).byte (UInt8.ofNat dims)).byte filler).byte filler).byte filler
  let pairs := s.bounds ++ if s.kind.isVarying then s.limits else []
  let (r, _) ← write s.element (pairs.foldl Record.boundPair r)
  emit (r.op .endOfList)

/-- The record of an arm: the byte that tells its kind, its properties and its stream. -/
structure ArmRecord where
  kind : UInt8
  props : UInt8
  stream : Nat

/-- The record of an arm without a type. -/
def ArmRecord.empty (op : Opcode) : ArmRecord := ⟨op.toByte, 0, 0⟩

def ArmRecord.write (label : UInt32) (arm : ArmRecord) (r : Record) : Record :=
  (((((((r.word label.toNat).byte arm.kind).byte arm.props).byte filler).byte filler).word
    arm.stream).word 0)

/-- The stream of an arm, and its record: the kind of an arm is the first byte of its stream. -/
def emitArm (room : Nat) (write : Write) (spec : TypeSpec) : Assemble ArmRecord := do
  let props ← (← get).propsOf room spec
  let stream ← emitStream write spec
  return { kind := (← get).bytes[stream]?.getD 0, props, stream }

def emitCases (room : Nat) (write : Write) :
    List (UInt32 × Option TypeSpec) → Assemble (List (UInt32 × ArmRecord))
  | [] => return []
  | (label, arm) :: rest => do
    let r ← match arm with
      | some spec => emitArm room write spec
      | none => pure (.empty .void)
    return (label, r) :: (← emitCases room write rest)

/-- The definition of a union, its streams ahead of it. -/
def emitUnion (room : Nat) (write : Write) (u : UnionSpec) : Assemble Nat := do
  if !u.switch.isIntegral then malformed .switchSpecNotIntegral
  let align ← largestAlign ((← get).alignOf room) u.armTypes
  let cases ← emitCases room write u.arms
  let default ← match u.default with
    | .missing => pure (.empty .noArm)
    | .empty => pure (.empty .void)
    | .arm spec => emitArm room write spec
  let r := (← record).op (.scalar u.switch)
  let r := ((r.byte (if u.optional then 1 else 0)).byte (UInt8.ofNat align)).byte filler
  let r := r.word u.arms.length
  let all : List (UInt32 × ArmRecord) := cases ++ [(0, default)]
  emit (all.foldl (fun r (label, arm) => arm.write label r) r)

/-! ### Descriptors -/

/-- The fields of a struct, and the definition of the last array among them. -/
def writeFields (write : Write) : List TypeSpec → Record → Option Nat →
    Assemble (Record × Option Nat)
  | [], r, last => return (r, last)
  | spec :: rest, r, last => do
    let (r, definition) ← write spec r
    writeFields write rest r (definition.or last)

/-- The modifier of an array. -/
def markOf (string v1 : Bool) : Option Mark :=
  match string, v1 with
  | true, true => some .v1String
  | true, false => some .string
  | false, true => some .v1Array
  | false, false => none

/-- A type that nests at most `room` deep, its parts written by `write`. -/
def writeStep (room : Nat) (write : Write) : Write := fun spec r => do
  match spec with
  | .scalar kind => return (r.op (.scalar kind), none)
  | .range kind lower upper =>
    return ((((r.op .range).word lower.toNat).word upper.toNat).op (.scalar kind), none)
  | .struct id =>
    let a ← get
    let s ← a.structSpec id
    let kind := match ← a.trailingArray maxNesting s with
      | none => StructKind.fixed
      | some array => if array.v1 then .v1Conformant else .conformant
    let props ← a.propsOf (room + 1) spec
    set (a.queue id)
    return (((r.op (.struct kind)).byte props).reference id, none)
  | .nested s =>
    let align ← (← get).alignOf (room + 1) spec
    let layout ← emitLayout s
    let r := ((r.op .beginNested).byte (UInt8.ofNat align)).word layout
    let (r, _) ← writeFields write s.fields r none
    return (r.op .endNested, none)
  | .array s =>
    let props ← (← get).propsOf (room + 1) spec
    let definition ← emitArray write s
    let r := match markOf s.string s.v1 with
      | some mark => r.op (.mark mark)
      | none => r
    let r := ((r.op (.array s.kind)).byte props).byte (UInt8.ofNat s.bounds.length)
    return (r.word definition, some definition)
  | .union u =>
    let props ← (← get).propsOf (room + 1) spec
    let definition ← emitUnion room write u
    let r := match u.switchField with
      | none => (r.op .encapsulatedUnion).byte props
      | some field => ((r.op .switchedUnion).byte props).word field.toNat
    return (r.word definition, none)
  | .pointer kind pointee =>
    let props ← (← get).propsOf room pointee
    let stream ← emitStream write pointee
    return (((r.op (.pointer kind)).byte props).word stream, none)
  | .converted kind routine wire =>
    let props ← (← get).propsOf room wire
    let stream ← emitStream write wire
    return ((((r.op (.conversion kind)).byte props).word routine.toNat).word stream, none)
  | .freeRep routine inner => write inner ((r.op .freeRep).word routine.toNat)
  | .pipe element =>
    let props ← (← get).propsOf room element
    let stream ← emitStream write element
    return (((r.op .pipe).byte props).word stream, none)
  | .ignore => return (r.op .ignore, none)
  | .context direction => return (r.op (.context direction), none)
  | .align 2 => return (r.op (.align .two), none)
  | .align 4 => return (r.op (.align .four), none)
  | .align 8 => return (r.op (.align .eight), none)
  | .align _ => malformed .badMarker
  | .deletedNodes => return (r.op .deletedNodes, none)
  | .void => return (r.op .void, none)
  | .opcode op => return (r.op op, none)

/-- A type that nests at most `room - 1` deep. -/
def write : Nat → Write
  | 0 => fun _ _ => malformed .tooDeep
  | room + 1 => writeStep room (write room)

/-! ### Lists -/

def writeParameters : List (UInt32 × TypeSpec) → Record → Assemble Record
  | [], r => return r
  | (index, spec) :: rest, r => do
    let (r, _) ← write (maxNesting + 1) spec (r.word index.toNat)
    writeParameters rest (r.op .endOfList)

/-- A parameter list, and its offset. -/
def parameters (ps : List (UInt32 × TypeSpec)) : Assemble Nat := do
  emit (← writeParameters ps ((← record).word ps.length))

/-- A stream that nothing refers to yet, and its offset. -/
def stream (spec : TypeSpec) : Assemble Nat := emitStream (write (maxNesting + 1)) spec

end Assembler

end Ndr
