import Ndr.Layout
import Ndr.Schema
import Ndr.TypeVector.Basic

/-!
The assembler of type vectors: the vector so far, the structs it knows, and the records that go
into the vector one after another. A struct is laid down last; the words that refer to it are
filled in then.
-/

namespace Ndr

/-! ### Records -/

/-- The bytes with those from `start` on replaced. -/
def overwrite (bytes : Array UInt8) (start : Nat) : List UInt8 → Array UInt8
  | [] => bytes
  | b :: bs => overwrite (bytes.setIfInBounds start b) (start + 1) bs

/-- Bytes up to a multiple of four. -/
def fill (bytes : Array UInt8) : Array UInt8 :=
  bytes ++ Array.replicate (padding bytes.size 4) filler

/-- A record under construction. It starts at a multiple of four, so its words are aligned
within it. -/
structure Record where
  order : ByteOrder
  bytes : Array UInt8 := #[]
  /-- The places of words that will hold the offset of a struct. -/
  references : List (Nat × StructId) := []

namespace Record

def byte (r : Record) (b : UInt8) : Record := { r with bytes := r.bytes.push b }

def op (r : Record) (op : Opcode) : Record := r.byte op.toByte

def word (r : Record) (v : Nat) : Record :=
  { r with bytes := fill r.bytes ++ (r.order.encode 4 v).toArray }

/-- A word that will hold the offset of a struct. -/
def reference (r : Record) (id : StructId) : Record :=
  let bytes := fill r.bytes
  { r with
    bytes := bytes ++ (r.order.encode 4 0).toArray
    references := r.references ++ [(bytes.size, id)] }

def bound (r : Record) (b : Bound) : Record :=
  ((((r.byte (b.kind ||| b.flags)).byte b.fieldType).byte b.operator).byte filler).word
    b.value.toNat

def boundPair (r : Record) (p : BoundPair) : Record := (r.bound p.lower).bound p.upper

end Record

/-! ### The assembler -/

/-- Where the conformant array at the end of a struct is defined. -/
inductive TrailingArray where
  | laid (offset : Nat)
  /-- At the end of the struct at the end. -/
  | through (id : StructId)
  deriving Inhabited

/-- What is known of a declared struct. -/
structure StructEntry where
  spec : Option StructSpec := none
  /-- Whether it is laid down, or will be. -/
  queued : Bool := false
  offset : Option Nat := none
  trailing : Option TrailingArray := none
  deriving Inhabited

structure Assembler where
  order : ByteOrder
  /-- The flags of the header that ask for the layout of a faulty older version. -/
  flags : UInt32 := 0
  bytes : Array UInt8
  layout : Array UInt32 := #[]
  structs : Array StructEntry := #[]
  /-- The structs to lay down, the next one first. -/
  pending : List StructId := []
  /-- The places of words that will hold the offset of a struct. -/
  references : List (Nat × StructId) := []
  /-- The places of words that will hold the offset of the array at the end of a struct. -/
  trailingReferences : List (Nat × StructId) := []

/-- An action of the assembler. What was laid down ahead of a failure stays. -/
abbrev Assemble := EStateM Fault Assembler

namespace Assembler

/-- An assembler whose vector is all header. -/
def new (order : ByteOrder) (flags : UInt32) : Assembler where
  order
  flags
  bytes :=
    (order.encode 2 TypeVector.majorVersion.toNat ++ order.encode 2 TypeVector.minorVersion.toNat
      ++ [if order = .little then 1 else 0, filler, filler, filler] ++ order.encode 4 0).toArray

variable (a : Assembler)

/-- A malformed type expression, found where the vector ends now. -/
def fault (reason : Malformation) : Fault := .invalidDescriptor a.bytes.size reason

def malformed {α : Type} (reason : Malformation) : Assemble α := do
  throw ((← get).fault reason)

def structSpec (id : StructId) : Except Fault StructSpec :=
  match a.structs[id]?.bind (·.spec) with
  | some s => .ok s
  | none => .error (a.fault .structUndefined)

/-! ### Structs -/

/-- A struct to be defined later. -/
def declare : Assembler := { a with structs := a.structs.push {} }

def define (id : StructId) (spec : StructSpec) : Assembler :=
  { a with structs := a.structs.modify id fun e => { e with spec := some spec } }

/-- Have a struct laid down once. -/
def queue (id : StructId) : Assembler :=
  match a.structs[id]? with
  | some e =>
    if e.queued then a
    else
      { a with
        structs := a.structs.setIfInBounds id { e with queued := true }
        pending := id :: a.pending }
  | none => a

/-! ### Appending -/

/-- A record at the next multiple of four, and its offset. -/
def append (r : Record) : Assembler × Nat :=
  let bytes := fill a.bytes
  ({ a with
      bytes := bytes ++ r.bytes
      references := a.references ++ r.references.map fun (place, id) => (bytes.size + place, id) },
    bytes.size)

def emit (r : Record) : Assemble Nat := modifyGet fun a => (a.append r).swap

/-- An empty record in the order of the vector. -/
def record : Assemble Record := return { order := (← get).order }

/-- The layout of a struct, at its place. Slots must be as many as the fields, and among
them. -/
def emitLayout (s : StructSpec) : Assemble Nat := do
  let a ← get
  let count := s.slotted.length
  let slots ← match s.hostSlots with
    | some slots =>
      if slots.length = count ∧ slots.all (·.toNat < count) then pure slots
      else malformed .slotsNotCovering
    | none => pure ((List.range count).map UInt32.ofNat)
  set { a with layout := a.layout.push (UInt32.ofNat count) ++ slots.toArray }
  return a.layout.size

end Assembler

end Ndr
