import Ndr.Assembler.Descriptor
import Ndr.TypeVector.Definition

/-!
The end of an assembly: the structs that were used are laid down, the last one queued first, and
the words that refer to structs and to the arrays at their ends are filled in.
-/

namespace Ndr

namespace Assembler

/-! ### Structs -/

/-- The place of the operand for the array at its end in the record of a struct. -/
def trailingPlace : Nat := 8

def modifyStruct (id : StructId) (f : StructEntry → StructEntry) : Assemble Unit :=
  modify fun a => { a with structs := a.structs.modify id f }

/-- The definition of a struct. -/
def emitStruct (id : StructId) : Assemble Nat := do
  let a ← get
  let s ← a.structSpec id
  let align ← a.alignOf (maxNesting + 1) (.struct id)
  let props ← a.propsOf (maxNesting + 1) (.struct id)
  let layout ← emitLayout s
  let r := (((← record).byte (UInt8.ofNat align)).byte props).byte filler
  let r := ((r.byte filler).word layout).word TypeVector.noTrailing
  let conformant := (← a.trailingArray maxNesting s).isSome
  let (r, last) ← writeFields (write maxNesting) s.fields r none
  if !conformant then emit (r.op .endOfList)
  else
    match s.lastField? with
    | some (.struct inner) =>
      let offset ← emit (r.op .endOfList)
      modifyStruct id fun e => { e with trailing := some (.through inner) }
      modify fun a => { a with
        trailingReferences := a.trailingReferences ++ [(offset + trailingPlace, inner)] }
      return offset
    | _ =>
      match last with
      | none => malformed .trailingArrayMissing
      | some definition =>
        modifyStruct id fun e => { e with trailing := some (.laid definition) }
        let bytes := overwrite r.bytes trailingPlace (r.order.encode 4 definition)
        emit ({ r with bytes }.op .endOfList)

/-- Lay down the structs that are queued, and those they queue; a struct is queued once, so
`fuel` need not exceed their number. -/
def emitPending : Nat → Assemble Unit
  | 0 => return
  | fuel + 1 => do
    match (← get).pending with
    | [] => return
    | id :: rest =>
      modify fun a => { a with pending := rest }
      let offset ← emitStruct id
      modifyStruct id fun e => { e with offset := some offset }
      emitPending fuel

/-! ### References -/

/-- The definition of the array at the end of a struct, through at most `fuel` structs. -/
def trailingOffset (a : Assembler) : Nat → StructId → Except Fault Nat
  | 0, _ => .error (a.fault .containsItself)
  | fuel + 1, id =>
    match a.structs[id]?.bind (·.trailing) with
    | some (.laid offset) => .ok offset
    | some (.through inner) => trailingOffset a fuel inner
    | none => .error (a.fault .noTrailingArray)

/-- The bytes with the words at some places filled in. -/
def resolve (order : ByteOrder) (target : StructId → Except Fault Nat) :
    List (Nat × StructId) → Array UInt8 → Except Fault (Array UInt8)
  | [], bytes => .ok bytes
  | (place, id) :: rest, bytes => do
    let offset ← target id
    resolve order target rest (overwrite bytes place (order.encode 4 offset))

def structOffset (a : Assembler) (id : StructId) : Except Fault Nat :=
  match a.structs[id]?.bind (·.offset) with
  | some offset => .ok offset
  | none => .error (a.fault .structMissing)

/-- The vector and the layouts of everything that was assembled. -/
def finish (a : Assembler) : Except Fault (Array UInt8 × Layout) := do
  match (emitPending a.structs.size).run a with
  | .error e _ => throw e
  | .ok _ a =>
    let bytes ← resolve a.order a.structOffset a.references a.bytes
    let bytes ←
      resolve a.order (a.trailingOffset (a.structs.size + 1)) a.trailingReferences bytes
    return (overwrite bytes 8 (a.order.encode 4 a.flags.toNat), ⟨a.layout⟩)

end Assembler

end Ndr
