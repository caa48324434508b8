import Ndr.Marshal.Array

/-!
Writing structs: the slots of a host struct in wire order. The extents of a conformant array at
the end of a struct travel ahead of the outermost struct that ends with it.
-/

namespace Ndr.Marshal

variable (env : Env)

/-! ### Slots -/

def structSlots (v : Value) : Except Fault (List Value) :=
  match v with
  | .struct slots => .ok slots
  | v => .error (.typeMismatch .struct v.kind)

/-- The value in the slot of a field. -/
def slotValue (layout : Nat) (slots : List Value) (field : Nat) : Except Fault Value := do
  let slot ← env.interface.layout.slot layout field
  match slots[slot]? with
  | some v => return v
  | none => throw (.arraySizeMismatch (slot + 1) slots.length)

/-- The scope of a struct, from all its fields. -/
def scopeOf (layout : Nat) (fields : List Descriptor) (slots : List Value) :
    Except Fault Scope := do
  let count ← env.interface.layout.slotCount layout
  if slots.length ≠ count then throw (.slotMismatch slots.length count)
  let values ← (List.range (fields.countP Descriptor.isField)).mapM fun field =>
    return (← slotValue env layout slots field).toInt?
  return values.toArray

/-- A struct with its definition, its slots and its scope. -/
def structParts (definition : Nat) (v : Value) :
    Except Fault (StructDefinition × List Value × Scope) := do
  let d ← env.vector.structDefinition definition
  let slots ← structSlots v
  return (d, slots, ← scopeOf env d.layout d.fields slots)

/-! ### The array at the end -/

/-- The shape of the conformant array defined at `trailing` that ends a struct, found through at
most `levels` structs, and whether its counts have 16 bits. -/
def trailingShape (outermost trailing : Nat) :
    Nat → StructDefinition → List Value → Scope → Except Fault (Bool × Shape)
  | 0, _, _, _ => throw (.nestingTooDeep env.config.maxNesting outermost)
  | levels + 1, d, slots, scope =>
    match conformantTail? d.fields trailing with
    | none => throw (.invalidDescriptor d.offset .trailingArrayNotLast)
    | some (field, tail) => do
      let held ← slotValue env d.layout slots field
      match tail with
      | .array modifiers kind dims _ =>
        let (d, elements) ← arrayParts env kind dims trailing held
        return (modifiers.isV1, ← shapeOf d kind modifiers.isString elements scope)
      | .struct definition =>
        let (d, slots, scope) ← structParts env definition held
        trailingShape outermost trailing levels d slots scope

/-- The shape of the conformant array that ends a struct. -/
def hoistedShape (d : StructDefinition) (slots : List Value) (scope : Scope) :
    Except Fault (Bool × Shape) :=
  match d.trailing with
  | none => .error (.invalidDescriptor d.offset .noTrailingArray)
  | some trailing => trailingShape env d.offset trailing env.config.maxNesting d slots scope

/-! ### Fields -/

/-- Write fields of a struct from the number `index` on, the last of them by `last`. -/
def putFields (walk last : Walk) (layout : Nat) (slots : List Value) (site : Site Scope) :
    Nat → List Descriptor → Marshalling Unit
  | _, [] => return
  | index, d :: ds => do
    if d.isField then
      let v ← slotValue env layout slots index
      if ds.any Descriptor.isField then walk d v site else last d v site
      putFields walk last layout slots site (index + 1) ds
    else
      walk d .void site
      putFields walk last layout slots site index ds

/-- Write the end of a struct whose array has this shape, through at most `levels` structs. The
extents are not written again. -/
def putTail (walk : Walk) (shape : Shape) : Nat → Walk
  | levels, d, v, site =>
    match d.form with
    | .array kind _ dims definition =>
      if kind.isConformant then
        putArray env walk d.modifiers kind dims definition v site (some shape)
      else walk d v site
    | .struct kind _ definition =>
      if kind = .fixed then walk d v site
      else
        match levels with
        | 0 => throw (.nestingTooDeep env.config.maxNesting d.offset)
        | levels + 1 => do
          let (s, slots, scope) ← structParts env definition v
          put (Writer.align s.align)
          putFields env walk (putTail walk shape levels) s.layout slots
            { site with scope, embedded := true } 0 s.fields
    | _ => walk d v site

/-! ### Structs -/

/-- Write a struct. -/
def putStruct (walk : Walk) (kind : StructKind) (definition : Nat) (v : Value)
    (site : Site Scope) : Marshalling Unit := do
  let (d, slots, scope) ← structParts env definition v
  let inner := { site with scope, embedded := true }
  if kind = .fixed then
    put (Writer.align d.align)
    putFields env walk walk d.layout slots inner 0 d.fields
  else
    let (v1, shape) ← hoistedShape env d slots scope
    putExtents env shape (kind = .v1Conformant ∨ v1)
    put (Writer.align d.align)
    let tail := putTail env walk shape env.config.maxNesting
    putFields env walk tail d.layout slots inner 0 d.fields

/-- Write a struct whose fields stand in the descriptor of its parent. -/
def putNested (walk : Walk) (align layout : Nat) (fields : List Descriptor) (v : Value)
    (site : Site Scope) : Marshalling Unit := do
  let slots ← structSlots v
  let scope ← scopeOf env layout fields slots
  put (Writer.align align)
  putFields env walk walk layout slots { site with scope, embedded := true } 0 fields

end Ndr.Marshal
