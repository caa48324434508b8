import Ndr.Unmarshal.Array

/-!
Reading structs: the fields in wire order, each into its slot. The extents of a conformant array
at the end of a struct are read ahead of the outermost struct that ends with it.
-/

namespace Ndr.Unmarshal

variable (env : Env)

/-! ### The array at the end -/

/-- How many dimensions the conformant array defined at `trailing` has that ends a struct, found
through at most `levels` structs, and whether its counts have 16 bits. -/
def trailingDims (outermost trailing : Nat) : Nat → StructDefinition → Except Fault (Nat × Bool)
  | 0, _ => .error (.nestingTooDeep env.config.maxNesting outermost)
  | levels + 1, d =>
    match conformantTail? d.fields trailing with
    | none => .error (.invalidDescriptor d.offset .trailingArrayNotLast)
    | some (_, .array modifiers _ dims _) => .ok (dims, modifiers.isV1)
    | some (_, .struct definition) => do
      trailingDims outermost trailing levels (← env.vector.structDefinition definition)

/-- How many dimensions the conformant array has that ends a struct. -/
def hoistedDims (d : StructDefinition) : Except Fault (Nat × Bool) :=
  match d.trailing with
  | none => .error (.invalidDescriptor d.offset .noTrailingArray)
  | some trailing => trailingDims env d.offset trailing env.config.maxNesting d

/-! ### Fields -/

/-- Read fields of a struct into these slots, from the number `index` on, the last of them by
`last`. -/
def getFields (walk last : Walk) (layout : Nat) (site : Site ScopeId) :
    Nat → List Descriptor → Array Value → Unmarshalling (Array Value)
  | _, [], slots => return slots
  | index, d :: ds, slots => do
    if d.isField then
      let v ← if ds.any Descriptor.isField then walk d site else last d site
      setField site.scope index v.toInt?
      let slot ← env.interface.layout.slot layout index
      getFields walk last layout site (index + 1) ds (slots.setIfInBounds slot v)
    else
      let _ ← walk d site
      getFields walk last layout site index ds slots

/-- Read the fields of a struct of `count` slots, whose scope is complete after them. -/
def getBody (walk last : Walk) (align layout count : Nat) (fields : List Descriptor)
    (site : Site ScopeId) : Unmarshalling Value := do
  fetch (Reader.align align)
  let slots ← getFields env walk last layout site 0 fields (Array.replicate count .void)
  verifyLate site.scope
  return .struct slots.toList

/-- A new scope for a struct of `count` fields. -/
def openStruct (count : Nat) (site : Site ScopeId) : Unmarshalling (Site ScopeId) := do
  let scope ← openScope (Array.replicate count none)
  return { site with scope, embedded := true }

/-- Read the end of a struct whose array has these extents, through at most `levels` structs. -/
def getTail (walk : Walk) (extents : List Nat) : Nat → Walk
  | levels, d, site =>
    match d.form with
    | .array kind _ dims definition =>
      if kind.isConformant then
        getArray env walk d.modifiers kind dims definition site (some extents)
      else walk d site
    | .struct kind _ definition =>
      if kind = .fixed then walk d site
      else
        match levels with
        | 0 => throw (.nestingTooDeep env.config.maxNesting d.offset)
        | levels + 1 => do
          let s ← env.vector.structDefinition definition
          let count ← env.interface.layout.slotCount s.layout
          let inner ← openStruct count site
          getBody env walk (getTail walk extents levels) s.align s.layout count s.fields inner
    | _ => walk d site

/-! ### Structs -/

/-- Read a struct. -/
def getStruct (walk : Walk) (kind : StructKind) (definition : Nat) (site : Site ScopeId) :
    Unmarshalling Value := do
  let d ← env.vector.structDefinition definition
  let count ← env.interface.layout.slotCount d.layout
  let inner ← openStruct count site
  if kind = .fixed then getBody env walk walk d.align d.layout count d.fields inner
  else
    let (dims, v1) ← hoistedDims env d
    let extents ← getExtents env dims (kind = .v1Conformant ∨ v1)
    let last := getTail env walk extents env.config.maxNesting
    getBody env walk last d.align d.layout count d.fields inner

/-- Read a struct whose fields stand in the descriptor of its parent. -/
def getNested (walk : Walk) (align layout : Nat) (fields : List Descriptor)
    (site : Site ScopeId) : Unmarshalling Value := do
  let count ← env.interface.layout.slotCount layout
  let inner ← openStruct count site
  getBody env walk walk align layout count fields inner

end Ndr.Unmarshal
