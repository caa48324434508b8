import Ndr.Marshal.Basic
import Ndr.Shape
import Ndr.TypeVector.Check

/-!
Writing arrays: the shape of a host array from its bounds, the counts that travel, and the
elements.
-/

namespace Ndr.Marshal

variable (env : Env)

/-! ### Shapes -/

/-- A bound that a field or the definition gives. -/
def boundValue (b : Bound) (scope : Scope) : Except Fault Int := do
  match ← b.resolve scope with
  | .value v => return v
  | .fromString | .late | .unknown => throw (.correlationUnavailable b.field)

/-- A count that the text of a string gives. -/
def stringCount (d : ArrayDefinition) (text : Option Nat) : Except Fault Nat :=
  match text with
  | some n => .ok n
  | none => .error (.invalidDescriptor d.offset .stringBound)

/-- The part that is sent of a dimension of `extent` elements. -/
def partOf (d : ArrayDefinition) (text : Option Nat) (scope : Scope) (lower : Int) (extent : Nat)
    (limits : BoundPair) : Except Fault (Nat × Nat) := do
  let first ← if limits.lower.kind = .string then pure 0
    else do
      let v ← boundValue limits.lower scope
      countOf v lower v
  let length ← if limits.upper.kind = .string then stringCount d text
    else if limits.upper.kind = .upperConf then
      if first ≤ extent then pure (extent - first)
      else throw (.conformanceMismatch extent first 0)
    else do lengthOf limits.upper.kind first (← boundValue limits.upper scope)
  return (first, length)

/-- A dimension of a host array. -/
def spanOf (d : ArrayDefinition) (text : Option Nat) (scope : Scope) (dim : Dimension) :
    Except Fault Span := do
  let lower ← boundValue dim.bounds.lower scope
  let extent ← if dim.bounds.upper.kind = .string then stringCount d text
    else do extentOf dim.bounds.upper.kind lower (← boundValue dim.bounds.upper scope)
  let (first, length) ← match dim.limits with
    | none => pure (0, extent)
    | some limits => partOf d text scope lower extent limits
  if extent < first + length then throw (.conformanceMismatch extent first length)
  return { extent, first, length }

/-- The shape of an array of these elements. A string may be shorter than its array. -/
def shapeOf (d : ArrayDefinition) (kind : ArrayKind) (isString : Bool) (elements : List Value)
    (scope : Scope) : Except Fault Shape := do
  d.checkBounds kind
  let text ← if isString then do
      let _ ← d.characterKind
      pure (some (Value.transmitCount elements))
    else pure none
  let shape : Shape ← d.dimensions.mapM (spanOf d text scope)
  if !isString then
    let total ← Shape.total shape
    if elements.length < total then throw (.arraySizeMismatch total elements.length)
  return shape

/-- The definition of an array and the elements of its value. -/
def arrayParts (kind : ArrayKind) (dims definition : Nat) (v : Value) :
    Except Fault (ArrayDefinition × List Value) := do
  let d ← env.vector.arrayDefinition definition kind.isVarying
  d.checkDims dims
  match v with
  | .array elements => return (d, elements)
  | v => throw (.typeMismatch .array v.kind)

/-! ### Counts -/

/-- A count of 16 bits, or of 32. -/
def putSize (v1 : Bool) (n : Nat) : Marshalling Unit := do
  if v1 then
    if 2 ^ 16 ≤ n then throw .integerOverflow
    put (Writer.putAligned env.order 2 n)
  else
    if 2 ^ 32 ≤ n then throw .integerOverflow
    putCount env n

/-- The number of elements of every dimension. -/
def putExtents (shape : Shape) (v1 : Bool) : Marshalling Unit :=
  shape.forM fun d => putSize env v1 d.extent

/-- The range that is sent of every dimension; 16-bit counts leave no room for its start. -/
def putRanges (shape : Shape) (v1 : Bool) : Marshalling Unit :=
  shape.forM fun d => do
    if v1 then
      if d.first ≠ 0 then throw (.conformanceMismatch d.extent d.first d.length)
      putSize env v1 d.length
    else
      if 2 ^ 32 ≤ d.first ∨ 2 ^ 32 ≤ d.length then throw .integerOverflow
      putCount env d.first
      putCount env d.length

/-! ### Elements -/

/-- Write elements of one byte as a run; false where they are no such elements. -/
def putByteRun (element : Descriptor) (elements : List Value) : Marshalling Bool := do
  match element.byteElement? with
  | none => return false
  | some kind =>
    let bytes := elements.filterMap kind.byteOf?
    if bytes.length ≠ elements.length then return false
    kind.checkRepresentation env.representation
    put (Writer.putRun bytes)
    return true

/-- Write elements one after another, as a run of bytes where they allow it. -/
def putElements (walk : Walk) (element : Descriptor) (elements : List Value) (site : Site Scope) :
    Marshalling Unit := do
  if !(← putByteRun env element elements) then
    elements.forM fun v => walk element v site

/-- Write the elements that are sent. -/
def putPart (walk : Walk) (element : Descriptor) (shape : Shape) (elements : List Value)
    (site : Site Scope) : Marshalling Unit := do
  match shape.contiguous? with
  | some (start, count) =>
    let run := (elements.drop start).take count
    if run.length < count then throw (.arraySizeMismatch (start + count) elements.length)
    putElements env walk element run site
  | none =>
    let cells := elements.toArray
    shape.foldIndices (fun _ place => do
      match cells[place]? with
      | some v => walk element v site
      | none => throw (.arraySizeMismatch (place + 1) cells.size)) ()

/-- Write the text of a string and its terminator. -/
def putString (walk : Walk) (d : ArrayDefinition) (elements : List Value) (site : Site Scope) :
    Marshalling Unit := do
  let kind ← d.characterKind
  putElements env walk d.element (Value.textOf elements) site
  walk d.element kind.zero site

/-- Write an array. Where its extents were written ahead of an enclosing struct, its shape is
given. -/
def putArray (walk : Walk) (modifiers : Modifiers) (kind : ArrayKind) (dims definition : Nat)
    (v : Value) (site : Site Scope) (preset : Option Shape) : Marshalling Unit := do
  let (d, elements) ← arrayParts env kind dims definition v
  let shape ← match preset with
    | some shape => pure shape
    | none =>
      let shape ← shapeOf d kind modifiers.isString elements site.scope
      if kind.isConformant then putExtents env shape modifiers.isV1
      pure shape
  if kind.isVarying then putRanges env shape modifiers.isV1
  if modifiers.isString then putString env walk d elements site.inside
  else putPart env walk d.element shape elements site.inside

end Ndr.Marshal
