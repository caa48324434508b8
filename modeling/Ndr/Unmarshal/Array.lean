import Ndr.Shape
import Ndr.Unmarshal.Zero

/-!
Reading arrays: the counts that travel, the shape they make up with the bounds, and the elements.
Elements that are not sent are zero.
-/

namespace Ndr.Unmarshal

variable (env : Env)

/-! ### Counts -/

/-- A count of 16 bits, or of 32. -/
def getSize (v1 : Bool) : Unmarshalling Nat :=
  if v1 then fetch (Reader.getAligned env.order 2) else getCount env

/-- The number of elements of every dimension. -/
def getExtents (dims : Nat) (v1 : Bool) : Unmarshalling (List Nat) := repeatM dims (getSize env v1)

/-! ### Shapes -/

/-- An integer of 64 bits, the nearest one for an integer that has more. -/
def saturate (v : Int) : Int := max (-2 ^ 63) (min v (2 ^ 63 - 1))

/-- The number of elements of a dimension: as it was read, or from its constant bounds. A lower
bound that is not known counts as zero. -/
def extentIn (scope : ScopeId) (b : BoundPair) (read : Option Nat) : Unmarshalling Nat := do
  let lower := match ← b.lower.resolve (← scopeOf scope) with
    | .value v => v
    | _ => 0
  match read with
  | none => extentOf b.upper.kind lower b.upper.constant
  | some n =>
    let upper := if b.upper.kind = .sizeIs then (n : Int) else saturate (lower + (n - 1))
    checkBound b.upper upper scope
    return n

/-- The number of elements of every dimension, from what was read of them. -/
def extentsIn (scope : ScopeId) (d : ArrayDefinition) (read : Option (List Nat)) :
    Unmarshalling (List Nat) :=
  match read with
  | none => d.dimensions.mapM fun dim => extentIn scope dim.bounds none
  | some counts => (d.dimensions.zip counts).mapM fun (dim, n) => extentIn scope dim.bounds (some n)

/-- Compare the range that is sent of a dimension with its limits. -/
def checkLimits (limits : BoundPair) (scope : ScopeId) (first length : Nat) :
    Unmarshalling Unit := do
  if limits.lower.kind = .firstIs then checkBound limits.lower first scope
  if limits.upper.kind = .lengthIs then checkBound limits.upper length scope
  else if limits.upper.kind = .lastIs then
    checkBound limits.upper ((first : Int) + length - 1) scope

/-- A dimension of a varying array. -/
def getSpan (v1 : Bool) (scope : ScopeId) (dim : Dimension) (extent : Nat) :
    Unmarshalling Span := do
  let first ← if v1 then pure 0 else getCount env
  let length ← getSize env v1
  if extent < first + length then throw (.conformanceMismatch extent first length)
  match dim.limits with
  | none => pure ()
  | some limits => checkLimits limits scope first length
  return { extent, first, length }

/-- The shape of an array with dimensions of these sizes. -/
def getShape (kind : ArrayKind) (v1 : Bool) (scope : ScopeId) (d : ArrayDefinition)
    (extents : List Nat) : Unmarshalling Shape :=
  if kind.isVarying then (d.dimensions.zip extents).mapM fun (dim, n) => getSpan env v1 scope dim n
  else return extents.map fun n => { extent := n, first := 0, length := n }

/-! ### Elements -/

/-- Read `n` elements, as a run of bytes where they are bytes. -/
def getElements (walk : Walk) (element : Descriptor) (n : Nat) (site : Site ScopeId) :
    Unmarshalling (List Value) := do
  checkCount env n
  match element.byteElement? with
  | some kind =>
    kind.checkRepresentation env.representation
    return (← fetch (Reader.getRun n)).map kind.ofByte
  | none => repeatM n (walk element site)

/-- The text ahead of the terminator of a string. -/
def stripTerminator (elements : List Value) : Except Fault (List Value) :=
  match elements.getLast? with
  | none => .error (.invalidString .empty)
  | some v =>
    if v.isTerminator then .ok elements.dropLast else .error (.invalidString .noTerminator)

/-- Read the text of a string. -/
def getString (walk : Walk) (element : Descriptor) (shape : Shape) (site : Site ScopeId) :
    Unmarshalling (List Value) :=
  match shape with
  | [] => return []
  | d :: _ => do
    if d.first ≠ 0 then throw (.invalidString (.atOffset d.first))
    stripTerminator (← getElements env walk element d.length site)

/-- Read the elements that are sent of an array of `total` elements; the others are zero. -/
def getPart (walk : Walk) (element : Descriptor) (shape : Shape) (total : Nat)
    (site : Site ScopeId) : Unmarshalling (List Value) := do
  let filled := total - (← shape.transmitted)
  if env.config.maxFilled < filled then throw (.tooManyElements filled env.config.maxFilled)
  let zero ← zeroValue env element
  let cells ← shape.foldIndices
    (fun cells place => return cells.setIfInBounds place (← walk element site))
    (Array.replicate total zero)
  return cells.toList

/-- Read an array. Where its extents were read ahead of an enclosing struct, they are given. -/
def getArray (walk : Walk) (modifiers : Modifiers) (kind : ArrayKind) (dims definition : Nat)
    (site : Site ScopeId) (preset : Option (List Nat)) : Unmarshalling Value := do
  let d ← env.vector.arrayDefinition definition kind.isVarying
  d.checkDims dims
  d.checkBounds kind
  if modifiers.isString then let _ ← d.characterKind
  let v1 := modifiers.isV1
  let read ← if !kind.isConformant then pure none
    else match preset with
      | some counts => pure (some counts)
      | none => some <$> getExtents env d.dimensions.length v1
  let extents ← extentsIn site.scope d read
  let total ← Shape.checkedProduct extents 1
  checkCount env total
  let shape ← getShape env kind v1 site.scope d extents
  let elements ←
    if modifiers.isString then getString env walk d.element shape site.inside
    else if shape.isFull then getElements env walk d.element total site.inside
    else getPart env walk d.element shape total site.inside
  return .array elements

end Ndr.Unmarshal
