import Ndr.TypeVector.Check
import Ndr.Unmarshal.Basic

/-!
The zero of a type: what stands for an element that is not sent.
-/

namespace Ndr.Unmarshal

variable (env : Env)

/-- The number of elements between constant bounds. -/
def constantExtent (b : BoundPair) : Except Fault Nat :=
  if b.isConstant then extentOf b.upper.kind b.lower.constant b.upper.constant
  else .error (.invalidDescriptor 0 .correlatedFixed)

/-- The number of elements of an array with constant bounds, behind that of earlier
dimensions. -/
def constantTotal : List Dimension → Nat → Except Fault Nat
  | [], total => .ok total
  | d :: ds, total => do
    let extent ← constantExtent d.bounds
    if 2 ^ 64 ≤ total * extent then throw .integerOverflow
    constantTotal ds (total * extent)

/-- Put the zero of every field into its slot, from the number `index` on. -/
def zeroFields (zero : Descriptor → Except Fault Value) (layout : Nat) :
    Nat → List Descriptor → Array Value → Except Fault (Array Value)
  | _, [], slots => .ok slots
  | index, d :: ds, slots => do
    let slot ← env.interface.layout.slot layout index
    zeroFields zero layout (index + 1) ds (slots.setIfInBounds slot (← zero d))

def zeroStruct (zero : Descriptor → Except Fault Value) (layout : Nat)
    (fields : List Descriptor) : Except Fault Value := do
  let count ← env.interface.layout.slotCount layout
  let slots ← zeroFields env zero layout 0 (fields.filter Descriptor.isField)
    (Array.replicate count .void)
  return .struct slots.toList

/-- The zero of an array whose size does not travel. -/
def zeroArray (zero : Descriptor → Except Fault Value) (definition : Nat) (varying : Bool) :
    Except Fault Value := do
  let d ← env.vector.arrayDefinition definition varying
  let total ← constantTotal d.dimensions 1
  checkCount env total
  return .array (List.replicate total (← zero d.element))

/-- The zero of a type; types stand one within another at most `fuel` deep. -/
def zeroFrom : Nat → Descriptor → Except Fault Value
  | 0, d => .error (.endlessType d.offset)
  | fuel + 1, d =>
    match d.form with
    | .scalar kind => .ok kind.zero
    | .pointer .. | .ignore => .ok (.pointer none)
    | .struct _ _ definition => do
      let s ← env.vector.structDefinition definition
      zeroStruct env (zeroFrom fuel) s.layout s.fields
    | .nested _ layout fields => zeroStruct env (zeroFrom fuel) layout fields
    | .array kind _ _ definition =>
      if kind.isConformant then .ok (.array [])
      else zeroArray env (zeroFrom fuel) definition kind.isVarying
    | .encapsulatedUnion .. | .switchedUnion .. => .ok (.union 0 .void)
    | .context _ => .ok (.context none)
    | .converted .. | .pipe .. | .align _ | .deletedNodes | .void | .unhosted _ => .ok .void

/-- The zero of a type. A type that does not contain itself has a descriptor at another offset
on every level. -/
def zeroValue (d : Descriptor) : Except Fault Value := zeroFrom env (env.vector.size + 1) d

end Ndr.Unmarshal
