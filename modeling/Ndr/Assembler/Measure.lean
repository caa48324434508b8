import Ndr.Assembler.Basic

/-!
What the assembler asks of a type before it is laid down: its alignment, its properties, and the
conformant array at the end of a struct. Each looks through structs by value, at most as deep as
types may nest, so a struct that contains itself by value is found.
-/

namespace Ndr

namespace Assembler

/-- The types that may be open one within another. -/
def maxNesting : Nat := 64

variable (a : Assembler)

/-! ### Alignment -/

/-- The largest alignment of some types, under `align`. -/
def largestAlign (align : TypeSpec → Except Fault Nat) (specs : List TypeSpec) :
    Except Fault Nat :=
  specs.foldlM (fun largest spec => return max largest (← align spec)) 1

/-- The alignment of a type that nests at most `room - 1` deep. -/
def alignOf : Nat → TypeSpec → Except Fault Nat
  | 0, _ => .error (a.fault .containsItself)
  | room + 1, spec =>
    match spec with
    | .scalar kind | .range kind _ _ => .ok kind.size
    | .struct id => do largestAlign (alignOf room) (← a.structSpec id).fields
    | .nested s => largestAlign (alignOf room) s.fields
    | .array s => do
      let element ← alignOf room s.element
      return if s.kind.isVarying then max element (if s.v1 then 2 else 4) else element
    | .union u => return max u.switch.size (← largestAlign (alignOf room) u.armTypes)
    | .converted _ _ inner | .freeRep _ inner => alignOf room inner
    | .pointer .. | .ignore | .pipe _ | .context _ | .deletedNodes => .ok 4
    | .align _ | .void | .opcode _ => .ok 1

/-! ### Properties -/

def scalarProps (kind : Scalar) : UInt8 :=
  match kind with
  | .char => Property.dependsOnCharacters
  | .float | .double => Property.dependsOnFloats
  | _ => if 1 < kind.size then Property.dependsOnIntegers else 0

/-- The properties of some types together. -/
def joinProps (props : TypeSpec → Except Fault UInt8) (first : UInt8) (specs : List TypeSpec) :
    Except Fault UInt8 :=
  specs.foldlM (fun all spec => return all ||| (← props spec)) first

/-- The properties of a type that nests at most `room - 1` deep. -/
def propsOf : Nat → TypeSpec → Except Fault UInt8
  | 0, _ => .error (a.fault .containsItself)
  | room + 1, spec =>
    match spec with
    | .scalar kind | .range kind _ _ => .ok (scalarProps kind)
    | .struct id => do joinProps (propsOf room) 0 (← a.structSpec id).fields
    | .nested s => joinProps (propsOf room) 0 s.fields
    | .array s => do
      let element ← propsOf room s.element
      return if s.kind = .fixed then element else element ||| Property.dependsOnIntegers
    | .union u => joinProps (propsOf room) (scalarProps u.switch) u.armTypes
    | .pointer .. | .ignore => .ok (Property.hasPointers ||| Property.dependsOnIntegers)
    | .converted _ _ inner | .freeRep _ inner => propsOf room inner
    | .pipe element => return (← propsOf room element) ||| Property.dependsOnIntegers
    | .context _ | .deletedNodes => .ok Property.dependsOnIntegers
    | .align _ | .void | .opcode _ => .ok 0

/-! ### The array at the end of a struct -/

/-- The conformant array that ends a struct, itself or through at most `room` structs that end
it. -/
def trailingArray : Nat → StructSpec → Except Fault (Option ArraySpec)
  | 0, _ => .error (a.fault .containsItself)
  | room + 1, s =>
    match s.lastField? with
    | some (.array array) => .ok (if array.kind.isConformant then some array else none)
    | some (.struct id) => do trailingArray room (← a.structSpec id)
    | _ => .ok none

end Assembler

end Ndr
