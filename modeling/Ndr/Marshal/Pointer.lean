import Ndr.Marshal.Basic
import Ndr.TypeVector.Definition

/-!
Writing pointers: the id of the cell, and its contents where it is met first. The contents stand
behind a pointer of a parameter, and behind the whole parameter for an embedded pointer. A
reference has no id; an embedded one leaves a mark.
-/

namespace Ndr.Marshal

variable (env : Env)

/-- The mark of an embedded reference. -/
def referenceMark : Nat := 0x00020000

/-- Write the contents of a cell. -/
def putPointee (walk : Walk) (cell : CellId) (pointee : Nat) (site : Site Scope) :
    Marshalling Unit := do
  let d ← env.vector.stream pointee
  let v ← env.heap.load cell
  walk d v { site with embedded := false }

/-- Write the contents of a cell where they have their place. -/
def placePointee (walk : Walk) (cell : CellId) (pointee : Nat) (site : Site Scope) :
    Marshalling Unit :=
  if site.embedded then defer { cell, pointee, scope := site.scope }
  else putPointee env walk cell pointee site

/-- Write a pointer. -/
def putPointer (walk : Walk) (kind : PointerKind) (pointee : Nat) (v : Value)
    (site : Site Scope) : Marshalling Unit := do
  match v with
  | .pointer target =>
    match kind, target with
    | .ref, none => throw .nullReference
    | .ref, some cell =>
      if site.embedded then putCount env referenceMark
      placePointee env walk cell pointee site
    | _, none => putCount env 0
    | _, some cell =>
      match ← sight cell with
      | .again id => putCount env id
      | .first id =>
        putCount env id
        placePointee env walk cell pointee site
  | v => throw (.typeMismatch .pointer v.kind)

/-- Write pointees that were put off. Each is followed by those that are put off in it; references
lead at most `depth` cells on. -/
def putDeferred (walk : Walk) : Nat → List (Deferred Scope) → Marshalling Unit
  | _, [] => return
  | 0, _ :: _ => throw .endlessReferences
  | depth + 1, d :: ds =>
    (d :: ds).forM fun d => do
      putPointee env walk d.cell d.pointee { scope := d.scope, embedded := false }
      putDeferred walk depth (← takeDeferred)

/-- How many cells references lead on in a message: a pointee put off is known by its cell, its type
and the struct that its scope comes from, and where references go round, each is put off behind bytes
of a message, whose positions are 64-bit words. -/
def referenceDepth : Nat :=
  (env.heap.allocations + 1) ^ 3 * (env.vector.size + 1) ^ 2 + 2 ^ 64

/-- Write all that was put off. -/
def flush (walk : Walk) : Marshalling Unit := do
  putDeferred env walk (referenceDepth env) (← takeDeferred)

end Ndr.Marshal
