import Ndr.TypeVector.Definition
import Ndr.Unmarshal.Basic

/-!
Reading pointers. Every id stands for one cell, which is made where the id is met first and
entered before its contents are read, so that later ids and cycles lead to it.
-/

namespace Ndr.Unmarshal

variable (env : Env)

/-- Read the contents of a cell. -/
def getPointee (walk : Walk) (cell : CellId) (pointee : Nat) (site : Site ScopeId) :
    Unmarshalling Unit := do
  let d ← env.vector.stream pointee
  let v ← walk d { site with embedded := false }
  store cell v

/-- Read the contents of a cell where they have their place. -/
def placePointee (walk : Walk) (cell : CellId) (pointee : Nat) (site : Site ScopeId) :
    Unmarshalling Unit :=
  if site.embedded then defer { cell, pointee, scope := site.scope }
  else getPointee env walk cell pointee site

/-- Read a reference. -/
def getReference (walk : Walk) (pointee : Nat) (site : Site ScopeId) : Unmarshalling Value := do
  if site.embedded then let _ ← getCount env
  let cell ← allocate
  sight { id := none, pointee, cell }
  placePointee env walk cell pointee site
  return .pointer (some cell)

/-- Read a pointer. -/
def getPointer (walk : Walk) (kind : PointerKind) (pointee : Nat) (site : Site ScopeId) :
    Unmarshalling Value := do
  if kind = .ref then getReference env walk pointee site
  else
    let id ← getCount env
    if id = 0 then return .pointer none
    match (← get).nodes.cellOf? id with
    | some cell =>
      sight { id := some id, pointee, cell }
      return .pointer (some cell)
    | none =>
      let cell ← allocate
      register id cell
      sight { id := some id, pointee, cell }
      placePointee env walk cell pointee site
      return .pointer (some cell)

/-- Read pointees that were put off. Each is followed by those that are put off in it; they stand
at most `depth` deep. -/
def getDeferred (walk : Walk) : Nat → List (Deferred ScopeId) → Unmarshalling Unit
  | _, [] => return
  | 0, _ :: _ => throw .endlessReferences
  | depth + 1, d :: ds =>
    (d :: ds).forM fun d => do
      getPointee env walk d.cell d.pointee { scope := d.scope, embedded := false }
      getDeferred walk depth (← takeDeferred)

/-- Read all that was put off. A pointer that puts its pointee off takes bytes of the message. -/
def flush (walk : Walk) : Unmarshalling Unit := do
  let depth := (← get).reader.rest.length + 1
  getDeferred env walk depth (← takeDeferred)

end Ndr.Unmarshal
