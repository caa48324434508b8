import Ndr.TypeVector.Definition
import Ndr.Unmarshal.Basic

/-!
Reading unions: the discriminant selects the arm that follows.
-/

namespace Ndr.Unmarshal

variable (env : Env)

/-- Read the arm that a discriminant selects. -/
def getArm (walk : Walk) (u : UnionDefinition) (switch : Int) (site : Site ScopeId) :
    Unmarshalling Value := do
  match ← env.vector.findArm u switch with
  | none => if u.optional then return .void else throw (.noMatchingArm switch)
  | some arm =>
    match arm.body with
    | .empty | .absent => return .void
    | .stream offset => walk (← env.vector.stream offset) site

/-- Read a union. -/
def getUnion (walk : Walk) (definition : Nat) (field : Option Nat) (site : Site ScopeId) :
    Unmarshalling Value := do
  let u ← env.vector.unionDefinition definition
  let v ← fetch (Reader.getScalar env.representation u.switch)
  match v.toInt? with
  | none => throw (.invalidDescriptor definition .switchNotIntegral)
  | some switch =>
    match field with
    | none => pure ()
    | some field => checkBound (.ofSwitch field) switch site.scope
    fetch (Reader.align u.align)
    let arm ← getArm env walk u switch site.inside
    return .union (Int64.ofInt switch) arm

end Ndr.Unmarshal
