import Ndr.Marshal.Basic
import Ndr.TypeVector.Definition

/-!
Writing unions: the discriminant, padding to the alignment of the arms, and the arm.
-/

namespace Ndr.Marshal

variable (env : Env)

/-- A union with a switch field has the discriminant that the field gives. -/
def checkSwitch (field : Option Nat) (switch : Int) (scope : Scope) : Except Fault Unit :=
  match field with
  | none => .ok ()
  | some field =>
    match scope.get? field with
    | none => .error (.correlationUnavailable field)
    | some v => if v = switch then .ok () else .error (.correlationMismatch v switch)

/-- The discriminant as a scalar of its type. -/
def discriminant (kind : Scalar) (switch : Int) : Except Fault Value :=
  match kind.ofInt? switch with
  | some v => .ok v
  | none => .error .integerOverflow

/-- Write the value of an arm. -/
def putArm (walk : Walk) (u : UnionDefinition) (switch : Int) (v : Value) (site : Site Scope) :
    Marshalling Unit := do
  match ← env.vector.findArm u switch with
  | none => if !u.optional then throw (.noMatchingArm switch)
  | some arm =>
    match arm.body with
    | .empty | .absent => return
    | .stream offset => walk (← env.vector.stream offset) v site

/-- Write a union. -/
def putUnion (walk : Walk) (definition : Nat) (field : Option Nat) (v : Value)
    (site : Site Scope) : Marshalling Unit := do
  let u ← env.vector.unionDefinition definition
  match v with
  | .union switch arm =>
    let switch := switch.toInt
    checkSwitch field switch site.scope
    put (Writer.putScalar env.representation u.switch (← discriminant u.switch switch))
    put (Writer.align u.align)
    putArm env walk u switch arm site.inside
  | v => throw (.typeMismatch .union v.kind)

end Ndr.Marshal
