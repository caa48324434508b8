import Ndr.Marshal.Basic

/-!
Writing contexts: an unused word and the token of the context, the null token for no context.
-/

namespace Ndr.Marshal

variable (env : Env)

/-- The token that stands for a context; an input has to be one. -/
def tokenOf (registry : Registry) (direction : ContextDirection) (h : Option ContextHandle) :
    Except Fault Uuid :=
  match h with
  | none => if direction = .input then .error (.contextMismatch .null) else .ok .null
  | some h =>
    match registry.token? h with
    | some u => .ok u
    | none => .error (.contextMismatch .null)

/-- Write a context. -/
def putContext (direction : ContextDirection) (v : Value) : Marshalling Unit := do
  match env.contexts with
  | none => throw .missingRegistry
  | some registry =>
    let u ← tokenOf registry direction (← v.context?)
    putCount env 0
    putCount env u.first.toNat
    put (Writer.putWord env.order 2 u.second.toNat)
    put (Writer.putWord env.order 2 u.third.toNat)
    put (Writer.putRun (ByteOrder.big.encode 8 u.tail.toNat))

end Ndr.Marshal
