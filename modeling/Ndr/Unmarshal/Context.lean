import Ndr.Unmarshal.Basic

/-!
Reading contexts. The side that made a context finds it under its token; the other side holds the
token under a handle of its own, until the null token comes in its place.
-/

namespace Ndr.Unmarshal

variable (env : Env)

/-- An unused word and a token. -/
def getToken (order : ByteOrder) : Fetch Uuid := do
  let _ ← Reader.getCount order
  let first ← Reader.getCount order
  let second ← Reader.getWord order 2
  let third ← Reader.getWord order 2
  let tail ← Reader.getRun 8
  return { first := UInt32.ofNat first, second := UInt16.ofNat second, third := UInt16.ofNat third
           tail := UInt64.ofNat (ByteOrder.big.decode tail) }

/-- The context of a server under a token; an input has to be one. -/
def resolveContext (registry : Registry) (direction : ContextDirection) (u : Uuid) :
    Except Fault (Option ContextHandle) :=
  if u = .null then
    if direction = .input then .error (.contextMismatch u) else .ok none
  else
    match registry.resolve? u with
    | some h => .ok (some h)
    | none => .error (.contextMismatch u)

/-- The context that a client holds for a token from now on. -/
def adoptContext (registry : Registry) (held : Option ContextHandle) (u : Uuid) :
    Unmarshalling (Option ContextHandle) := do
  if u = .null then
    modify fun s => { s with closed := held.toList ++ s.closed }
    return none
  else
    let (h, contexts) := registry.adopt u
    if (registry.resolve? u).isNone then
      modify fun s => { s with contexts := some contexts, adopted := h :: s.adopted }
    return some h

/-- Read a context in place of the one that is held. -/
def getContext (direction : ContextDirection) (current : Value) : Unmarshalling Value := do
  match (← get).contexts with
  | none => throw .missingRegistry
  | some registry =>
    let u ← fetch (getToken env.order)
    match env.side with
    | .server => return .context (← resolveContext registry direction u)
    | .client => return .context (← adoptContext registry current.context?.toOption.join u)

end Ndr.Unmarshal
