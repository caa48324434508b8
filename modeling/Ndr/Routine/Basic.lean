import Ndr.Fault

/-!
Conversion routines: an application turns a value into the one that travels, and back, and
releases values of either kind. Every call is kept.
-/

namespace Ndr

/-- A call of the routine with some index, and whether it succeeded. -/
inductive Routine.Call where
  | toWire (index : Nat) (value : Value) (succeeded : Bool)
  | fromWire (index : Nat) (value : Value) (succeeded : Bool)
  /-- Release the host's value. -/
  | freeInstance (index : Nat) (value : Value)
  /-- Release the value that travelled. -/
  | freeWire (index : Nat) (value : Value)

/-- A conversion. What it does may depend on all earlier calls, newest first. -/
structure Routine where
  toWire : List Routine.Call → Value → Except Fault Value
  fromWire : List Routine.Call → Value → Except Fault Value

namespace Routine

def Call.isToWire (index : Nat) : Call → Bool
  | toWire i _ _ => i == index
  | _ => false

def Call.isFromWire (index : Nat) : Call → Bool
  | fromWire i _ _ => i == index
  | _ => false

def Call.isFreeInstance (index : Nat) : Call → Bool
  | freeInstance i _ => i == index
  | _ => false

def Call.isFreeWire (index : Nat) : Call → Bool
  | freeWire i _ => i == index
  | _ => false

/-- Whether a computation gave a value. -/
def succeeded {α : Type} : Except Fault α → Bool
  | .ok _ => true
  | .error _ => false

end Routine

end Ndr
