import Ndr.Routine.Basic

/-!
Plain conversions: none at all, the negated number, a struct of one slot for its content, and
conversions that fail in one direction.
-/

namespace Ndr

namespace Routine

/-- The failure of the routine with some index on a value. -/
def cannotConvert (index : Nat) (v : Value) : Fault :=
  .routineFailed index ("cannot convert " ++ v.kind.name)

def identity : Routine where
  toWire _ v := .ok v
  fromWire _ v := .ok v

/-- The negated long; the least one stays as it is. -/
def negated (index : Nat) : Value → Except Fault Value
  | .long n => .ok (.long (-n))
  | v => .error (cannotConvert index v)

def negate (index : Nat) : Routine where
  toWire _ := negated index
  fromWire _ := negated index

/-- A struct of one slot travels as its content. -/
def wrap (index : Nat) : Routine where
  toWire _
    | .struct [v] => .ok v
    | v => .error (cannotConvert index v)
  fromWire _ v := .ok (.struct [v])

def failToWire (index : Nat) : Routine where
  toWire _ v := .error (cannotConvert index v)
  fromWire _ v := .ok v

def failFromWire (index : Nat) : Routine where
  toWire _ v := .ok v
  fromWire _ v := .error (cannotConvert index v)

end Routine

end Ndr
