import Ndr.Fault
import Ndr.TypeVector.Bound

/-!
Correlation: bounds that come from the other fields of a scope. The fields of a struct value
form a scope, and so do the parameters of an operation. A bound that is read is compared with
its field, or kept until the scope is complete.
-/

namespace Ndr

/-! ### Operators -/

/-- An integer, if it has 64 bits with a sign. -/
def checked (v : Int) : Except Fault Int :=
  if FitsInt64 v then .ok v else .error .integerOverflow

/-- The least multiple of `n` from `v` on. -/
def roundUp (n v : Int) : Except Fault Int := do
  let w ← checked (v + (n - 1))
  return w / n * n

/-- What an operator makes of the value of a field. Division drops the fraction. -/
def applyOperator (operator : UInt8) (v : Int) : Except Fault Int :=
  match operator.toNat with
  | 0 | 13 => .ok v
  | 1 => .ok (v.tdiv 2)
  | 2 => checked (v * 2)
  | 3 => checked (v + 1)
  | 4 => checked (v - 1)
  | 5 => roundUp 2 v
  | 6 => roundUp 4 v
  | 7 => roundUp 8 v
  | 9 => .ok (v.tdiv 4)
  | 10 => checked (v * 4)
  | 11 => .ok (v.tdiv 8)
  | 12 => checked (v * 8)
  | _ => .error (.unsupportedConversion operator)

/-! ### Scopes -/

/-- The integers of a scope by field, `none` for a field that is not known, or no integer. -/
abbrev Scope := Array (Option Int)

namespace Scope

def get? (s : Scope) (field : Nat) : Option Int := s[field]?.join

/-- The scope with the value of a field, behind unknown fields where it had none. -/
def insert (s : Scope) (field : Nat) (v : Int) : Scope :=
  (s ++ Array.replicate (field + 1 - s.size) none).setIfInBounds field (some v)

theorem get?_insert (s : Scope) (field other : Nat) (v : Int) :
    (s.insert field v).get? other = if other = field then some v else s.get? other := by
  simp only [get?, insert, Array.getElem?_setIfInBounds, Array.getElem?_append,
    Array.getElem?_replicate, Array.size_append, Array.size_replicate]
  by_cases h : field = other
  · subst h
    simp only [ite_true]
    rw [if_pos (by omega)]
    rfl
  · simp only [h, ite_false, Ne.symm h]
    by_cases hs : other < s.size
    · simp [hs]
    · rw [if_neg hs, Array.getElem?_eq_none (by omega)]
      split <;> rfl

end Scope

/-! ### Bounds -/

/-- What is known of a bound. -/
inductive Resolution where
  | value (v : Int)
  /-- The text of a string gives it. -/
  | fromString
  /-- Its field has not been read yet. -/
  | late
  /-- Nothing gives it. -/
  | unknown
  deriving DecidableEq

namespace Bound

/-- What is known of a bound in a scope. A field that has to come early must be there. -/
def resolve (b : Bound) (s : Scope) : Except Fault Resolution :=
  if b.kind = .string then .ok .fromString
  else if b.kind = .fixed then .ok (.value b.constant)
  else if b.kind = .upperConf ∨ b.hasFlag BoundFlag.interfaceId then .ok .unknown
  else
    match s.get? b.field with
    | some v => return .value (← applyOperator b.operator v)
    | none =>
      if b.hasFlag BoundFlag.early then .error (.correlationUnavailable b.field) else .ok .late

/-- Whether a bound that is read is compared with its field. -/
def isChecked (b : Bound) : Bool :=
  b.kind ≠ .fixed ∧ b.kind ≠ .string ∧ b.kind ≠ .upperConf ∧ !b.hasFlag BoundFlag.unchecked ∧
    !b.hasFlag BoundFlag.interfaceId

/-- The bound by the field that selects the arm of a union. -/
def ofSwitch (field : Nat) : Bound := ⟨.maxIs, 0, 0, 0, UInt32.ofNat field⟩

end Bound

/-- The number of a scope in an operation. -/
abbrev ScopeId := Nat

/-- A bound that was read ahead of its field. -/
structure LateCheck where
  bound : Bound
  wire : Int
  deriving DecidableEq

/-- Compare a bound that was read with its field, once the scope is complete. -/
def LateCheck.verify (c : LateCheck) (s : Scope) : Except Fault Unit :=
  match s.get? c.bound.field with
  | some v => do
    let expected ← applyOperator c.bound.operator v
    if expected ≠ c.wire then throw (.correlationMismatch expected c.wire)
  | none => .error (.correlationUnavailable c.bound.field)

/-! ### Extents -/

/-- `upper - lower + 1`, step by step. -/
def checkedSpan (lower upper : Int) : Except Fault Int := do
  checked ((← checked (upper - lower)) + 1)

/-- A count that must not be negative. -/
def countOf (v lower upper : Int) : Except Fault Nat :=
  if 0 ≤ v then .ok v.toNat else .error (.invalidBound lower upper)

/-- The elements of a dimension with these bounds; the size of an array is their number. -/
def extentOf (kind : BoundKind) (lower upper : Int) : Except Fault Nat :=
  if kind = .sizeIs then countOf upper lower upper
  else do countOf (← checkedSpan lower upper) lower upper

/-- The elements of a dimension that are sent from `first` on. -/
def lengthOf (kind : BoundKind) (first upper : Int) : Except Fault Nat :=
  if kind = .lengthIs then countOf upper first upper
  else do countOf (← checkedSpan first upper) first upper

end Ndr
