import Ndr.Correlation
import Ndr.Proofs.Action

/-!
A machine with words of 64 bits. Its arithmetic and its indices are partial: where a result is no
word, or an index lies outside, it comes to a trap, which any fault may stand for. What the walks do
in such steps is stated beside them. That it is the same, whatever the trap, says that none is met.
-/

namespace Ndr

namespace Bounded

variable (trap : Fault) {α : Type}

/-! ### Words -/

/-- A number that must be a word. -/
def fit (n : Nat) : Except Fault Nat := if n < 2 ^ 64 then .ok n else .error trap

/-- A difference, which must not be negative. -/
def minus (m n : Nat) : Except Fault Nat := if n ≤ m then .ok (m - n) else .error trap

/-- An integer that must be a word with a sign. -/
def signed (v : Int) : Except Fault Int := if FitsInt64 v then .ok v else .error trap

/-- A quotient without its fraction. There is none by zero, and that of the least word by -1 is no
word. -/
def quotient (v d : Int) : Except Fault Int :=
  if d = 0 ∨ v = -2 ^ 63 ∧ d = -1 then .error trap else .ok (v.tdiv d)

theorem fit_eq {n : Nat} (h : n < 2 ^ 64) : fit trap n = .ok n := if_pos h

theorem minus_eq {m n : Nat} (h : n ≤ m) : minus trap m n = .ok (m - n) := if_pos h

theorem signed_eq {v : Int} (h : FitsInt64 v) : signed trap v = .ok v := if_pos h

/-- A divisor above zero always has a quotient. -/
theorem quotient_eq (v : Int) {d : Int} (h : 0 < d) : quotient trap v d = .ok (v.tdiv d) :=
  if_neg (by omega)

/-! ### Indices -/

/-- The item of a list at an index, which must lie within it. -/
def item (l : List α) (i : Nat) : Except Fault α :=
  match l[i]? with
  | some a => .ok a
  | none => .error trap

/-- The first items of a list, which must have so many. -/
def leading (l : List α) (n : Nat) : Except Fault (List α) :=
  if n ≤ l.length then .ok (l.take n) else .error trap

theorem item_eq {l : List α} {i : Nat} {a : α} (h : l[i]? = some a) : item trap l i = .ok a := by
  rw [item, h]

theorem leading_eq {l : List α} {n : Nat} (h : n ≤ l.length) : leading trap l n = .ok (l.take n) :=
  if_pos h

/-! ### Short lists in place -/

/-- The items that a list of dimensions keeps in place. -/
def inPlace : Nat := 7

/-- A list of dimensions: the first few stand in a table of that size, all of them on the heap where
there are more. -/
inductive Dims (α : Type)
  | inline (length : Nat) (items : List α)
  | heap (items : List α)

namespace Dims

/-- The table for a list of so many dimensions. -/
def withDims [Inhabited α] (n : Nat) : Dims α :=
  if n ≤ inPlace then .inline 0 (List.replicate inPlace default) else .heap []

def push (a : α) : Dims α → Except Fault (Dims α)
  | .inline length items => do
    if length < inPlace then
      let _ ← item trap items length
      return .inline (← fit trap (length + 1)) (items.set length a)
    else return .heap ((← leading trap items length) ++ [a])
  | .heap items => .ok (.heap (items ++ [a]))

def toList : Dims α → Except Fault (List α)
  | .inline length items => leading trap items length
  | .heap items => .ok items

/-- The list that was put together item by item. -/
def collect [Inhabited α] (n : Nat) (l : List α) : Except Fault (List α) := do
  toList trap (← l.foldlM (fun dims a => push trap a dims) (withDims n))

/-- What a table holds. -/
def Holds (l : List α) : Dims α → Prop
  | .inline length items => items.length = inPlace ∧ length ≤ inPlace ∧ items.take length = l
  | .heap items => items = l

variable {l : List α} {dims : Dims α}

theorem holds_withDims [Inhabited α] (n : Nat) : Holds [] (withDims n : Dims α) := by
  unfold withDims
  split
  · exact ⟨List.length_replicate, Nat.zero_le _, List.take_zero⟩
  · exact rfl

theorem toList_eq (h : Holds l dims) : toList trap dims = .ok l := by
  cases dims with
  | inline length items =>
    obtain ⟨hitems, hlength, rfl⟩ := h
    exact leading_eq trap (hitems ▸ hlength)
  | heap items => exact congrArg Except.ok h

theorem push_eq (a : α) (h : Holds l dims) :
    ∃ dims', push trap a dims = .ok dims' ∧ Holds (l ++ [a]) dims' := by
  cases dims with
  | heap items => exact ⟨_, rfl, congrArg (· ++ [a]) h⟩
  | inline length items =>
    obtain ⟨hitems, hlength, rfl⟩ := h
    rw [push]
    by_cases hroom : length < inPlace
    · have hat : items[length]? = some items[length] := List.getElem?_eq_getElem (hitems ▸ hroom)
      have hword : length + 1 < 2 ^ 64 := Nat.lt_of_le_of_lt hroom (by decide)
      rw [if_pos hroom, item_eq trap hat, fit_eq trap hword]
      refine ⟨_, rfl, by rw [List.length_set, hitems], hroom, ?_⟩
      rw [List.take_add_one, List.take_set_of_le (Nat.le_refl _)]
      simp [hitems, hroom]
    · rw [if_neg hroom, leading_eq trap (hitems ▸ hlength)]
      exact ⟨_, rfl, rfl⟩

/-- A list of dimensions is put together without a trap. -/
theorem collect_eq [Inhabited α] (n : Nat) (l : List α) : collect trap n l = .ok l := by
  have hfrom : ∀ (l before : List α) (dims : Dims α), Holds before dims →
      ∃ dims', l.foldlM (fun dims a => push trap a dims) dims = .ok dims' ∧ Holds (before ++ l) dims' := by
    intro l
    induction l with
    | nil =>
      intro before dims h
      exact ⟨dims, rfl, by rwa [List.append_nil]⟩
    | cons a l ih =>
      intro before dims h
      obtain ⟨dims₁, hpush, h₁⟩ := push_eq trap a h
      obtain ⟨dims₂, hrest, h₂⟩ := ih _ _ h₁
      refine ⟨dims₂, ?_, by rwa [List.append_assoc] at h₂⟩
      rw [List.foldlM_cons, hpush]
      exact hrest
  obtain ⟨dims, hfold, h⟩ := hfrom l [] _ (holds_withDims n)
  rw [collect, hfold]
  exact toList_eq trap h

end Dims

/-! ### Operators -/

/-- The least multiple of `n` from `v` on. -/
def roundUp (n v : Int) : Except Fault Int := do
  let w ← checked (v + (← signed trap (n - 1)))
  return w / n * n

/-- What an operator makes of the value of a field. -/
def applyOperator (operator : UInt8) (v : Int) : Except Fault Int :=
  match operator.toNat with
  | 0 | 13 => .ok v
  | 1 => quotient trap v 2
  | 2 => checked (v * 2)
  | 3 => checked (v + 1)
  | 4 => checked (v - 1)
  | 5 => roundUp trap 2 v
  | 6 => roundUp trap 4 v
  | 7 => roundUp trap 8 v
  | 9 => quotient trap v 4
  | 10 => checked (v * 4)
  | 11 => quotient trap v 8
  | 12 => checked (v * 8)
  | _ => .error (.unsupportedConversion operator)

theorem roundUp_eq {n : Int} (h : FitsInt64 (n - 1)) (v : Int) : roundUp trap n v = Ndr.roundUp n v := by
  rw [roundUp, signed_eq trap h]
  rfl

/-- No operator comes to a trap, whatever the value. -/
theorem applyOperator_eq : applyOperator trap = Ndr.applyOperator := by
  funext operator v
  unfold applyOperator
  have hhalf := quotient_eq trap v (by decide : (0 : Int) < 2)
  have hquarter := quotient_eq trap v (by decide : (0 : Int) < 4)
  have heighth := quotient_eq trap v (by decide : (0 : Int) < 8)
  have htwo := roundUp_eq trap (by decide : FitsInt64 (2 - 1)) v
  have hfour := roundUp_eq trap (by decide : FitsInt64 (4 - 1)) v
  have height := roundUp_eq trap (by decide : FitsInt64 (8 - 1)) v
  split <;> simp_all only [Ndr.applyOperator]

end Bounded

end Ndr
