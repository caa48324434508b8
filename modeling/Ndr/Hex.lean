/-!
Numbers in hexadecimal digits of a fixed width.
-/

namespace Ndr

/-- The digit that stands for a number below sixteen. -/
def hexDigit (n : Nat) : Char := if n < 10 then Char.ofNat (48 + n) else Char.ofNat (87 + n)

/-- The number that a digit of either case stands for. -/
def hexDigit? (c : Char) : Option Nat :=
  if '0' ≤ c ∧ c ≤ '9' then some (c.toNat - 48)
  else if 'a' ≤ c ∧ c ≤ 'f' then some (c.toNat - 87)
  else if 'A' ≤ c ∧ c ≤ 'F' then some (c.toNat - 55)
  else none

/-- The `width` low digits of a number, ahead of `rest`. -/
def hexDigitsAux : Nat → Nat → List Char → List Char
  | 0, _, rest => rest
  | width + 1, n, rest => hexDigitsAux width (n / 16) (hexDigit (n % 16) :: rest)

/-- The `width` low digits of a number. -/
def hexText (width n : Nat) : String := String.ofList (hexDigitsAux width n [])

/-- The number that a run of digits stands for. -/
def hexValue? (cs : List Char) : Option Nat :=
  cs.foldl (fun acc c => do return 16 * (← acc) + (← hexDigit? c)) (some 0)

theorem hexDigit?_hexDigit {n : Nat} (h : n < 16) : hexDigit? (hexDigit n) = some n := by
  have : ∀ m : Fin 16, hexDigit? (hexDigit m) = some m.val := by decide
  exact this ⟨n, h⟩

end Ndr
