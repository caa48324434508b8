/-!
Floating point numbers by their bits: the binary formats of IEEE 754, the equality under which
a NaN differs from itself and the two zeros are one, and the number nearest to an integer.
-/

namespace Ndr

/-- A binary interchange format: the widths of its exponent and of its fraction. -/
structure IeeeFormat where
  exponentBits : Nat
  fractionBits : Nat
  deriving DecidableEq

namespace IeeeFormat

/-- The format of 32 bits. -/
def single : IeeeFormat := ⟨8, 23⟩

/-- The format of 64 bits. -/
def double : IeeeFormat := ⟨11, 52⟩

variable (f : IeeeFormat)

/-- The place of the sign. -/
def signWeight : Nat := 2 ^ (f.exponentBits + f.fractionBits)

def bias : Nat := 2 ^ (f.exponentBits - 1) - 1

/-! ### Equality -/

/-- A datum that is no number: the exponent is all ones and the fraction is not zero. -/
def isNaN (bits : Nat) : Bool :=
  (2 ^ f.exponentBits - 1) * 2 ^ f.fractionBits < bits % f.signWeight

/-- A zero of either sign. -/
def isZero (bits : Nat) : Bool := bits % f.signWeight == 0

/-- Equality of the numbers that bits stand for. -/
def same (a b : Nat) : Bool :=
  !f.isNaN a && !f.isNaN b && (a == b || f.isZero a && f.isZero b)

theorem same_comm (a b : Nat) : f.same a b = f.same b a := by
  unfold same
  rw [Bool.and_comm (!f.isNaN a), Bool.and_comm (f.isZero a), BEq.comm (a := a)]

theorem same_self {a : Nat} (h : f.isNaN a = false) : f.same a a = true := by
  simp [same, h]

/-! ### Integers -/

/-- `n / 2 ^ shift` to the nearest integer, a half going to the even neighbour. -/
def roundShift (n shift : Nat) : Nat :=
  let q := n / 2 ^ shift
  let r := 2 * (n % 2 ^ shift)
  if 2 ^ shift < r ∨ r = 2 ^ shift ∧ q % 2 = 1 then q + 1 else q

/-- The bits of the number nearest to `n`. A significand that rounds up to a power of two
carries into the exponent. -/
def ofNat (n : Nat) : Nat :=
  if n = 0 then 0
  else
    let e := n.log2
    let significand :=
      if e ≤ f.fractionBits then n * 2 ^ (f.fractionBits - e) else roundShift n (e - f.fractionBits)
    (e + f.bias - 1) * 2 ^ f.fractionBits + significand

/-- The bits of the number nearest to an integer. -/
def ofInt : Int → Nat
  | .ofNat n => f.ofNat n
  | .negSucc n => f.signWeight + f.ofNat (n + 1)

end IeeeFormat

end Ndr
