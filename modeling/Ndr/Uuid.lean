import Ndr.Hex

/-!
The tokens that name contexts on the wire: 128 bits, of which the first three fields follow the
byte order of the message and the last eight bytes do not.
-/

namespace Ndr

structure Uuid where
  first : UInt32
  second : UInt16
  third : UInt16
  /-- The last eight bytes, the first of them most significant. -/
  tail : UInt64
  deriving DecidableEq, Inhabited

namespace Uuid

/-- The token of no context. -/
def null : Uuid := ⟨0, 0, 0, 0⟩

/-- The token as one number of 128 bits. -/
def toNat (u : Uuid) : Nat :=
  ((u.first.toNat * 2 ^ 16 + u.second.toNat) * 2 ^ 16 + u.third.toNat) * 2 ^ 64 + u.tail.toNat

def ofNat (n : Nat) : Uuid where
  first := UInt32.ofNat (n / 2 ^ 96)
  second := UInt16.ofNat (n / 2 ^ 80)
  third := UInt16.ofNat (n / 2 ^ 64)
  tail := UInt64.ofNat n

/-- The token in hyphenated groups of hexadecimal digits. -/
def text (u : Uuid) : String :=
  String.intercalate "-"
    [hexText 8 u.first.toNat, hexText 4 u.second.toNat, hexText 4 u.third.toNat,
      hexText 4 (u.tail.toNat / 2 ^ 48), hexText 12 u.tail.toNat]

/-- The token that five groups of 8, 4, 4, 4 and 12 digits spell. -/
def ofGroups? (cs : List Char) : Option Uuid :=
  match cs.splitOn '-' with
  | [a, b, c, d, e] =>
    if a.length = 8 ∧ b.length = 4 ∧ c.length = 4 ∧ d.length = 4 ∧ e.length = 12 then
      (hexValue? (a ++ b ++ c ++ d ++ e)).map ofNat
    else none
  | _ => none

/-- The token that a text spells: 32 digits, or groups of them, which may stand in braces or
after the name of their scheme. Letters count in either case, those of the scheme as well. -/
def ofText? (s : String) : Option Uuid :=
  let cs := s.toList
  let scheme := "urn:uuid:".toList
  if cs.length = 32 then (hexValue? cs).map ofNat
  else if cs.length = 45 ∧ (cs.take 9).map Char.toLower = scheme then ofGroups? (cs.drop 9)
  else if cs.length = 38 ∧ cs.head? = some '\x7b' ∧ cs.getLast? = some '\x7d' then
    ofGroups? (cs.drop 1).dropLast
  else ofGroups? cs

end Uuid

end Ndr
