import Ndr.Value.Basic

/-!
Text as arrays of characters: narrow text in the bytes of UTF-8, wide text in the units of
UTF-16.
-/

namespace Ndr

/-! ### Units of 16 bits -/

/-- The units of a character: one below `0x10000`, else a pair of surrogates. -/
def unitsOf (c : Char) : List UInt16 :=
  let n := c.toNat
  if n < 0x10000 then [UInt16.ofNat n]
  else [UInt16.ofNat (0xD800 + (n - 0x10000) / 0x400),
    UInt16.ofNat (0xDC00 + (n - 0x10000) % 0x400)]

/-- The characters of a run of units; a surrogate without its partner has none. -/
def charsOfUnits? : List UInt16 → Option (List Char)
  | [] => some []
  | u :: us =>
    if u < 0xD800 ∨ 0xE000 ≤ u then (charsOfUnits? us).map (Char.ofNat u.toNat :: ·)
    else if 0xDC00 ≤ u then none
    else match us with
      | [] => none
      | w :: ws =>
        if 0xDC00 ≤ w ∧ w < 0xE000 then
          (charsOfUnits? ws).map
            (Char.ofNat (0x10000 + (u.toNat - 0xD800) * 0x400 + (w.toNat - 0xDC00)) :: ·)
        else none

namespace Value

/-- A narrow string, without its terminator. -/
def ofText (s : String) : Value := .array (s.toUTF8.toList.map .char)

/-- A wide string, without its terminator. -/
def ofWideText (s : String) : Value := .array ((s.toList.flatMap unitsOf).map .ushort)

/-- The byte that a narrow character holds. -/
def narrow? : Value → Option UInt8
  | char c | byte c => some c
  | _ => none

/-- The unit that a wide character holds. -/
def wide? : Value → Option UInt16
  | ushort u => some u
  | _ => none

/-- The text of an array of characters. Where wide characters occur, only they count. -/
def toText? : Value → Option String
  | array elements =>
    if elements.all fun v => v.narrow?.isSome || v.wide?.isSome then
      let wide := elements.filterMap wide?
      if wide.isEmpty then String.fromUTF8? ⟨(elements.filterMap narrow?).toArray⟩
      else (charsOfUnits? wide).map String.ofList
    else none
  | _ => none

end Value

end Ndr
