import Ndr.Heap.Basic
import Ndr.Pairing

/-!
Equality of object graphs: two values are the same when they agree in shape and scalars and
their pointers lead to cells that agree in turn, one cell on each side standing for one cell on
the other throughout.
-/

namespace Ndr

/-- Equality of values without parts: scalars, floats by the numbers they stand for, and
handles. -/
def Value.sameLeaf : Value → Value → Bool
  | void, void => true
  | boolean a, boolean b => a == b
  | byte a, byte b => a == b
  | char a, char b => a == b
  | small a, small b => a == b
  | usmall a, usmall b => a == b
  | short a, short b => a == b
  | ushort a, ushort b => a == b
  | long a, long b => a == b
  | ulong a, ulong b => a == b
  | hyper a, hyper b => a == b
  | uhyper a, uhyper b => a == b
  | float a, float b => IeeeFormat.single.same a.toNat b.toNat
  | double a, double b => IeeeFormat.double.same a.toNat b.toNat
  | enum a, enum b => a == b
  | errorStatus a, errorStatus b => a == b
  | pointer none, pointer none => true
  | context a, context b => a == b
  | pipe a, pipe b => a == b
  | _, _ => false

namespace Heap

mutual

/-- The cells that stand for each other after two values agree, `none` where they do not.
Pointers are followed by `follow`. -/
def agree (follow : CellId → CellId → Pairing → Option Pairing) :
    Value → Value → Pairing → Option Pairing
  | .pointer (some a), .pointer (some b), p => follow a b p
  | .struct as, .struct bs, p => agreeAll follow as bs p
  | .array as, .array bs, p => agreeAll follow as bs p
  | .union s a, .union t b, p => if s = t then agree follow a b p else none
  | a, b, p => if a.sameLeaf b then some p else none

/-- The same for two lists, element by element. -/
def agreeAll (follow : CellId → CellId → Pairing → Option Pairing) :
    List Value → List Value → Pairing → Option Pairing
  | [], [], p => some p
  | a :: as, b :: bs, p =>
    match agree follow a b p with
    | some p' => agreeAll follow as bs p'
    | none => none
  | _, _, _ => none

end

/-- The pairs after two cells agree: cells already paired must be paired with each other, and
two new ones are paired before their contents are compared. At most `n` cells are entered one
within another. -/
def follow (h h' : Heap) : Nat → CellId → CellId → Pairing → Option Pairing
  | 0, _, _, _ => none
  | n + 1, a, b, p =>
    match p.right? a, p.left? b with
    | some b', _ => if b' = b then some p else none
    | none, some _ => none
    | none, none =>
      match h.load? a, h'.load? b with
      | some v, some w => agree (follow h h' n) v w (p.insert a b)
      | _, _ => none

/-- Whether `a` over `h` and `b` over `h'` are the same graph. A cell is entered once, so no
more cells are entered than `h` has. -/
def deepEq (h : Heap) (a : Value) (h' : Heap) (b : Value) : Bool :=
  (agree (follow h h' (h.cells.size + 1)) a b {}).isSome

end Heap

end Ndr
