import Mathlib.Algebra.GroupWithZero.Nat
import Ndr.Proofs.Blank
import Ndr.Proofs.Wire
import Ndr.Registry

/-!
Messages as fields. A step of the writer puts down padding, words and single bytes, and which ones
does not depend on the byte order: that only arranges the bytes of each word.
-/

namespace Ndr

/-! ### Fields -/

/-- A part of a message. -/
inductive Field where
  /-- Zeros ahead of an aligned word. -/
  | padding (n : Nat)
  /-- A number in `width` bytes. -/
  | word (width v : Nat)
  /-- Bytes that travel as they are. -/
  | bytes (bs : List UInt8)

namespace Field

/-- The bytes of a field in a message of some byte order. -/
def encode (order : ByteOrder) : Field → List UInt8
  | padding n => zeros n
  | word width v => order.encode width v
  | bytes bs => bs

/-- The sizes of the parts of a field whose bytes stay together: the width of a word, else one
byte. -/
def units : Field → List Nat
  | padding n => List.replicate n 1
  | word width _ => [width]
  | bytes bs => List.replicate bs.length 1

def size : Field → Nat
  | padding n => n
  | word width _ => width
  | bytes bs => bs.length

@[simp] theorem length_encode (order : ByteOrder) (f : Field) : (f.encode order).length = f.size := by
  cases f <;> simp [encode, size]

end Field

/-- The message that fields make up. -/
def encodeFields (order : ByteOrder) (fields : List Field) : List UInt8 :=
  fields.flatMap (Field.encode order)

@[simp] theorem encodeFields_nil (order : ByteOrder) : encodeFields order [] = [] := rfl

@[simp] theorem encodeFields_cons (order : ByteOrder) (f : Field) (fields : List Field) :
    encodeFields order (f :: fields) = f.encode order ++ encodeFields order fields := rfl

theorem encodeFields_append (order : ByteOrder) (fields fields' : List Field) :
    encodeFields order (fields ++ fields')
      = encodeFields order fields ++ encodeFields order fields' := List.flatMap_append

theorem length_encodeFields (order : ByteOrder) (fields : List Field) :
    (encodeFields order fields).length = (fields.map Field.size).sum := by
  simp [encodeFields, List.length_flatMap]

/-! ### Bytes reversed in place -/

/-- Bytes cut into units, the bytes of each in the other order; those behind the units stay. -/
def reverseUnits : List Nat → List UInt8 → List UInt8
  | [], bytes => bytes
  | n :: units, bytes => (bytes.take n).reverse ++ reverseUnits units (bytes.drop n)

theorem reverseUnits_append (units : List Nat) (unit bytes : List UInt8) :
    reverseUnits (unit.length :: units) (unit ++ bytes)
      = unit.reverse ++ reverseUnits units bytes := by
  simp [reverseUnits]

/-- Single bytes have no order. -/
theorem reverseUnits_ones (units : List Nat) (bs bytes : List UInt8) :
    reverseUnits (List.replicate bs.length 1 ++ units) (bs ++ bytes)
      = bs ++ reverseUnits units bytes := by
  induction bs with
  | nil => rfl
  | cons b bs ih =>
    calc reverseUnits (1 :: (List.replicate bs.length 1 ++ units)) ([b] ++ (bs ++ bytes))
        = [b].reverse ++ reverseUnits (List.replicate bs.length 1 ++ units) (bs ++ bytes) :=
          reverseUnits_append _ [b] _
      _ = b :: bs ++ reverseUnits units bytes := by rw [ih]; rfl

/-- In the other order a message has the bytes of each word reversed, where they are, and all else
as it is. -/
theorem encodeFields_big (fields : List Field) :
    encodeFields .big fields
      = reverseUnits (fields.flatMap Field.units) (encodeFields .little fields) := by
  induction fields with
  | nil => rfl
  | cons f fields ih =>
    rw [List.flatMap_cons, encodeFields_cons, encodeFields_cons, ih]
    cases f with
    | padding n =>
      have := reverseUnits_ones (fields.flatMap Field.units) (zeros n) (encodeFields .little fields)
      rw [List.length_replicate] at this
      exact this.symm
    | word width v =>
      have := reverseUnits_append (fields.flatMap Field.units) (ByteOrder.little.encode width v)
        (encodeFields .little fields)
      rw [ByteOrder.length_encode] at this
      exact this.symm
    | bytes bs => exact (reverseUnits_ones _ bs _).symm

/-! ### Steps of the writer -/

/-- The same representation with another byte order. -/
def Representation.inOrder (r : Representation) (order : ByteOrder) : Representation :=
  { r with integers := order }

namespace Writer

/-- What a message is written with. -/
inductive Step where
  | align (n : Nat)
  | scalar (kind : Scalar) (v : Value)
  /-- A count or a node id. -/
  | count (v : Nat)
  /-- A count of sixteen bits. -/
  | shortCount (v : Nat)
  /-- Bytes that may be cut where chunks end. -/
  | run (bytes : List UInt8)
  /-- A token, behind its unused word. -/
  | token (u : Uuid)

namespace Step

def perform (r : Representation) : Step → Put Unit
  | align n => Writer.align n
  | scalar kind v => putScalar r kind v
  | count v => putCount r.integers v
  | shortCount v => putAligned r.integers 2 v
  | run bytes => putRun bytes
  | token u => do
    putCount r.integers 0
    putCount r.integers u.first.toNat
    putWord r.integers 2 u.second.toNat
    putWord r.integers 2 u.third.toNat
    putRun (ByteOrder.big.encode 8 u.tail.toNat)

/-- An aligned word at a position of a message. -/
def wordFields (width v position : Nat) : List Field :=
  [.padding (padding position width), .word width v]

/-- What a step adds to a message at some position. The last eight bytes of a token have no
order. -/
def fields (position : Nat) : Step → List Field
  | align n => [.padding (padding position n)]
  | scalar kind v => wordFields kind.size ((kind.word? v).getD 0) position
  | count v => wordFields 4 v position
  | shortCount v => wordFields 2 v position
  | run bytes => [.bytes bytes]
  | token u => wordFields 4 0 position ++ [.word 4 u.first.toNat, .word 2 u.second.toNat,
      .word 2 u.third.toNat, .bytes (ByteOrder.big.encode 8 u.tail.toNat)]

end Step

theorem encodeFields_wordFields (order : ByteOrder) (width v position : Nat) :
    encodeFields order (Step.wordFields width v position)
      = alignedBytes order width v position := by
  simp [Step.wordFields, alignedBytes, Field.encode]

/-- No word needs padding where it is aligned already. -/
theorem alignedBytes_of_dvd {order : ByteOrder} {width v position : Nat} (h : width ∣ position) :
    alignedBytes order width v position = order.encode width v := by
  rw [alignedBytes, padding_of_dvd h]
  rfl

/-- A step adds its fields to the message. -/
theorem wrote_perform {w w' : Writer} {u : Unit} {r : Representation} (hb : 8 ≤ w.bufferSize)
    {step : Step} (h : step.perform r w = .ok u w') :
    Wrote w w' (encodeFields r.integers (step.fields w.position)) := by
  cases step with
  | align n => simpa [Step.fields, Field.encode] using wrote_align h
  | scalar kind v =>
    obtain ⟨n, hn, -, -, hw⟩ := wrote_putScalar h
    rwa [Step.fields, encodeFields_wordFields, hn]
  | count v => exact encodeFields_wordFields r.integers 4 v w.position ▸ wrote_putAligned h
  | shortCount v => exact encodeFields_wordFields r.integers 2 v w.position ▸ wrote_putAligned h
  | run bytes => simpa [Step.fields, Field.encode] using wrote_putRun hb h
  | token u =>
    obtain ⟨_, w1, e1, h⟩ := bind_eq_ok.1 h
    obtain ⟨_, w2, e2, h⟩ := bind_eq_ok.1 h
    obtain ⟨_, w3, e3, h⟩ := bind_eq_ok.1 h
    obtain ⟨_, w4, e4, e5⟩ := bind_eq_ok.1 h
    have h1 := wrote_putAligned e1
    have hp : 4 ∣ w1.position := by
      rw [h1.position, alignedBytes, List.length_append, List.length_replicate,
        ByteOrder.length_encode]
      exact (Nat.dvd_add (dvd_add_padding (by decide)) (Nat.dvd_refl 4) :)
    have h2 := wrote_putAligned e2
    rw [alignedBytes_of_dvd hp] at h2
    have h1234 := ((h1.trans h2).trans (wrote_putTogether e3)).trans (wrote_putTogether e4)
    have h5 := h1234.trans (wrote_putRun (h1234.bufferSize ▸ hb) e5)
    simpa [Step.fields, encodeFields_append, encodeFields_wordFields, Field.encode] using h5

/-! ### Steps in two orders -/

/-- An aligned word of zeros. -/
def eraseWord (width : Nat) : Put Unit := do
  align width
  putTogether (zeros width)

/-- What a step does to a message of zeros. -/
def Step.erase (r : Representation) : Step → Put Unit
  | align n => Writer.align n
  | scalar kind v => do
    Writer.align kind.size
    match kind.word? v with
    | none => throw (.typeMismatch (.scalar kind) v.kind)
    | some _ =>
      kind.checkRepresentation r
      kind.checkEnum (v.toInt?.getD 0)
      putTogether (zeros kind.size)
  | count _ => eraseWord 4
  | shortCount _ => eraseWord 2
  | run bytes => putRun (zeros bytes.length)
  | token _ => do
    eraseWord 4
    eraseWord 4
    putTogether (zeros 2)
    putTogether (zeros 2)
    putRun (zeros 8)

theorem blanks_putWord (order : ByteOrder) (width v : Nat) :
    Blanks (putWord order width v) (putTogether (zeros width)) :=
  blanks_putTogether (ByteOrder.length_encode _ _ _)

theorem blanks_putAligned (order : ByteOrder) (width v : Nat) :
    Blanks (putAligned order width v) (eraseWord width) :=
  (blanks_align width).bind fun _ => blanks_putWord order width v

theorem blanks_perform (r : Representation) (step : Step) :
    Blanks (step.perform r) (step.erase r) := by
  cases step with
  | align n => exact blanks_align n
  | scalar kind v =>
    refine (blanks_align _).bind fun _ => ?_
    cases kind.word? v with
    | none => exact .throw _
    | some n =>
      exact (Tandem.lift _).bind fun _ => (Tandem.lift _).bind fun _ => blanks_putWord _ _ _
  | count v => exact blanks_putAligned _ 4 v
  | shortCount v => exact blanks_putAligned _ 2 v
  | run bytes => exact blanks_putRun rfl
  | token u =>
    exact (blanks_putAligned _ 4 _).bind fun _ => (blanks_putAligned _ 4 _).bind fun _ =>
      (blanks_putWord _ 2 _).bind fun _ => (blanks_putWord _ 2 _).bind fun _ =>
        blanks_putRun (ByteOrder.length_encode _ _ _)

/-- The byte order does not decide how a step goes. -/
theorem erase_inOrder (r : Representation) (order : ByteOrder) (step : Step) :
    step.erase (r.inOrder order) = step.erase r := by
  cases step with
  | scalar kind v => cases kind <;> rfl
  | _ => rfl

theorem tandem_perform (r : Representation) (order : ByteOrder) (step : Step) :
    Tandem Twin (step.perform r) (step.perform (r.inOrder order)) :=
  (blanks_perform r step).tandem (erase_inOrder r order step ▸ blanks_perform _ step)

end Writer

end Ndr
