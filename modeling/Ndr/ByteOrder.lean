/-!
Words as bytes: a number split into the bytes of a word of given width, least or most
significant first, the number the bytes stand for, and the padding that brings a position to
a multiple of an alignment.
-/

-- A power of numbers is the one they come with, also where that of a monoid is in scope.
attribute [instance (2000), default_instance (20000)] instPowNat

namespace Ndr

/-! ### Digits in base 256 -/

/-- The `width` low bytes of a number, least significant first. -/
def leastFirst : Nat → Nat → List UInt8
  | 0, _ => []
  | width + 1, v => UInt8.ofNat v :: leastFirst width (v / 256)

/-- The number whose bytes are given least significant first. -/
def ofLeastFirst : List UInt8 → Nat
  | [] => 0
  | b :: bs => b.toNat + 256 * ofLeastFirst bs

@[simp] theorem length_leastFirst (width v : Nat) : (leastFirst width v).length = width := by
  induction width generalizing v with
  | zero => rfl
  | succ width ih => simp [leastFirst, ih]

theorem ofLeastFirst_leastFirst (width v : Nat) :
    ofLeastFirst (leastFirst width v) = v % 256 ^ width := by
  induction width generalizing v with
  | zero => simp [leastFirst, ofLeastFirst, Nat.mod_one]
  | succ width ih =>
    have hb : (UInt8.ofNat v).toNat = v % 256 := UInt8.toNat_ofNat'
    rw [leastFirst, ofLeastFirst, ih, hb, Nat.pow_succ, Nat.mul_comm (256 ^ width) 256, Nat.mod_mul]

theorem ofLeastFirst_lt (bs : List UInt8) : ofLeastFirst bs < 256 ^ bs.length := by
  induction bs with
  | nil => simp [ofLeastFirst]
  | cons b bs ih =>
    have hb := b.toNat_lt
    simp only [ofLeastFirst, List.length_cons, Nat.pow_succ]
    omega

theorem leastFirst_ofLeastFirst (bs : List UInt8) :
    leastFirst bs.length (ofLeastFirst bs) = bs := by
  induction bs with
  | nil => rfl
  | cons b bs ih =>
    have hb := b.toNat_lt
    simp only [ofLeastFirst, List.length_cons, leastFirst]
    rw [show (b.toNat + 256 * ofLeastFirst bs) / 256 = ofLeastFirst bs by omega, ih]
    congr 1
    apply UInt8.toNat_inj.1
    simp only [UInt8.toNat_ofNat']
    omega

/-! ### The order of the bytes of a word -/

/-- The order in which the bytes of a word travel. -/
inductive ByteOrder where
  /-- Most significant byte first. -/
  | big
  /-- Least significant byte first. -/
  | little
  deriving DecidableEq, Inhabited

namespace ByteOrder

/-- The bytes of the word of `width` bytes that holds `v`; higher bits are dropped. -/
def encode (order : ByteOrder) (width v : Nat) : List UInt8 :=
  match order with
  | big => (leastFirst width v).reverse
  | little => leastFirst width v

/-- The number that the bytes of a word stand for. -/
def decode (order : ByteOrder) (bytes : List UInt8) : Nat :=
  match order with
  | big => ofLeastFirst bytes.reverse
  | little => ofLeastFirst bytes

@[simp] theorem length_encode (order : ByteOrder) (width v : Nat) :
    (order.encode width v).length = width := by
  cases order <;> simp [encode]

/-- A number that fits the word is read back. -/
theorem decode_encode (order : ByteOrder) {width v : Nat} (h : v < 256 ^ width) :
    order.decode (order.encode width v) = v := by
  cases order <;> simp [encode, decode, ofLeastFirst_leastFirst, Nat.mod_eq_of_lt h]

theorem decode_lt (order : ByteOrder) (bytes : List UInt8) :
    order.decode bytes < 256 ^ bytes.length := by
  cases order
  · simpa [decode] using ofLeastFirst_lt bytes.reverse
  · exact ofLeastFirst_lt bytes

/-- Bytes of the right number are written back. -/
theorem encode_decode (order : ByteOrder) (bytes : List UInt8) :
    order.encode bytes.length (order.decode bytes) = bytes := by
  cases order
  · simpa [encode, decode] using congrArg List.reverse (leastFirst_ofLeastFirst bytes.reverse)
  · exact leastFirst_ofLeastFirst bytes

/-- The two orders lay down the same bytes, reversed. -/
theorem encode_big (width v : Nat) : big.encode width v = (little.encode width v).reverse := rfl

end ByteOrder

/-! ### Alignment -/

/-- The bytes to skip from `position` to the next multiple of `alignment`. -/
def padding (position alignment : Nat) : Nat :=
  if alignment ≤ 1 then 0 else (alignment - position % alignment) % alignment

theorem padding_lt {position alignment : Nat} (h : 0 < alignment) :
    padding position alignment < alignment := by
  unfold padding
  split
  · omega
  · exact Nat.mod_lt _ h

theorem dvd_add_padding {position alignment : Nat} (h : 0 < alignment) :
    alignment ∣ position + padding position alignment := by
  unfold padding
  split
  · rw [show alignment = 1 by omega]; exact Nat.one_dvd _
  · have hm := Nat.mod_lt position h
    have hd := Nat.div_add_mod position alignment
    rcases Nat.eq_zero_or_pos (position % alignment) with h0 | h0
    · rw [h0, Nat.sub_zero, Nat.mod_self]
      exact Nat.dvd_of_mod_eq_zero h0
    · rw [Nat.mod_eq_of_lt (by omega : alignment - position % alignment < alignment)]
      exact ⟨position / alignment + 1, by rw [Nat.mul_add, Nat.mul_one]; omega⟩

theorem padding_of_dvd {position alignment : Nat} (h : alignment ∣ position) :
    padding position alignment = 0 := by
  unfold padding
  split
  · rfl
  · rw [Nat.mod_eq_zero_of_dvd h, Nat.sub_zero, Nat.mod_self]

/-- A step by the alignment changes nothing. -/
theorem padding_add_self (position alignment : Nat) :
    padding (position + alignment) alignment = padding position alignment := by
  unfold padding
  rw [Nat.add_mod_right]

end Ndr
