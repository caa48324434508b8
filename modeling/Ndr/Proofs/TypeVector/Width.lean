import Ndr.Proofs.Assembly.Replay
import Ndr.Proofs.TypeVector.Unchecked

/-!
The width of a pair of bounds. A pair takes sixteen bytes, and those that are skipped ahead of its first
value: none where it stands at a multiple of four. In the definition of an array four bytes stand ahead of
the pairs, so the first of them is wider than is asserted just where the definition itself stands at another
offset, which nothing checks. In a vector that was assembled every definition stands at a multiple of four.
-/

namespace Ndr

namespace Unchecked

variable {tv : TypeVector} {p : Nat}

/-! ### Pairs -/

theorem readBound_of_le (h : p + padding p 4 + 8 ≤ tv.size) :
    ∃ b, tv.readBound p = .ok b (p + padding p 4 + 8) := by
  have hpadding : padding (p + 4) 4 = padding p 4 := padding_add_self p 4
  obtain ⟨kind, hkind⟩ := TypeVector.readByte_of_lt (show p < tv.size by omega)
  obtain ⟨fieldType, htype⟩ := TypeVector.readByte_of_lt (show p + 1 < tv.size by omega)
  obtain ⟨operator, hoperator⟩ := TypeVector.readByte_of_lt (show p + 2 < tv.size by omega)
  have hskip : tv.skip 1 (p + 3) = .ok () (p + 4) := TypeVector.skip_of_le (by omega)
  obtain ⟨value, hvalue⟩ :=
    TypeVector.readWord_of_le (show p + 4 + padding (p + 4) 4 + 4 ≤ tv.size by omega)
  have hend : p + 4 + padding (p + 4) 4 + 4 = p + padding p 4 + 8 := by omega
  rw [hend] at hvalue
  unfold TypeVector.readBound
  rw [bind_of_ok hkind, bind_of_ok htype, bind_of_ok hoperator, bind_of_ok hskip, bind_of_ok hvalue]
  exact ⟨_, rfl⟩

/-- A pair that the vector has room for is read. -/
theorem readBoundPair_of_le (h : p + padding p 4 + 16 ≤ tv.size) :
    ∃ pair, tv.readBoundPair p = .ok pair (p + padding p 4 + 16) := by
  have hdvd := @dvd_add_padding p 4 (by decide)
  have hpadding : padding (p + padding p 4 + 8) 4 = 0 := padding_of_dvd (by omega)
  obtain ⟨lower, hlower⟩ := readBound_of_le (show p + padding p 4 + 8 ≤ tv.size by omega)
  have hroom : p + padding p 4 + 8 + padding (p + padding p 4 + 8) 4 + 8 ≤ tv.size := by omega
  obtain ⟨upper, hupper⟩ := readBound_of_le hroom
  rw [hpadding] at hupper
  exact ⟨⟨lower, upper⟩, bind_eq_ok.2 ⟨_, _, hlower, bind_eq_ok.2 ⟨_, _, hupper, rfl⟩⟩⟩

/-- **A pair is sixteen bytes wide at multiples of four**, and wider elsewhere. -/
theorem readBoundPair_width {pair : BoundPair} {q : Nat} (e : tv.readBoundPair p = .ok pair q) :
    q - p = 16 ↔ 4 ∣ p := by
  obtain ⟨rfl, -⟩ := readBoundPair_end e
  constructor
  · intro h
    have hdvd := @dvd_add_padding p 4 (by decide)
    omega
  · intro h
    rw [padding_of_dvd h]
    omega

/-! ### Scans without an answer -/

section

variable {α β : Type} {x : Scan α} {f : α → Scan β}

theorem bind_eq_none (h : x p = none) : (x >>= f) p = none := by
  rw [bind_apply, h]
  rfl

/-- A scan has no answer where what follows an answered part has none. -/
theorem Answers.bind_eq_none {y : Ndr.Scan α} {a : α} {q : Nat} (h : Answers x y p)
    (e : y p = .ok a q) (hf : f a q = none) : (x >>= f) p = none := by
  rw [bind_apply, show x p = some (outcome (y p)) from h, e]
  exact hf

end

/-- A pair that stands elsewhere has no answer where it can be read. -/
theorem readBoundPair_eq_none (hp : ¬4 ∣ p) (h : p + padding p 4 + 16 ≤ tv.size) :
    readBoundPair tv p = none := by
  obtain ⟨pair, e⟩ := readBoundPair_of_le h
  obtain ⟨lower, q, hlower, e'⟩ := bind_eq_ok.1 e
  obtain ⟨upper, r, hupper, e'⟩ := bind_eq_ok.1 e'
  obtain ⟨-, rfl⟩ := pure_eq_ok.1 e'
  unfold readBoundPair
  rw [get_bind_apply]
  refine answers_readBound.bind_eq_none hlower (answers_readBound.bind_eq_none hupper ?_)
  rw [get_bind_apply, if_neg fun hwidth => hp ((readBoundPair_width e).1 hwidth)]
  rfl

/-- A pair that the vector has no room for has an answer, a fault. -/
theorem answers_readBoundPair_of_lt (h : tv.size < p + padding p 4 + 16) :
    Answers (readBoundPair tv) tv.readBoundPair p ∧ ∀ pair q, tv.readBoundPair p ≠ .ok pair q := by
  have hnone : ∀ pair q, tv.readBoundPair p ≠ .ok pair q := fun pair q e => by
    have := readBoundPair_end e
    omega
  refine ⟨.look_bind (answers_readBound.bind fun lower q e => answers_readBound.bind fun upper r e' => ?_),
    hnone⟩
  have hpair : tv.readBoundPair p = .ok { lower, upper } r :=
    bind_eq_ok.2 ⟨lower, q, e, bind_eq_ok.2 ⟨upper, r, e', rfl⟩⟩
  exact absurd hpair (hnone _ r)

/-! ### Definitions of arrays -/

/-- An array stands so that its first pair can be read, and is too wide. -/
structure Slips (tv : TypeVector) (offset : Nat) : Prop where
  uneven : ¬4 ∣ offset
  dims : ∃ dims, tv.bytes[offset]? = some dims ∧ dims ≠ 0
  room : offset + padding offset 4 + 20 ≤ tv.size

variable {n : Nat}

theorem arrayDefinition_of_slips {offset : Nat} (h : Slips tv offset) (varying : Bool) :
    arrayDefinition tv n offset varying = none := by
  obtain ⟨huneven, ⟨dims, hbyte, hdims⟩, hroom⟩ := h
  have hread : tv.readByte offset = .ok dims (offset + 1) := Record.readByte_of_getElem? hbyte
  have hskip : tv.skip 3 (offset + 1) = .ok () (offset + 4) := TypeVector.skip_of_le (by omega)
  have hpadding : padding (offset + 4) 4 = padding offset 4 := padding_add_self offset 4
  have hpair : readBoundPair tv (offset + 4) = none := readBoundPair_eq_none (by omega) (by omega)
  have hpairs : repeatM dims.toNat (readBoundPair tv) (offset + 4) = none := by
    obtain ⟨k, hk⟩ := Nat.exists_eq_succ_of_ne_zero (fun h => hdims (UInt8.toNat_inj.1 h))
    rw [hk]
    exact bind_eq_none hpair
  refine Option.map_eq_none_iff.2 (answers_readByte.bind_eq_none hread ?_)
  rw [if_neg hdims]
  exact (answers_skip 3).bind_eq_none hskip (bind_eq_none hpairs)

/-- **What is asserted of the width breaks just there.** At every other offset, within the vector or not,
a definition is read as without the assertion, or the same fault is reported. -/
theorem arrayDefinition_of_not_slips (hn : tv.size < n) {offset : Nat} (h : ¬Slips tv offset)
    (varying : Bool) :
    arrayDefinition tv n offset varying = some (tv.arrayDefinition offset varying) := by
  by_cases ho : 4 ∣ offset
  · exact arrayDefinition_eq hn ho varying
  refine arrayDefinition_eq_of (I := fun p => tv.size < p + padding p 4 + 16) hn varying
    (fun p hp => ?_) fun dims hbyte hdims => ?_
  · obtain ⟨hanswers, hnone⟩ := answers_readBoundPair_of_lt hp
    exact ⟨hanswers, fun pair q e => absurd e (hnone pair q)⟩
  · have hpadding : padding (offset + 4) 4 = padding offset 4 := padding_add_self offset 4
    have hroom : ¬offset + padding offset 4 + 20 ≤ tv.size := fun hroom =>
      h ⟨ho, ⟨dims, hbyte, hdims⟩, hroom⟩
    omega

theorem arrayDefinition_eq_none_iff (hn : tv.size < n) {offset : Nat} {varying : Bool} :
    arrayDefinition tv n offset varying = none ↔ Slips tv offset := by
  refine ⟨fun h => ?_, fun h => arrayDefinition_of_slips h varying⟩
  by_contra hslips
  exact absurd (h.symm.trans (arrayDefinition_of_not_slips hn hslips varying)) (by simp)

/-- A fixed array whose definition stands at 13, and a parameter that is of it. -/
def unevenVector : TypeVector where
  bytes := #[8, 0, 10, 0, 1, 255, 255, 255, 0, 0, 0, 0, 255, 1, 0, 0, 0, 0, 0, 0, 0, 0, 0, 0, 0, 0, 0, 0,
    0, 0, 0, 0, 0, 0, 0, 0, 9, 254, 255, 255, 1, 0, 0, 0, 0, 0, 0, 0, 20, 0, 1, 255, 13, 0, 0, 0, 254]
  order := .little
  minor := 10

/-- It is read, nineteen bytes to the pair, but what is asserted does not hold. -/
example : (TypeVector.parse unevenVector.bytes).isOk ∧
    (unevenVector.arrayDefinition 13 false).isOk ∧ arrayDefinition unevenVector 58 13 false = none := by
  decide +kernel

/-! ### Assembled vectors -/

open Assembler

/-- **In a vector that was assembled the width is as asserted.** All arrays that are met from what calls
without bare opcodes laid down stand at multiples of four, and their definitions have an answer. -/
theorem arrays_assembled (order : ByteOrder) (flags : UInt32) (calls : List Call)
    (hfree : ∀ c ∈ calls, c.OpcodeFree) {i : Interface}
    (hi : Interface.ofAssembler (replay calls (.new order flags)).2 = .ok i)
    (hsize : i.vector.size < 2 ^ 32) {r : Assembler.Request} {start : Nat}
    (hr : (Call.request r, .ok (some start)) ∈ calls.zip (replay calls (.new order flags)).1)
    {d : Descriptor} (hd : r.Meets i.vector start d) {kind : ArrayKind} {props : UInt8} {dims offset : Nat}
    (hform : d.form = .array kind props dims offset) :
    4 ∣ offset ∧ ∀ n varying, i.vector.size < n →
      arrayDefinition i.vector n offset varying = some (i.vector.arrayDefinition offset varying) := by
  obtain ⟨answers, draft, -, hreplay, hrecords⟩ := Draft.replay_alike hfree (Draft.blank flags)
  simp only [Draft.inked_blank] at hreplay
  rw [hreplay] at hi hr
  rcases draft.ofAssembler_alike with ⟨e, h⟩ | ⟨c, bytes, hgrows, hbytes, h⟩
  · exact absurd ((h order).symm.trans hi) (by simp)
  obtain rfl := Except.ok.inj ((h order).symm.trans hi)
  have hdecodes := hbytes.decodes (Nat.lt_of_le_of_lt (Nat.le_of_eq (hbytes.size order).symm) hsize)
  obtain ⟨t, ht⟩ := hdecodes.known_of_meets (hgrows.records _ _ (hrecords r start hr)) hd
  have hknown := ht.form
  rw [hform] at hknown
  obtain ⟨s, -, hs⟩ := hknown
  have hdvd : 4 ∣ offset := Nat.dvd_of_mod_eq_zero (hdecodes.kept _ _ hs).1
  exact ⟨hdvd, fun _ varying hn => arrayDefinition_eq hn hdvd varying⟩

end Unchecked

end Ndr
