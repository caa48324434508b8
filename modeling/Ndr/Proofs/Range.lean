import Ndr.Proofs.BackReference

/-!
The ranges of scalars. A scalar with a range is accepted exactly where the integer that was read lies
in it, and a scalar without one is never compared. The bounds are operands of 32 bits, which are
numbers with a sign for the signed scalars; a hyper takes them without one.
-/

namespace Ndr

/-! ### Operands -/

/-- A 32-bit operand as a number, with a sign where the scalar has one. -/
def Scalar.operand (kind : Scalar) (raw : UInt32) : Int :=
  if kind.isSigned then raw.toInt32.toInt else raw.toNat

/-- The integers that fit the width and the sign of a scalar. -/
def Scalar.Spans (kind : Scalar) (n : Int) : Prop :=
  if kind.isSigned then -2 ^ (8 * kind.size - 1) ≤ n ∧ n < 2 ^ (8 * kind.size - 1)
  else 0 ≤ n ∧ n < 2 ^ (8 * kind.size)

theorem UInt8.toInt_toInt8 (v : UInt8) : v.toInt8.toInt = (v.toNat : Int).bmod (2 ^ 8) := by
  rw [← Int8.toInt_toBitVec, BitVec.toInt_eq_toNat_bmod]
  rfl

theorem UInt16.toInt_toInt16 (v : UInt16) : v.toInt16.toInt = (v.toNat : Int).bmod (2 ^ 16) := by
  rw [← Int16.toInt_toBitVec, BitVec.toInt_eq_toNat_bmod]
  rfl

theorem UInt32.toInt_toInt32 (v : UInt32) : v.toInt32.toInt = (v.toNat : Int).bmod (2 ^ 32) := by
  rw [← Int32.toInt_toBitVec, BitVec.toInt_eq_toNat_bmod]
  rfl

theorem UInt64.toInt_toInt64 (v : UInt64) : v.toInt64.toInt = (v.toNat : Int).bmod (2 ^ 64) := by
  rw [← Int64.toInt_toBitVec, BitVec.toInt_eq_toNat_bmod]
  rfl

/-- **Operands read as declared**: an operand that fits an integral scalar is taken for the number it
is, but for a negative one of a hyper. -/
theorem Scalar.normalize_eq_operand {kind : Scalar} (hk : kind.isIntegral) {raw : UInt32}
    (h : kind.Spans (kind.operand raw)) (hh : kind = .hyper → 0 ≤ kind.operand raw) :
    kind.normalize raw = kind.operand raw := by
  have hraw := raw.toNat_lt
  cases kind <;>
    simp only [Spans, operand, isSigned, isIntegral, size, normalize, if_true, Bool.false_eq_true,
      if_false, UInt32.toInt_toInt32, UInt8.toInt_toInt8, UInt16.toInt_toInt16,
      UInt32.toNat_toUInt8, UInt32.toNat_toUInt16, Int.bmod_def, reduceCtorEq, forall_const,
      false_implies] at h hh hk ⊢ <;>
    omega

/-- A hyper takes its operands without their sign. -/
theorem Scalar.normalize_hyper (raw : UInt32) : Scalar.hyper.normalize raw = raw.toNat := rfl

theorem Scalar.range?_eq {kind : Scalar} {m : Modifiers} {lower upper : UInt32}
    (hm : m.range = some (lower, upper)) (hl : kind.normalize lower = kind.operand lower)
    (hu : kind.normalize upper = kind.operand upper) : kind.range? m =
      if (kind.operand lower, kind.operand upper) = (0, -1) then none
      else some (kind.operand lower, kind.operand upper) := by
  unfold range?
  simp only [hm, hl, hu]

/-! ### Values -/

/-- The integer that a scalar stands for; an unsigned hyper has no sign. -/
def Value.integer? : Value → Option Int
  | .uhyper v => some v.toNat
  | v => v.toInt?

theorem Scalar.exists_integer {kind : Scalar} (hk : kind.isIntegral) (w : Nat) :
    ∃ n z, (kind.ofWord w).integer? = some n ∧ (kind.ofWord w).toInt? = some z := by
  cases kind with
  | float | double => exact absurd hk (by decide)
  | _ => exact ⟨_, _, rfl, rfl⟩

/-- A value lies between the bounds of its type exactly where its 64 bits with a sign do. -/
theorem Scalar.within_iff {kind : Scalar} {w : Nat} {n z : Int} {lower upper : UInt32}
    (hn : (kind.ofWord w).integer? = some n) (hz : (kind.ofWord w).toInt? = some z) :
    z < kind.operand lower ∨ kind.operand upper < z ↔
      ¬(kind.operand lower ≤ n ∧ n ≤ kind.operand upper) := by
  cases kind with
  | uhyper =>
    obtain rfl := Option.some.inj hn
    obtain rfl := Option.some.inj hz
    have hw := (UInt64.ofNat w).toNat_lt
    have hl := lower.toNat_lt
    have hu := upper.toNat_lt
    simp only [operand, isSigned, Bool.false_eq_true, if_false, UInt64.toInt_toInt64, Int.bmod_def]
    omega
  | _ =>
    obtain rfl := Option.some.inj (hn.symm.trans hz)
    omega

namespace Unmarshal

variable {env : Env} {kind : Scalar} {m : Modifiers} {s t : State} {v : Value}

/-! ### Scalars -/

/-- **A scalar without a range** is read, and no more: it is never compared with anything. -/
theorem getScalar_of_none (h : kind.range? m = none) :
    getScalar env kind m = fetch (Reader.getScalar env.representation kind) := by
  funext s
  unfold getScalar checkRange
  cases e : fetch (Reader.getScalar env.representation kind) s with
  | error f t => rw [bind_of_error e]
  | ok v t =>
    rw [bind_of_ok e, h]
    cases v.toInt? <;> rfl

/-- **Ranges are exact**: where an integral scalar was read, it is accepted if it lies in its range,
and refused as out of range otherwise. The bounds of a hyper have to be without a sign, and the range
from 0 to -1 is none. -/
theorem getScalar_ranged {lower upper : UInt32} (hk : kind.isIntegral)
    (hm : m.range = some (lower, upper)) (hl : kind.Spans (kind.operand lower))
    (hu : kind.Spans (kind.operand upper))
    (hh : kind = .hyper → 0 ≤ kind.operand lower ∧ 0 ≤ kind.operand upper)
    (hset : (kind.operand lower, kind.operand upper) ≠ (0, -1))
    (e : fetch (Reader.getScalar env.representation kind) s = .ok v t) :
    ∃ n z, v.integer? = some n ∧ v.toInt? = some z ∧
      getScalar env kind m s =
        if kind.operand lower ≤ n ∧ n ≤ kind.operand upper then .ok v t
        else .error (.outOfRange z (kind.operand lower) (kind.operand upper)) t := by
  obtain ⟨r, hread, -⟩ := onPart_eq_ok.1 e
  obtain ⟨w, rfl⟩ := exists_ofWord hread
  obtain ⟨n, z, hn, hz⟩ := Scalar.exists_integer hk w
  refine ⟨n, z, hn, hz, ?_⟩
  have hrange : kind.range? m = some (kind.operand lower, kind.operand upper) := by
    rw [Scalar.range?_eq hm (Scalar.normalize_eq_operand hk hl fun h => (hh h).1)
      (Scalar.normalize_eq_operand hk hu fun h => (hh h).2), if_neg hset]
  have hcheck : checkRange kind m (kind.ofWord w) =
      if kind.operand lower ≤ n ∧ n ≤ kind.operand upper then .ok ()
      else .error (.outOfRange z (kind.operand lower) (kind.operand upper)) := by
    unfold checkRange
    simp only [hrange, hz, Scalar.within_iff hn hz, ite_not]
  unfold getScalar
  rw [bind_of_ok e, hcheck]
  split <;> rfl

end Unmarshal

/-! ### A range of hypers from -5 to 5 -/

/-- A vector whose only parameter list, at 12, has a hyper with the range from -5 to 5. -/
def hyperRangeVector : TypeVector where
  bytes := #[8, 0, 10, 0, 1, 255, 255, 255, 0, 0, 0, 0, 1, 0, 0, 0, 0, 0, 0, 0,
    60, 255, 255, 255, 251, 255, 255, 255, 5, 0, 0, 0, 10, 254]
  order := .little
  minor := 10

/-- The lower bound loses its sign, and 3 is out of range. -/
theorem hyper_range_unsigned :
    (Machine.unmarshal { interface := { vector := hyperRangeVector } } {} 12 [.void]
      (.ofBytes [3, 0, 0, 0, 0, 0, 0, 0])).result = .error (.outOfRange 3 4294967291 5) := by
  decide +kernel

end Ndr
