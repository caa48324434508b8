import Ndr.Proofs.Correlation
import Ndr.Proofs.Lockstep.Bound

/-!
Lower bounds behind their arrays. The number of elements travels, and the upper bound that it stands for
is found from the lower bound. A lower bound that is not known yet counts as zero: so the upper bound
agrees with its field exactly where the lower bound was known, or is zero, or where the upper bound is a
size. An array between two fields that stand behind it is read only where it begins at zero.
-/

namespace Ndr

/-- What a bound counts as: zero, unless it is known. -/
def Resolution.orZero : Resolution → Int
  | .value v => v
  | _ => 0

/-- The upper bound that so many elements from a lower bound on stand for. -/
def Bound.ofCount (b : Bound) (lower : Int) (n : Nat) : Int :=
  if b.kind = .sizeIs then n else Unmarshal.saturate (lower + (n - 1))

section

variable {b : Bound} {scope scope' : Scope} {r : Resolution} {v w lower upper : Int} {n : Nat}

/-! ### Scopes that are not complete -/

/-- A bound that the complete scope gives is known to have that value, or is waited for. -/
theorem Bound.resolve_of_le (h : Scope.Le scope scope') (hv : Marshal.boundValue b scope' = .ok v)
    (hr : b.resolve scope = .ok r) : r = .value v ∨ r = .late := by
  have hr' := Marshal.resolve_of_boundValue hv
  unfold Bound.resolve at hr hr'
  by_cases hstring : b.kind = .string
  · simp [hstring] at hr'
  rw [if_neg hstring] at hr hr'
  by_cases hfixed : b.kind = .fixed
  · rw [if_pos hfixed] at hr hr'
    exact .inl (Except.ok.inj (hr.symm.trans hr'))
  rw [if_neg hfixed] at hr hr'
  by_cases hnone : b.kind = .upperConf ∨ b.hasFlag BoundFlag.interfaceId
  · simp [if_pos hnone] at hr'
  rw [if_neg hnone] at hr hr'
  cases hfield : scope.get? b.field with
  | some w =>
    rw [hfield] at hr
    rw [h _ _ hfield] at hr'
    exact .inl (Except.ok.inj (hr.symm.trans hr'))
  | none =>
    rw [hfield] at hr
    dsimp only at hr
    split at hr
    · exact absurd hr (by simp)
    · exact .inr (Except.ok.inj hr).symm

/-- A bound agrees with a scope that gives the same. -/
theorem LateCheck.verify_iff (hb : b.isChecked) (hv : Marshal.boundValue b scope = .ok v) :
    (LateCheck.mk b w).verify scope = .ok () ↔ v = w := by
  rcases Marshal.boundValue_eq_ok hv with ⟨hfixed, -⟩ | ⟨-, x, hx, hv⟩
  · simp [Bound.isChecked, hfixed] at hb
  · simp only [LateCheck.verify, hx, hv, Except.bind_eq_ok, Except.ok.injEq, exists_eq_left']
    constructor
    · intro h
      by_contra hne
      exact absurd ((if_pos hne).symm.trans h) Except.throw_ne_ok
    · exact fun h => if_neg (not_not_intro h)

/-! ### Counts -/

/-- The number of elements between two bounds has 64 bits, also less one. -/
theorem fitsInt64_of_extentOf {kind : BoundKind} (hkind : kind ≠ .sizeIs)
    (hn : extentOf kind lower upper = .ok n) : FitsInt64 ((n : Int) - 1) := by
  unfold extentOf at hn
  rw [if_neg hkind] at hn
  obtain ⟨x, hx, hn⟩ := Except.bind_eq_ok.1 hn
  obtain ⟨y, hy, -⟩ := Except.bind_eq_ok.1 hx
  obtain ⟨rfl, hfits⟩ := checked_eq_ok.1 hy
  have hspan := Marshal.checkedSpan_eq_ok hx
  have hcount := Marshal.countOf_eq_ok.1 hn
  rwa [show (n : Int) - 1 = upper - lower by omega]

/-- From the lower bound itself the number of elements stands for the upper bound. -/
theorem Bound.ofCount_of_extentOf (hn : extentOf b.kind lower upper = .ok n)
    (hupper : FitsInt64 upper) : b.ofCount lower n = upper := by
  have h := Marshal.upper_of_extentOf hn
  unfold ofCount
  split
  · rename_i hkind
    rw [h, if_pos hkind]
  · rename_i hkind
    rw [if_neg hkind] at h
    rw [← h, Lockstep.saturate_of_fits hupper]

/-- From zero it stands for the upper bound where the elements begin at zero, and where it is a size. -/
theorem Bound.ofCount_zero_iff (hn : extentOf b.kind lower upper = .ok n) :
    b.ofCount 0 n = upper ↔ b.kind = .sizeIs ∨ lower = 0 := by
  have h := Marshal.upper_of_extentOf hn
  by_cases hkind : b.kind = .sizeIs
  · rw [if_pos hkind] at h
    simp only [ofCount, hkind, if_true, h, true_or]
  · rw [if_neg hkind] at h
    rw [ofCount, if_neg hkind, Int.zero_add,
      Lockstep.saturate_of_fits (fitsInt64_of_extentOf hkind hn), or_iff_right hkind]
    omega

/-- **The upper bound that a number of elements stands for agrees with the complete scope** exactly where
it is a size, where the elements begin at zero, and where the lower bound was known. -/
theorem verify_ofCount_iff {p : BoundPair} (hc : p.upper.isChecked) (hle : Scope.Le scope scope')
    (hlower : Marshal.boundValue p.lower scope' = .ok lower)
    (hupper : Marshal.boundValue p.upper scope' = .ok upper) (hfits : FitsInt64 upper)
    (hn : extentOf p.upper.kind lower upper = .ok n) (hr : p.lower.resolve scope = .ok r) :
    (LateCheck.mk p.upper (p.upper.ofCount r.orZero n)).verify scope' = .ok () ↔
      p.upper.kind = .sizeIs ∨ lower = 0 ∨ r = .value lower := by
  rw [LateCheck.verify_iff hc hupper, eq_comm]
  rcases Bound.resolve_of_le hle hlower hr with rfl | rfl
  · exact iff_of_true (Bound.ofCount_of_extentOf hn hfits) (.inr (.inr rfl))
  · rw [show Resolution.late.orZero = 0 from rfl, Bound.ofCount_zero_iff hn]
    exact or_congr_right (or_iff_left (by simp)).symm

end

/-! ### Arrays that are read -/

namespace Unmarshal

variable {s t u : State} {i : ScopeId} {p : BoundPair} {lower upper : Int} {n m : Nat}

/-- The number of elements that was read is taken, and the upper bound compared that it stands for. -/
theorem extentIn_eq_ok (e : extentIn i p (some n) s = .ok m t) :
    m = n ∧ ∃ r, p.lower.resolve (s.scopeAt i) = .ok r ∧
      checkBound p.upper (p.upper.ofCount r.orZero n) i s = .ok () t := by
  obtain ⟨scope, _, h1, e⟩ := bind_eq_ok.1 e
  obtain ⟨rfl, rfl⟩ := scopeOf_eq_ok.1 h1
  obtain ⟨r, _, h2, e⟩ := bind_eq_ok.1 e
  obtain ⟨hr, rfl⟩ := lift_eq_ok.1 h2
  obtain ⟨_, _, h3, e⟩ := bind_eq_ok.1 e
  obtain ⟨rfl, rfl⟩ := pure_eq_ok.1 e
  refine ⟨rfl, r, hr, ?_⟩
  cases r with
  | value | fromString | late | unknown => exact h3

/-- **An array is read ahead of its lower bound only where it begins at zero**, or where its size is
told: when its scope is complete, and gives the bounds that the number of its elements comes from. -/
theorem lower_of_concludes (hc : p.upper.isChecked) (hi : i < s.scopes.size)
    (e : extentIn i p (some n) s = .ok m t) (h : Concludes i t u)
    (hlower : Marshal.boundValue p.lower (u.scopeAt i) = .ok lower)
    (hupper : Marshal.boundValue p.upper (u.scopeAt i) = .ok upper)
    (hn : extentOf p.upper.kind lower upper = .ok n) :
    p.upper.kind = .sizeIs ∨ lower = 0 ∨ p.lower.resolve (s.scopeAt i) = .ok (.value lower) := by
  obtain ⟨-, r, hr, hcheck⟩ := extentIn_eq_ok e
  have hstep := postponing_checkBound _ _ _ hcheck
  have hit := Nat.lt_of_lt_of_le hi hstep.size
  have hle : (s.scopeAt i).Le (u.scopeAt i) := hstep.same i hi not_false ▸ h.grows hit
  have hverify := h.verify hit (heeds_of_checkBound hc hcheck)
  rcases Bound.resolve_of_le hle hlower hr with rfl | rfl
  · exact .inr (.inr hr)
  · have hzero := ((LateCheck.verify_iff hc hupper).1 hverify).symm
    exact ((Bound.ofCount_zero_iff hn).1 hzero).imp_right .inl

end Unmarshal

end Ndr
