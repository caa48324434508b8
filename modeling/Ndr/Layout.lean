import Ndr.Fault

/-!
The table of host layouts: at the place of a struct, the number of its slots, and then the slot
of each of its fields in wire order.
-/

namespace Ndr

structure Layout where
  entries : Array UInt32 := #[]
  deriving DecidableEq, Inhabited

namespace Layout

/-- The number of slots of the struct whose layout is at `index`. -/
def slotCount (l : Layout) (index : Nat) : Except Fault Nat :=
  match l.entries[index]? with
  | some n => .ok n.toNat
  | none => .error (.invalidDescriptor index .layoutIndex)

/-- The slot of a field of the struct whose layout is at `index`. -/
def slot (l : Layout) (index field : Nat) : Except Fault Nat := do
  let count ← l.slotCount index
  if count ≤ field then throw (.invalidDescriptor index .tooManyFields)
  match l.entries[index + 1 + field]? with
  | some s =>
    if count ≤ s.toNat then throw (.invalidDescriptor index .slotOutside)
    return s.toNat
  | none => throw (.invalidDescriptor index .layoutTruncated)

theorem slotCount_eq_ok_iff {l : Layout} {index n : Nat} :
    l.slotCount index = .ok n ↔ ∃ e, l.entries[index]? = some e ∧ e.toNat = n := by
  unfold slotCount
  cases l.entries[index]? <;> simp

/-- A slot lies within its struct. -/
theorem slot_lt {l : Layout} {index field s : Nat} (h : l.slot index field = .ok s) :
    ∃ n, l.slotCount index = .ok n ∧ field < n ∧ s < n := by
  unfold slot at h
  cases hc : l.slotCount index with
  | error e => simp [hc, bind, Except.bind] at h
  | ok n =>
    simp only [hc, bind, Except.bind, throw, throwThe, MonadExceptOf.throw, pure, Except.pure] at h
    split at h
    · simp at h
    · split at h
      · split at h
        · simp at h
        · simp only [Except.ok.injEq] at h
          exact ⟨n, rfl, by omega, by omega⟩
      · simp at h

end Layout

end Ndr
