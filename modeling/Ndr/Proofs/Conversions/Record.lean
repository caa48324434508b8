import Ndr.Interface
import Mathlib.Data.List.Infix

/-!
What conversions leave in the record of calls. A routine that makes a value for the wire has it
released when the value was written or its writing failed; one that is given a value from the wire has
it released at once. What is converted within a value is balanced before the value is released, so the
calls nest, and how deep they nest bounds how many values are out at any moment.
-/

namespace Ndr.Routine

variable {interface : Interface} {depth : Nat} {before made : List Call}

/-! ### Calls -/

/-- Whether the routine with some index made a value for the wire. -/
def Call.isMade (index : Nat) : Call → Bool
  | toWire i _ succeeded => i == index && succeeded
  | _ => false

/-- Whether a value of the wire got out: it was made, or a routine was given it. -/
def Call.takes : Call → Bool
  | toWire _ _ succeeded => succeeded
  | fromWire _ _ _ => true
  | freeInstance _ _ => false
  | freeWire _ _ => false

/-- Whether a value of the wire was released. -/
def Call.releases : Call → Bool
  | freeWire _ _ => true
  | _ => false

/-- In the end every value is released that got out. At any moment of the calls `made`, newest first, at
most `depth` values are out, and none was released before it got out. -/
def OutWithin (depth : Nat) (made : List Call) : Prop :=
  made.countP Call.takes = made.countP Call.releases ∧ ∀ earlier, earlier <:+ made →
    earlier.countP Call.releases ≤ earlier.countP Call.takes ∧
      earlier.countP Call.takes ≤ earlier.countP Call.releases + depth

namespace OutWithin

theorem nil : OutWithin depth [] := by
  refine ⟨rfl, fun earlier he => ?_⟩
  rw [List.suffix_nil.1 he]
  simp

theorem single {c : Call} (htakes : c.takes = false) (hreleases : c.releases = false) :
    OutWithin depth [c] := by
  refine ⟨by simp [htakes, hreleases], fun earlier he => ?_⟩
  rcases List.suffix_cons_iff.1 he with rfl | he
  · simp [htakes, hreleases]
  · exact nil.2 earlier he

theorem append {first later : List Call} (h : OutWithin depth first) (h' : OutWithin depth later) :
    OutWithin depth (later ++ first) := by
  refine ⟨by simp only [List.countP_append, h.1, h'.1], ?_⟩
  rintro earlier ⟨t, ht⟩
  -- The moment lies in the calls that came first, or behind them all.
  rcases List.append_eq_append_iff.1 ht with ⟨l, hl, rfl⟩ | ⟨l, -, hl⟩
  · have hlater := h'.2 l ⟨t, hl.symm⟩
    simp only [List.countP_append, h.1]
    omega
  · exact h.2 earlier ⟨l, hl.symm⟩

end OutWithin

/-- The calls that conversions leave behind those `before`, newest first: every value of the wire that
gets out is released by the routine that it came from or went to. The values are what the routines of
the interface make of the calls before, and nest at most `depth` deep. -/
inductive Balanced (interface : Interface) : Nat → List Call → List Call → Prop where
  | none {depth : Nat} {before : List Call} : Balanced interface depth before []
  | onward {depth : Nat} {before first later : List Call} : Balanced interface depth before first →
      Balanced interface depth (first ++ before) later →
      Balanced interface depth before (later ++ first)
  | freed {depth : Nat} {before : List Call} (index : Nat) (v : Value) :
      Balanced interface depth before [.freeInstance index v]
  /-- A routine makes no value for the wire. -/
  | refused {depth : Nat} {before : List Call} {index : Nat} {r : Routine} {v : Value} {e : Fault} :
      interface.routine index = .ok r → r.toWire before v = .error e →
      Balanced interface (depth + 1) before [.toWire index v false]
  /-- A value is made, what is converted within it is balanced, and it is released. -/
  | sent {depth : Nat} {before inner : List Call} {index : Nat} {r : Routine} {v w : Value} :
      interface.routine index = .ok r → r.toWire before v = .ok w →
      Balanced interface depth (.toWire index v true :: before) inner →
      Balanced interface (depth + 1) before (.freeWire index w :: (inner ++ [.toWire index v true]))
  /-- What is converted within a value is balanced, a routine is given the value, and it is released,
  whatever the routine made of it. -/
  | received {depth : Nat} {before inner : List Call} {index : Nat} {r : Routine} {w : Value} :
      interface.routine index = .ok r → Balanced interface depth before inner →
      Balanced interface (depth + 1) before (.freeWire index w ::
        .fromWire index w (succeeded (r.fromWire (inner ++ before) w)) :: inner)

namespace Balanced

theorem mono (h : Balanced interface depth before made) {depth' : Nat} (hle : depth ≤ depth') :
    Balanced interface depth' before made := by
  induction h generalizing depth' with
  | none => exact .none
  | onward _ _ ih ih' => exact .onward (ih hle) (ih' hle)
  | freed index v => exact .freed index v
  | refused hr he =>
    obtain ⟨depth', rfl⟩ := Nat.exists_eq_add_of_lt hle
    exact .refused hr he
  | sent hr hw _ ih =>
    obtain ⟨depth', rfl⟩ := Nat.exists_eq_add_of_lt hle
    exact .sent hr hw (ih (by omega))
  | received hr _ ih =>
    obtain ⟨depth', rfl⟩ := Nat.exists_eq_add_of_lt hle
    exact .received hr (ih (by omega))

/-- Every routine releases as many values as it made and was given. -/
theorem released (h : Balanced interface depth before made) (index : Nat) :
    made.countP (Call.isFreeWire index)
      = made.countP (Call.isMade index) + made.countP (Call.isFromWire index) := by
  induction h with
  | none => rfl
  | onward _ _ ih ih' =>
    simp only [List.countP_append]
    omega
  | freed => rfl
  | refused => simp [Call.isFreeWire, Call.isMade, Call.isFromWire]
  | @sent _ _ _ i _ _ _ _ _ _ ih =>
    by_cases hi : i = index
    · simp [Call.isFreeWire, Call.isMade, Call.isFromWire, hi, ih]
      omega
    · simp [Call.isFreeWire, Call.isMade, Call.isFromWire, hi, ih]
  | @received _ _ _ i _ _ _ _ ih =>
    by_cases hi : i = index
    · simp [Call.isFreeWire, Call.isMade, Call.isFromWire, hi, ih]
      omega
    · simp [Call.isFreeWire, Call.isMade, Call.isFromWire, hi, ih]

/-- At any moment no more values are out than conversions nest. -/
theorem outWithin (h : Balanced interface depth before made) : OutWithin depth made := by
  induction h with
  | none => exact .nil
  | onward _ _ ih ih' => exact ih.append ih'
  | freed => exact .single rfl rfl
  | refused => exact .single rfl rfl
  | sent _ _ _ ih =>
    have hall := ih.1
    refine ⟨by simp [List.countP_cons, Call.takes, Call.releases, hall], fun earlier he => ?_⟩
    rcases List.suffix_cons_iff.1 he with rfl | he
    · simp [List.countP_cons, Call.takes, Call.releases, hall]
    rcases List.suffix_concat_iff.1 he with rfl | ⟨l, rfl, hl⟩
    · simp
    · have hinner := ih.2 l hl
      simp [List.countP_cons, Call.takes, Call.releases]
      omega
  | received _ _ ih =>
    have hall := ih.1
    refine ⟨by simp [List.countP_cons, Call.takes, Call.releases, hall], fun earlier he => ?_⟩
    rcases List.suffix_cons_iff.1 he with rfl | he
    · simp [List.countP_cons, Call.takes, Call.releases, hall]
    rcases List.suffix_cons_iff.1 he with rfl | he
    · simp [List.countP_cons, Call.takes, Call.releases, hall]
    · have hinner := ih.2 earlier he
      omega

end Balanced

end Ndr.Routine
