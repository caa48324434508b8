import Ndr.Wire.Word

/-!
Values with their cells renamed, and the cells that the pointers of a value lead to.
-/

namespace Ndr.Value

mutual

/-- A value with every cell renamed. -/
def rename (f : CellId → CellId) : Value → Value
  | struct slots => .struct (renameAll f slots)
  | array elements => .array (renameAll f elements)
  | union switch arm => .union switch (rename f arm)
  | pointer target => .pointer (target.map f)
  | v => v

def renameAll (f : CellId → CellId) : List Value → List Value
  | [] => []
  | v :: vs => rename f v :: renameAll f vs

end

/-- A pointer in a value leads to a cell. -/
inductive Leads : Value → CellId → Prop where
  | pointer (c : CellId) : Leads (.pointer (some c)) c
  | struct {slots : List Value} {v : Value} {c : CellId} (hv : v ∈ slots) (h : Leads v c) :
      Leads (.struct slots) c
  | array {elements : List Value} {v : Value} {c : CellId} (hv : v ∈ elements) (h : Leads v c) :
      Leads (.array elements) c
  | union {switch : Int64} {arm : Value} {c : CellId} (h : Leads arm c) :
      Leads (.union switch arm) c

variable {f : CellId → CellId} {v : Value} {c : CellId}

/-! ### Values without cells -/

theorem renameAll_eq (f : CellId → CellId) (vs : List Value) : renameAll f vs = vs.map (rename f) := by
  induction vs with
  | nil => rfl
  | cons v vs ih => rw [renameAll, ih, List.map_cons]

theorem rename_struct (slots : List Value) :
    rename f (.struct slots) = .struct (slots.map (rename f)) := by
  rw [rename, renameAll_eq]

theorem rename_array (elements : List Value) :
    rename f (.array elements) = .array (elements.map (rename f)) := by
  rw [rename, renameAll_eq]

mutual

/-- A value whose cells keep their names stays as it is. -/
theorem rename_eq_self : ∀ {v : Value}, (∀ c, v.Leads c → f c = c) → v.rename f = v
  | struct slots, h => by
    rw [rename, renameAll_eq_self fun v hv c hc => h c (.struct hv hc)]
  | array elements, h => by
    rw [rename, renameAll_eq_self fun v hv c hc => h c (.array hv hc)]
  | union switch arm, h => by
    rw [rename, rename_eq_self fun c hc => h c (.union hc)]
  | pointer none, _ => rfl
  | pointer (some c), h => by
    rw [rename, Option.map_some, h c (.pointer c)]
  | void, _ | boolean _, _ | byte _, _ | char _, _ | small _, _ | usmall _, _ | short _, _
  | ushort _, _ | long _, _ | ulong _, _ | hyper _, _ | uhyper _, _ | float _, _ | double _, _
  | enum _, _ | errorStatus _, _ | context _, _ | pipe _, _ => rfl

theorem renameAll_eq_self : ∀ {vs : List Value}, (∀ v ∈ vs, ∀ c, v.Leads c → f c = c) →
    renameAll f vs = vs
  | [], _ => rfl
  | v :: vs, h => by
    rw [renameAll, rename_eq_self fun c hc => h v List.mem_cons_self c hc,
      renameAll_eq_self fun w hw => h w (List.mem_cons_of_mem _ hw)]

end

/-- A scalar has no cells. -/
theorem rename_of_word? {kind : Scalar} {n : Nat} (h : kind.word? v = some n) :
    v.rename f = v := by
  cases v with
  | struct | array | union | pointer => simp [Scalar.word?] at h
  | _ => rfl

theorem not_leads_of_word? {kind : Scalar} {n : Nat} (h : kind.word? v = some n) :
    ¬ v.Leads c := by
  rintro (_ | _ | _ | _) <;> simp [Scalar.word?] at h

/-- Renaming leaves integers as they are. -/
theorem toInt?_rename (f : CellId → CellId) (v : Value) : (v.rename f).toInt? = v.toInt? := by
  cases v <;> rfl

/-- The integer of a scalar has 64 bits with a sign. -/
theorem fitsInt64_toInt? {n : Int} (h : v.toInt? = some n) : FitsInt64 n := by
  unfold FitsInt64
  cases v with
  | boolean b =>
    simp only [toInt?, Option.some.injEq] at h
    split at h <;> omega
  | byte b | char b | usmall b =>
    simp only [toInt?, Option.some.injEq] at h
    have := b.toNat_lt
    omega
  | ushort b =>
    simp only [toInt?, Option.some.injEq] at h
    have := b.toNat_lt
    omega
  | ulong b | errorStatus b =>
    simp only [toInt?, Option.some.injEq] at h
    have := b.toNat_lt
    omega
  | small b =>
    simp only [toInt?, Option.some.injEq] at h
    have := b.le_toInt
    have := b.toInt_lt
    omega
  | short b =>
    simp only [toInt?, Option.some.injEq] at h
    have := b.le_toInt
    have := b.toInt_lt
    omega
  | long b | enum b =>
    simp only [toInt?, Option.some.injEq] at h
    have := b.le_toInt
    have := b.toInt_lt
    omega
  | hyper b =>
    simp only [toInt?, Option.some.injEq] at h
    have := b.le_toInt
    have := b.toInt_lt
    omega
  | uhyper b =>
    simp only [toInt?, Option.some.injEq] at h
    have := b.toInt64.le_toInt
    have := b.toInt64.toInt_lt
    omega
  | _ => simp [toInt?] at h

end Ndr.Value
