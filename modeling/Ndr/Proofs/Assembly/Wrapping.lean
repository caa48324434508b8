import Ndr.Assembler.Measure
import Ndr.Proofs.Action

/-!
Types with routines ahead of them that release values. Wherever such routines stand, the alignments and
the properties stay the same, as far as types still nest no deeper than the limit. At the end of a struct
they are not looked through: a struct never becomes conformant by them, and one whose last field stands
behind a routine is not conformant.
-/

namespace Ndr

open List (Forall₂)

/-- The second type is the first one with routines that release values, ahead of it or of types by value
in it; alignment markers are no values. -/
inductive TypeSpec.Wraps : TypeSpec → TypeSpec → Prop where
  | refl (t : TypeSpec) : Wraps t t
  | routine {t t' : TypeSpec} (routine : UInt32) (value : t.isMarker = false) (inner : Wraps t t') :
      Wraps t (.freeRep routine t')
  | nested {s s' : StructSpec} (fields : Forall₂ Wraps s.fields s'.fields) :
      Wraps (.nested s) (.nested s')
  | array {s s' : ArraySpec} (kind : s'.kind = s.kind) (v1 : s'.v1 = s.v1)
      (element : Wraps s.element s'.element) : Wraps (.array s) (.array s')
  | union {u u' : UnionSpec} (switch : u'.switch = u.switch)
      (arms : Forall₂ Wraps u.armTypes u'.armTypes) : Wraps (.union u) (.union u')
  | pointer {t t' : TypeSpec} (kind : PointerKind) (pointee : Wraps t t') :
      Wraps (.pointer kind t) (.pointer kind t')
  | converted {t t' : TypeSpec} (kind : ConversionKind) (routine : UInt32) (wire : Wraps t t') :
      Wraps (.converted kind routine t) (.converted kind routine t')
  | pipe {t t' : TypeSpec} (element : Wraps t t') : Wraps (.pipe t) (.pipe t')

open TypeSpec (Wraps)

/-- A marker stays as it is. -/
theorem TypeSpec.Wraps.isMarker_eq {t t' : TypeSpec} (h : Wraps t t') : t'.isMarker = t.isMarker := by
  cases h with
  | refl => rfl
  | routine _ value _ => exact value.symm
  | nested | array | union | pointer | converted | pipe => rfl

theorem StructSpec.slotted_wraps {s s' : StructSpec} (h : Forall₂ Wraps s.fields s'.fields) :
    Forall₂ Wraps s.slotted s'.slotted := by
  unfold StructSpec.slotted
  generalize s.fields = ts, s'.fields = ts' at h
  induction h with
  | nil => exact .nil
  | cons ht hts ih =>
    rw [List.filter_cons, List.filter_cons, ht.isMarker_eq]
    split
    · exact .cons ht ih
    · exact ih

/-- The last fields correspond. -/
theorem StructSpec.lastField?_wraps {s s' : StructSpec} {t' : TypeSpec}
    (h : Forall₂ Wraps s.fields s'.fields) (hlast : s'.lastField? = some t') :
    ∃ t, s.lastField? = some t ∧ Wraps t t' := by
  have hslotted := StructSpec.slotted_wraps h
  unfold StructSpec.lastField? at hlast ⊢
  generalize s.slotted = ts, s'.slotted = ts' at hslotted hlast
  induction hslotted with
  | nil => exact absurd hlast (by simp)
  | @cons t u ts us ht hts ih =>
    cases hts with
    | nil =>
      obtain rfl := Option.some.inj hlast
      exact ⟨t, rfl, ht⟩
    | cons => exact ih hlast

namespace Assembler

variable {a b : Assembler}

/-- The structs of the second assembler are those of the first, with routines in their fields. -/
def WrapsStructs (a b : Assembler) : Prop :=
  ∀ id s', b.structSpec id = .ok s' → ∃ s, a.structSpec id = .ok s ∧ Forall₂ Wraps s.fields s'.fields

/-- What is put together from parts of types, where the parts are the same. -/
theorem foldlM_wraps {α γ : Type} {f g : TypeSpec → Except Fault γ} {op : α → γ → α}
    {ts ts' : List TypeSpec} (h : Forall₂ Wraps ts ts')
    (hfg : ∀ t t' c, Wraps t t' → f t' = .ok c → g t = .ok c) {all out : α}
    (e : ts'.foldlM (fun all t => return op all (← f t)) all = .ok out) :
    ts.foldlM (fun all t => return op all (← g t)) all = .ok out := by
  induction h generalizing all with
  | nil => exact e
  | cons ht hts ih =>
    rw [List.foldlM_cons] at e ⊢
    obtain ⟨all', e1, e⟩ := Except.bind_eq_ok.1 e
    obtain ⟨c, hc, e1⟩ := Except.bind_eq_ok.1 e1
    rw [hfg _ _ c ht hc]
    exact Except.bind_eq_ok.2 ⟨all', e1, ih e⟩

/-- **Routines that release values do not change alignments.** -/
theorem alignOf_wraps (hstructs : WrapsStructs a b) {room room' : Nat} (hroom : room' ≤ room)
    {t t' : TypeSpec} (h : Wraps t t') {n : Nat} (e : b.alignOf room' t' = .ok n) :
    a.alignOf room t = .ok n := by
  induction room' generalizing room t t' n with
  | zero => exact absurd e (by simp [alignOf])
  | succ room' ih =>
    obtain ⟨room, rfl⟩ := Nat.exists_eq_succ_of_ne_zero (Nat.ne_zero_of_lt hroom)
    have hle : room' ≤ room := Nat.le_of_succ_le_succ hroom
    have hparts : ∀ t t' n, Wraps t t' → b.alignOf room' t' = .ok n → a.alignOf room t = .ok n :=
      fun _ _ _ h e => ih hle h e
    cases h with
    | refl =>
      cases t with
      | struct id =>
        obtain ⟨s', hs', e⟩ := Except.bind_eq_ok.1 e
        obtain ⟨s, hs, hfields⟩ := hstructs id s' hs'
        exact Except.bind_eq_ok.2 ⟨s, hs, foldlM_wraps hfields hparts e⟩
      | nested s => exact foldlM_wraps (List.forall₂_same.2 fun _ _ => .refl _) hparts e
      | array s =>
        obtain ⟨element, helement, e⟩ := Except.bind_eq_ok.1 e
        exact Except.bind_eq_ok.2 ⟨element, hparts _ _ _ (.refl _) helement, e⟩
      | union u =>
        obtain ⟨arms, harms, e⟩ := Except.bind_eq_ok.1 e
        exact Except.bind_eq_ok.2
          ⟨arms, foldlM_wraps (List.forall₂_same.2 fun _ _ => .refl _) hparts harms, e⟩
      | converted kind routine inner => exact hparts _ _ _ (.refl _) e
      | freeRep routine inner => exact hparts _ _ _ (.refl _) e
      | _ => exact e
    | routine _ _ inner => exact ih (Nat.le_succ_of_le hle) inner e
    | nested fields => exact foldlM_wraps fields hparts e
    | array kind v1 element =>
      obtain ⟨align, halign, e⟩ := Except.bind_eq_ok.1 e
      rw [kind, v1] at e
      exact Except.bind_eq_ok.2 ⟨align, hparts _ _ _ element halign, e⟩
    | union switch arms =>
      obtain ⟨align, halign, e⟩ := Except.bind_eq_ok.1 e
      rw [switch] at e
      exact Except.bind_eq_ok.2 ⟨align, foldlM_wraps arms hparts halign, e⟩
    | converted _ _ wire => exact hparts _ _ _ wire e
    | pointer | pipe => exact e

/-- **Routines that release values do not change properties.** -/
theorem propsOf_wraps (hstructs : WrapsStructs a b) {room room' : Nat} (hroom : room' ≤ room)
    {t t' : TypeSpec} (h : Wraps t t') {props : UInt8} (e : b.propsOf room' t' = .ok props) :
    a.propsOf room t = .ok props := by
  induction room' generalizing room t t' props with
  | zero => exact absurd e (by simp [propsOf])
  | succ room' ih =>
    obtain ⟨room, rfl⟩ := Nat.exists_eq_succ_of_ne_zero (Nat.ne_zero_of_lt hroom)
    have hle : room' ≤ room := Nat.le_of_succ_le_succ hroom
    have hparts : ∀ t t' props, Wraps t t' → b.propsOf room' t' = .ok props →
        a.propsOf room t = .ok props :=
      fun _ _ _ h e => ih hle h e
    cases h with
    | refl =>
      cases t with
      | struct id =>
        obtain ⟨s', hs', e⟩ := Except.bind_eq_ok.1 e
        obtain ⟨s, hs, hfields⟩ := hstructs id s' hs'
        exact Except.bind_eq_ok.2 ⟨s, hs, foldlM_wraps hfields hparts e⟩
      | nested s => exact foldlM_wraps (List.forall₂_same.2 fun _ _ => .refl _) hparts e
      | array s =>
        obtain ⟨element, helement, e⟩ := Except.bind_eq_ok.1 e
        exact Except.bind_eq_ok.2 ⟨element, hparts _ _ _ (.refl _) helement, e⟩
      | union u => exact foldlM_wraps (List.forall₂_same.2 fun _ _ => .refl _) hparts e
      | pipe element =>
        obtain ⟨inner, hinner, e⟩ := Except.bind_eq_ok.1 e
        exact Except.bind_eq_ok.2 ⟨inner, hparts _ _ _ (.refl _) hinner, e⟩
      | converted kind routine inner => exact hparts _ _ _ (.refl _) e
      | freeRep routine inner => exact hparts _ _ _ (.refl _) e
      | _ => exact e
    | routine _ _ inner => exact ih (Nat.le_succ_of_le hle) inner e
    | nested fields => exact foldlM_wraps fields hparts e
    | array kind v1 element =>
      obtain ⟨inner, hinner, e⟩ := Except.bind_eq_ok.1 e
      rw [kind] at e
      exact Except.bind_eq_ok.2 ⟨inner, hparts _ _ _ element hinner, e⟩
    | @union u u' switch arms =>
      have e : joinProps (b.propsOf room') (scalarProps u'.switch) u'.armTypes = .ok props := e
      rw [switch] at e
      exact foldlM_wraps arms hparts e
    | pipe element =>
      obtain ⟨inner, hinner, e⟩ := Except.bind_eq_ok.1 e
      exact Except.bind_eq_ok.2 ⟨inner, hparts _ _ _ element hinner, e⟩
    | converted _ _ wire => exact hparts _ _ _ wire e
    | pointer => exact e

/-! ### The end of a struct -/

/-- **No struct becomes conformant by routines that release values.** -/
theorem trailingArray_wraps (hstructs : WrapsStructs a b) {room room' : Nat} (hroom : room' ≤ room)
    {s s' : StructSpec} (h : Forall₂ Wraps s.fields s'.fields) {array' : ArraySpec}
    (e : b.trailingArray room' s' = .ok (some array')) :
    ∃ array, a.trailingArray room s = .ok (some array) ∧ Wraps (.array array) (.array array') := by
  induction room' generalizing room s s' with
  | zero => exact absurd e (by simp [trailingArray])
  | succ room' ih =>
    obtain ⟨room, rfl⟩ := Nat.exists_eq_succ_of_ne_zero (Nat.ne_zero_of_lt hroom)
    unfold trailingArray at e ⊢
    split at e
    · next found hlast =>
      obtain ⟨t, ht, hwraps⟩ := StructSpec.lastField?_wraps h hlast
      have hfound := Except.ok.inj e
      split at hfound
      · next hconformant =>
        obtain rfl := Option.some.inj hfound
        cases hwraps with
        | refl =>
          rw [ht]
          exact ⟨_, by simp [hconformant], .refl _⟩
        | @array plain _ kind v1 element =>
          rw [ht]
          exact ⟨plain, by simp [← kind, hconformant], .array kind v1 element⟩
      · exact absurd hfound (by simp)
    · next id hlast =>
      obtain ⟨t, ht, hwraps⟩ := StructSpec.lastField?_wraps h hlast
      obtain ⟨inner', hinner', e⟩ := Except.bind_eq_ok.1 e
      obtain ⟨inner, hinner, hfields⟩ := hstructs id inner' hinner'
      cases hwraps
      obtain ⟨array, harray, hsame⟩ := ih (Nat.le_of_succ_le_succ hroom) hfields e
      rw [ht]
      exact ⟨array, Except.bind_eq_ok.2 ⟨inner, hinner, harray⟩, hsame⟩
    · exact absurd (Except.ok.inj e) (by simp)

/-- **A routine ahead of the last field of a struct takes its conformance away.** -/
theorem trailingArray_behind_routine {s : StructSpec} {routine : UInt32} {t : TypeSpec}
    (h : s.lastField? = some (.freeRep routine t)) (room : Nat) :
    a.trailingArray (room + 1) s = .ok none := by
  unfold trailingArray
  rw [h]

end Assembler

end Ndr
