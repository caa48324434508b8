import Mathlib.Data.Finset.Card
import Ndr.Proofs.TypeVector.Reading
import Ndr.Unmarshal.Zero

/-!
Zeros of types: how deep their parts nest is no limit, since a type that does not contain itself has
fewer levels than its vector has bytes. A type that contains itself has no zero at any depth.
-/

namespace Ndr.Unmarshal

variable {env : Env} {d e : Descriptor} {n m : Nat} {v : Value}

/-! ### Parts -/

/-- The zero of a type holds the zero of another. -/
inductive PartOf (env : Env) : Descriptor → Descriptor → Prop where
  | struct {d e : Descriptor} {kind : StructKind} {props : UInt8} {definition : Nat}
      {s : StructDefinition} (form : d.form = .struct kind props definition)
      (found : env.vector.structDefinition definition = .ok s)
      (mem : e ∈ s.fields.filter Descriptor.isField) : PartOf env d e
  | nested {d e : Descriptor} {align layout : Nat} {fields : List Descriptor}
      (form : d.form = .nested align layout fields)
      (mem : e ∈ fields.filter Descriptor.isField) : PartOf env d e
  | element {d : Descriptor} {kind : ArrayKind} {props : UInt8} {dims definition : Nat}
      {a : ArrayDefinition} (form : d.form = .array kind props dims definition)
      (constant : kind.isConformant = false)
      (found : env.vector.arrayDefinition definition kind.isVarying = .ok a) :
      PartOf env d a.element

/-- A type with parts of parts, `n` levels deep. -/
inductive Nests (env : Env) : Nat → Descriptor → Prop where
  | zero (d : Descriptor) : Nests env 0 d
  | succ {n : Nat} {d e : Descriptor} (part : PartOf env d e) (nests : Nests env n e) :
      Nests env (n + 1) d

/-- The parts of a type stand in the vector as well. -/
theorem PartOf.standsIn (h : PartOf env d e) (hd : d.StandsIn env.vector) :
    e.StandsIn env.vector := by
  cases h with
  | struct _ found mem =>
    exact (TypeVector.structDefinition_of_gives TypeVector.gives_readDescriptor_standsIn found).2 e
      (List.mem_of_mem_filter mem)
  | nested form mem =>
    obtain ⟨-, hfields⟩ := hd
    exact hfields _ _ _ form e (List.mem_of_mem_filter mem)
  | element _ _ found =>
    exact TypeVector.arrayDefinition_of_gives TypeVector.gives_readDescriptor_standsIn found

namespace Nests

theorem of_succ (h : Nests env (n + 1) d) : Nests env n d := by
  induction n generalizing d with
  | zero => exact .zero d
  | succ n ih =>
    cases h with
    | succ part nests => exact .succ part (ih nests)

theorem mono (h : Nests env n d) (hm : m ≤ n) : Nests env m d := by
  induction hm with
  | refl => exact h
  | step _ ih => exact ih h.of_succ

/-- A type that nests `k` levels and no more has parts of every smaller number of levels. -/
theorem exists_level {k : Nat} (h : Nests env n d) (hn : ¬Nests env (n + 1) d)
    (hd : d.StandsIn env.vector) (hk : k ≤ n) :
    ∃ e, e.StandsIn env.vector ∧ Nests env k e ∧ ¬Nests env (k + 1) e := by
  induction n generalizing d with
  | zero =>
    obtain rfl := Nat.le_zero.1 hk
    exact ⟨d, hd, h, hn⟩
  | succ n ih =>
    rcases Nat.lt_or_ge n k with hlt | hle
    · obtain rfl : k = n + 1 := by omega
      exact ⟨d, hd, h, hn⟩
    · cases h with
      | succ part nests =>
        exact ih nests (fun h' => hn (.succ part h')) (part.standsIn hd) hle

/-- **A type has fewer levels than its vector has bytes**, if their number has an end at all: types
of different numbers of levels stand at different offsets. -/
theorem of_size (h : Nests env env.vector.size d) (hd : d.StandsIn env.vector) (n : Nat) :
    Nests env n d := by
  by_contra hn
  -- the number of levels
  obtain ⟨l, hl, hl'⟩ : ∃ l, Nests env l d ∧ ¬Nests env (l + 1) d := by
    induction n with
    | zero => exact absurd (.zero d) hn
    | succ n ih =>
      by_cases h' : Nests env n d
      · exact ⟨n, h', hn⟩
      · exact ih h'
  have hlevel : ∀ k, ∃ e : Descriptor, k ≤ l →
      e.StandsIn env.vector ∧ Nests env k e ∧ ¬Nests env (k + 1) e := fun k => by
    by_cases hk : k ≤ l
    · obtain ⟨e, he⟩ := exists_level hl hl' hd hk
      exact ⟨e, fun _ => he⟩
    · exact ⟨d, fun h => absurd h hk⟩
  choose f hf using hlevel
  have hcard : (Finset.range (l + 1)).card ≤ (Finset.range env.vector.size).card := by
    refine Finset.card_le_card_of_injOn (fun k => (f k).offset) (fun k hk => ?_) ?_
    · have hk := Nat.le_of_lt_succ (Finset.mem_range.1 hk)
      exact Finset.mem_coe.2 (Finset.mem_range.2 (hf k hk).1.lt_size)
    · intro i hi j hj hij
      obtain ⟨hsi, hni, hni'⟩ := hf i (Nat.le_of_lt_succ (Finset.mem_range.1 hi))
      obtain ⟨hsj, hnj, hnj'⟩ := hf j (Nat.le_of_lt_succ (Finset.mem_range.1 hj))
      have he := hsi.unique hsj hij
      rw [he] at hni hni'
      rcases Nat.lt_trichotomy i j with hlt | heq | hgt
      · exact absurd (hnj.mono hlt) hni'
      · exact heq
      · exact absurd (hni.mono hgt) hnj'
  rw [Finset.card_range, Finset.card_range] at hcard
  exact hl' (h.mono hcard)

end Nests

/-! ### Zeros of parts -/

section

variable {zero zero' : Descriptor → Except Fault Value} {fields : List Descriptor}

theorem zeroFields_congr (h : ∀ e ∈ fields, zero e = zero' e) (layout index : Nat)
    (slots : Array Value) :
    zeroFields env zero layout index fields slots
      = zeroFields env zero' layout index fields slots := by
  induction fields generalizing index slots with
  | nil => rfl
  | cons d ds ih =>
    simp only [zeroFields, h d List.mem_cons_self, ih fun e he => h e (List.mem_cons_of_mem _ he)]

theorem zeroStruct_congr (h : ∀ e ∈ fields.filter Descriptor.isField, zero e = zero' e)
    (layout : Nat) : zeroStruct env zero layout fields = zeroStruct env zero' layout fields := by
  simp only [zeroStruct, zeroFields_congr h]

theorem zero_of_zeroFields {layout index : Nat} {slots slots' : Array Value}
    (h : zeroFields env zero layout index fields slots = .ok slots') :
    ∀ e ∈ fields, ∃ w, zero e = .ok w := by
  induction fields generalizing index slots with
  | nil => exact fun _ he => absurd he List.not_mem_nil
  | cons d ds ih =>
    obtain ⟨slot, -, h⟩ := Except.bind_eq_ok.1 h
    obtain ⟨w, hw, h⟩ := Except.bind_eq_ok.1 h
    exact List.forall_mem_cons.2 ⟨⟨w, hw⟩, ih h⟩

theorem zero_of_zeroStruct {layout : Nat} (h : zeroStruct env zero layout fields = .ok v) :
    ∀ e ∈ fields.filter Descriptor.isField, ∃ w, zero e = .ok w := by
  obtain ⟨count, -, h⟩ := Except.bind_eq_ok.1 h
  obtain ⟨slots, hslots, -⟩ := Except.bind_eq_ok.1 h
  exact zero_of_zeroFields hslots

end

/-- The parts of a type that has a zero have one. -/
theorem zero_of_partOf (h : zeroFrom env (n + 1) d = .ok v) (part : PartOf env d e) :
    ∃ w, zeroFrom env n e = .ok w := by
  cases part with
  | struct form found mem =>
    simp only [zeroFrom, form] at h
    obtain ⟨s, hs, h⟩ := Except.bind_eq_ok.1 h
    obtain rfl := Except.ok.inj (found.symm.trans hs)
    exact zero_of_zeroStruct h e mem
  | nested form mem =>
    simp only [zeroFrom, form] at h
    exact zero_of_zeroStruct h e mem
  | element form constant found =>
    simp only [zeroFrom, form, constant, Bool.false_eq_true, if_false] at h
    obtain ⟨a, ha, h⟩ := Except.bind_eq_ok.1 h
    obtain rfl := Except.ok.inj (found.symm.trans ha)
    obtain ⟨_, -, h⟩ := Except.bind_eq_ok.1 h
    obtain ⟨_, -, h⟩ := Except.bind_eq_ok.1 h
    obtain ⟨w, hw, -⟩ := Except.bind_eq_ok.1 h
    exact ⟨w, hw⟩

/-- A type does not reach the depth at which it has a zero. -/
theorem not_nests_of_zeroFrom (h : zeroFrom env n d = .ok v) : ¬Nests env n d := by
  induction n generalizing d v with
  | zero => exact absurd h (by simp [zeroFrom])
  | succ n ih =>
    rintro (_ | ⟨part, nests⟩)
    obtain ⟨w, hw⟩ := zero_of_partOf h part
    exact ih hw nests

/-- The zero of a type is the same at all depths that the type does not reach. -/
theorem zeroFrom_eq (h : ¬Nests env n d) (hm : n ≤ m) : zeroFrom env m d = zeroFrom env n d := by
  induction n generalizing m d with
  | zero => exact absurd (.zero d) h
  | succ n ih =>
    obtain ⟨m, rfl⟩ := Nat.exists_eq_succ_of_ne_zero (Nat.ne_zero_of_lt hm)
    have hpart : ∀ {e}, PartOf env d e → zeroFrom env m e = zeroFrom env n e := fun part =>
      ih (fun nests => h (.succ part nests)) (Nat.le_of_succ_le_succ hm)
    cases hform : d.form with
    | struct kind props definition =>
      simp only [zeroFrom, hform]
      cases hs : env.vector.structDefinition definition with
      | error f => rfl
      | ok s => exact zeroStruct_congr (fun e he => hpart (.struct hform hs he)) _
    | nested align layout fields =>
      simp only [zeroFrom, hform]
      exact zeroStruct_congr (fun e he => hpart (.nested hform he)) _
    | array kind props dims definition =>
      simp only [zeroFrom, hform]
      split
      · rfl
      · unfold zeroArray
        cases ha : env.vector.arrayDefinition definition kind.isVarying with
        | error f => rfl
        | ok a =>
          have helement := hpart (.element hform (Bool.eq_false_iff.2 ‹_›) ha)
          simp only [bind, Except.bind, helement]
    | _ => simp only [zeroFrom, hform]

/-! ### The bound -/

/-- **The depth of zeros is no limit**: a type that stands in the vector has a zero where it has one
at any depth, and this one. Where it contains itself by value, it has none. -/
theorem zeroValue_eq_ok_iff (hd : d.StandsIn env.vector) :
    zeroValue env d = .ok v ↔ ∃ n, zeroFrom env n d = .ok v := by
  refine ⟨fun h => ⟨_, h⟩, fun ⟨n, h⟩ => ?_⟩
  have hn := not_nests_of_zeroFrom h
  have hsize : ¬Nests env env.vector.size d := fun h' => hn (h'.of_size hd n)
  unfold zeroValue
  rw [zeroFrom_eq hsize (Nat.le_succ _), ← h]
  rcases Nat.le_total env.vector.size n with hle | hle
  · exact (zeroFrom_eq hsize hle).symm
  · exact zeroFrom_eq hn hle

/-- The same of the elements of arrays, which are what is filled in where it is not sent. -/
theorem zeroValue_element_eq_ok_iff {definition : Nat} {varying : Bool} {a : ArrayDefinition}
    (ha : env.vector.arrayDefinition definition varying = .ok a) :
    zeroValue env a.element = .ok v ↔ ∃ n, zeroFrom env n a.element = .ok v :=
  zeroValue_eq_ok_iff
    (TypeVector.arrayDefinition_of_gives TypeVector.gives_readDescriptor_standsIn ha)

end Ndr.Unmarshal
