import Ndr.Proofs.Assembly.Vector
import Ndr.Proofs.Lockstep.Struct

/-!
What assembled types refer to: the structs that they mention, the types that are met through
these, and the fields of a struct by their numbers, as the descriptors of the vector have them.
-/

namespace Ndr

/-- The slots of a struct are each the slot of one field. -/
def StructSpec.Permutes (s : StructSpec) : Prop :=
  ∀ slots, s.hostSlots = some slots → (slots.map UInt32.toNat).Perm (List.range s.slotted.length)

/-- A type mentions a struct, itself or in one of its parts. -/
inductive TypeSpec.Mentions : TypeSpec → StructId → Prop where
  | struct (id : StructId) : Mentions (.struct id) id
  | part {s t : TypeSpec} {id : StructId} (hs : s ∈ t.parts) (h : s.Mentions id) : Mentions t id

/-- A layout that lays out each field in a slot of its own covers all slots. -/
theorem Layout.Lays.covers {l : Layout} {index : Nat} {s : StructSpec} (h : l.Lays index s)
    (hp : s.Permutes) : l.Covers index s.slotted.length := by
  intro n hn p hlt
  obtain rfl := Except.ok.inj (h.count.symm.trans hn)
  have hsmall : s.slotted.length < 2 ^ 32 := by
    obtain ⟨e, -, he⟩ := slotCount_eq_ok_iff.1 h.count
    exact he ▸ e.toNat_lt
  suffices hslot : ∃ k : Nat, ∃ slot : UInt32, s.slots[k]? = some slot ∧ slot.toNat = p by
    obtain ⟨k, slot, hk, rfl⟩ := hslot
    exact ⟨k, h.length ▸ (List.getElem?_eq_some_iff.1 hk).1, h.slots k slot hk⟩
  cases hhost : s.hostSlots with
  | some slots =>
    have hmem := (hp slots hhost).mem_iff.2 (List.mem_range.2 hlt)
    obtain ⟨slot, hslot, rfl⟩ := List.mem_map.1 hmem
    obtain ⟨k, hk⟩ := List.getElem?_of_mem hslot
    exact ⟨k, slot, by rw [StructSpec.slots, hhost]; exact hk, rfl⟩
  | none =>
    refine ⟨p, UInt32.ofNat p, ?_, UInt32.toNat_ofNat_of_lt' (Nat.lt_trans hlt hsmall)⟩
    rw [StructSpec.slots, hhost, Option.getD_none, List.getElem?_map, List.getElem?_range hlt]
    rfl

namespace Assembler

/-- The structs that some types mention, and those that their fields mention in turn. -/
inductive Refers (b : Assembler) (ts : List TypeSpec) : StructId → Prop where
  | root {t : TypeSpec} {id : StructId} (ht : t ∈ ts) (h : t.Mentions id) : Refers b ts id
  | step {id id' : StructId} {s : StructSpec} {t : TypeSpec} (hr : Refers b ts id)
      (hs : b.spec? id = some s) (ht : t ∈ s.fields) (h : t.Mentions id') : Refers b ts id'

/-- Some types are as `P` asks, and so are the fields of all structs that they refer to, which take
the slots of their structs. -/
structure Throughout (b : Assembler) (P : TypeSpec → Prop) (ts : List TypeSpec) : Prop where
  types : ∀ t ∈ ts, P t
  structs : ∀ id s, b.Refers ts id → b.spec? id = some s → s.Permutes ∧ ∀ t ∈ s.fields, P t

/-- A type as `P` asks that some types lead to. -/
structure Within (b : Assembler) (P : TypeSpec → Prop) (ts : List TypeSpec) (t : TypeSpec) : Prop
    where
  type : P t
  refers : ∀ id, t.Mentions id → b.Refers ts id

section

variable {i : Interface} {a b : Assembler} {t : TypeSpec} {s : StructSpec} {id : StructId}
  {m : Modifiers} {d : Descriptor} {ps : List (UInt32 × TypeSpec)} {list : List Parameter}
  {P : TypeSpec → Prop} {ts : List TypeSpec}

/-! ### Types that are met -/

theorem Throughout.root (h : b.Throughout P ts) (ht : t ∈ ts) : b.Within P ts t :=
  ⟨h.types t ht, fun _ hid => .root ht hid⟩

theorem Throughout.field (h : b.Throughout P ts) (hr : b.Refers ts id) (hs : b.spec? id = some s)
    (ht : t ∈ s.fields) : b.Within P ts t :=
  ⟨(h.structs id s hr hs).2 t ht, fun _ hid => .step hr hs ht hid⟩

theorem Within.part {u : TypeSpec} (h : b.Within P ts t) (hu : u ∈ t.parts) (hP : P u) :
    b.Within P ts u := ⟨hP, fun id hid => h.refers id (.part hu hid)⟩

/-! ### Fields -/

/-- Markers are read as markers, and all else as fields. -/
theorem isField_of_plain (h : Spells i a m t d) (ht : t.Plain) : d.isField = !t.isMarker := by
  cases h with
  | freeRep hd =>
    obtain ⟨-, hfree, -, -⟩ := ht
    obtain ⟨hmarker, hnot⟩ := hfree _ _ rfl
    cases hd with
    | freeRep => exact absurd rfl (hnot _ _)
    | align => exact absurd hmarker (by simp [TypeSpec.isMarker])
    | _ => rfl
  | _ => rfl

theorem slotted_spelled {ds : List Descriptor} (h : List.Forall₂ (Spells i a {}) s.fields ds)
    (hp : s.Plain) : List.Forall₂ (Spells i a {}) s.slotted (ds.filter Descriptor.isField) := by
  unfold StructSpec.slotted
  unfold StructSpec.Plain at hp
  generalize s.fields = specs at h hp
  induction h with
  | nil => exact .nil
  | @cons t d specs ds hd _ ih =>
    rw [List.filter_cons, List.filter_cons, isField_of_plain hd (hp t List.mem_cons_self)]
    have ih := ih fun u hu => hp u (List.mem_cons_of_mem _ hu)
    split
    · exact .cons hd ih
    · exact ih

/-- The fields of a struct take as many slots as those of its type. -/
theorem countP_isField {ds : List Descriptor} (h : List.Forall₂ (Spells i a {}) s.fields ds)
    (hp : s.Plain) : ds.countP Descriptor.isField = s.slotted.length := by
  rw [List.countP_eq_length_filter]
  exact (slotted_spelled h hp).length_eq.symm

/-- A field that is found by its number is one of the type, in the slot of the type. -/
theorem field_spelled {ds : List Descriptor} {layout k slot : Nat} {f : Descriptor}
    (h : List.Forall₂ (Spells i a {}) s.fields ds) (hp : s.Plain)
    (hlays : i.layout.Lays layout s) (hf : (ds.filter Descriptor.isField)[k]? = some f)
    (hk : i.layout.slot layout k = .ok slot) :
    ∃ t slot', s.slotted[k]? = some t ∧ s.slots[k]? = some slot' ∧ slot'.toNat = slot ∧
      t ∈ s.fields ∧ Spells i a {} t f := by
  have hall := slotted_spelled h hp
  obtain ⟨hlt, hf⟩ := List.getElem?_eq_some_iff.1 hf
  have hlt' : k < s.slotted.length := hall.length_eq ▸ hlt
  have hspells := hall.get hlt' hlt
  simp only [List.get_eq_getElem, hf] at hspells
  have hslot := List.getElem?_eq_getElem (hlays.length ▸ hlt')
  refine ⟨_, _, List.getElem?_eq_getElem hlt', hslot, ?_, ?_, hspells⟩
  · exact Except.ok.inj ((hlays.slots k _ hslot).symm.trans hk)
  · exact (List.mem_filter.1 (List.getElem_mem hlt')).1

/-- The struct that is defined at its offset. -/
theorem definedAs_of_offset (hspec : ∀ id, a.spec? id = b.spec? id) (hs : Settled i a a) {n : Nat}
    (hn : a.offset? id = some n) (hplain : ∀ s, b.spec? id = some s → s.Plain) :
    ∃ s d, b.spec? id = some s ∧ DefinedAs i a s n d := by
  obtain ⟨s, hs', hdefined⟩ := hs id n hn
  rw [hspec] at hs'
  obtain ⟨_, hdefines, -⟩ := hdefined (hplain s hs')
  obtain ⟨d, hd⟩ := hdefines.definedAs
  exact ⟨s, d, hs', hd⟩

/-- The fields of a definition at the offset of a struct take all its slots. -/
theorem Throughout.covers (h : b.Throughout P ts) (hP : ∀ t, P t → t.Plain)
    (hspec : ∀ id, a.spec? id = b.spec? id) (hs : Settled i a a) (hr : b.Refers ts id) {n : Nat}
    (hn : a.offset? id = some n) {d : StructDefinition} (hd : i.vector.structDefinition n = .ok d) :
    i.layout.Covers d.layout (d.fields.countP Descriptor.isField) := by
  obtain ⟨s, d', hs', hd'⟩ := definedAs_of_offset hspec hs hn fun s hs t ht =>
    hP t (h.field hr hs ht).type
  obtain rfl := Except.ok.inj (hd.symm.trans hd'.read)
  rw [countP_isField hd'.fields fun t ht => hP t (h.field hr hs' ht).type]
  exact hd'.layout.covers (h.structs id s hr hs').1

/-- A field of a definition at the offset of a struct is one of the struct. -/
theorem Throughout.field_spelled (h : b.Throughout P ts) (hP : ∀ t, P t → t.Plain)
    (hspec : ∀ id, a.spec? id = b.spec? id) (hs : Settled i a a) (hr : b.Refers ts id) {n : Nat}
    (hn : a.offset? id = some n) {d : StructDefinition} (hd : i.vector.structDefinition n = .ok d)
    {k slot : Nat} {f : Descriptor} (hf : (d.fields.filter Descriptor.isField)[k]? = some f)
    (hk : i.layout.slot d.layout k = .ok slot) :
    ∃ s t slot', b.spec? id = some s ∧ s.slotted[k]? = some t ∧ s.slots[k]? = some slot' ∧
      slot'.toNat = slot ∧ Spells i a {} t f ∧ b.Within P ts t := by
  obtain ⟨s, d', hs', hd'⟩ := definedAs_of_offset hspec hs hn fun s hs t ht =>
    hP t (h.field hr hs ht).type
  obtain rfl := Except.ok.inj (hd.symm.trans hd'.read)
  obtain ⟨t, slot', ht, hslot, hslot', hmem, hspells⟩ := Assembler.field_spelled hd'.fields
    (fun t ht => hP t (h.field hr hs' ht).type) hd'.layout hf hk
  exact ⟨s, t, slot', hs', ht, hslot, hslot', hspells, h.field hr hs' hmem⟩

/-! ### Parameters -/

/-- A parameter of a list is one that was asked for. -/
theorem parameter_spelled (h : List.Forall₂ (SpellsParameter i a) ps list) {p : Parameter}
    (hp : p ∈ list) : ∃ q ∈ ps, SpellsParameter i a q p :=
  exists_of_forall₂ h.flip hp

theorem nodup_index (h : List.Forall₂ (SpellsParameter i a) ps list)
    (hps : (ps.map Prod.fst).Nodup) : (list.map Parameter.index).Nodup := by
  have heq : list.map Parameter.index = (ps.map Prod.fst).map UInt32.toNat := by
    clear hps
    induction h with
    | nil => rfl
    | cons h _ ih => rw [List.map_cons, List.map_cons, List.map_cons, h.1, ih]
  rw [heq]
  exact hps.map fun _ _ => UInt32.toNat_inj.1

end

end Assembler

end Ndr
