import Ndr.Proofs.Assembly.Vector

/-!
Chains of structs: each one ends by value with the next one, and the last one with a conformant
array. In a vector the descriptors of the last fields lead to the array from struct to struct, and
the operand of the first struct leads to it at once.
-/

namespace Ndr

/-! ### Chains in a vector -/

/-- The last field of a struct; the markers behind it are none. -/
def StructDefinition.lastField? (d : StructDefinition) : Option Descriptor :=
  (d.fields.filter Descriptor.isField).getLast?

/-- The definitions of structs, from the one at an offset on, each of which ends by value with the
next one, and the conformant array that the last one ends with. -/
inductive TypeVector.Chain (tv : TypeVector) : Nat → List StructDefinition → Descriptor → Prop where
  | array {n dims definition : Nat} {d : StructDefinition} {f : Descriptor} {kind : ArrayKind}
      {props : UInt8} (hd : tv.structDefinition n = .ok d) (hlast : d.lastField? = some f)
      (hform : f.form = .array kind props dims definition) (hkind : kind.isConformant) :
      Chain tv n [d] f
  | struct {n m : Nat} {d : StructDefinition} {ds : List StructDefinition} {f g : Descriptor}
      {kind : StructKind} {props : UInt8} (hd : tv.structDefinition n = .ok d)
      (hlast : d.lastField? = some g) (hform : g.form = .struct kind props m)
      (hkind : kind ≠ .fixed) (h : Chain tv m ds f) : Chain tv n (d :: ds) f

theorem TypeVector.Chain.first {tv : TypeVector} {n : Nat} {ds : List StructDefinition}
    {f : Descriptor} (h : Chain tv n ds f) :
    ∃ d rest g, ds = d :: rest ∧ tv.structDefinition n = .ok d ∧ d.lastField? = some g := by
  cases h with
  | array hd hlast | struct hd hlast => exact ⟨_, _, _, rfl, hd, hlast⟩

/-! ### Chains of types -/

/-- The array that a struct ends with is one. -/
theorem StructSpec.EndsWith.unique {a : Assembler} {s : StructSpec} {x y : ArraySpec}
    (hx : s.EndsWith a x) (hy : s.EndsWith a y) : x = y := by
  induction hx with
  | array hlast =>
    cases hy with
    | array hlast' => exact TypeSpec.array.inj (Option.some.inj (hlast.symm.trans hlast'))
    | struct hlast' => exact absurd (hlast.symm.trans hlast') (by simp)
  | struct hlast hinner _ ih =>
    cases hy with
    | array hlast' => exact absurd (hlast.symm.trans hlast') (by simp)
    | struct hlast' hinner' h' =>
      obtain rfl := TypeSpec.struct.inj (Option.some.inj (hlast.symm.trans hlast'))
      obtain rfl := Option.some.inj (hinner.symm.trans hinner')
      exact ih h'

theorem ArraySpec.isV1_modify (s : ArraySpec) : (s.modify {}).isV1 = s.v1 := by
  unfold modify Assembler.markOf
  cases s.string <;> cases s.v1 <;> rfl

namespace Assembler

variable {i : Interface} {a : Assembler} {id : StructId} {ids : List StructId} {array : ArraySpec}

/-- Structs by number, each of which ends by value with the next one, markers aside, and the
conformant array that the last one ends with. -/
inductive Chain (a : Assembler) : List StructId → ArraySpec → Prop where
  | array {id : StructId} {s : StructSpec} {array : ArraySpec} (hs : a.spec? id = some s)
      (hlast : s.lastField? = some (.array array)) (hkind : array.kind.isConformant) :
      Chain a [id] array
  | struct {id next : StructId} {ids : List StructId} {s : StructSpec} {array : ArraySpec}
      (hs : a.spec? id = some s) (hlast : s.lastField? = some (.struct next))
      (h : Chain a (next :: ids) array) : Chain a (id :: next :: ids) array

theorem Chain.congr {b : Assembler} (hspec : ∀ id, b.spec? id = a.spec? id) (h : a.Chain ids array) :
    b.Chain ids array := by
  induction h with
  | array hs hlast hkind => exact .array ((hspec _).trans hs) hlast hkind
  | struct hs hlast _ ih => exact .struct ((hspec _).trans hs) hlast ih

theorem Chain.endsWith (h : a.Chain (id :: ids) array) {s : StructSpec} (hs : a.spec? id = some s) :
    s.EndsWith a array := by
  generalize hids : id :: ids = all at h
  induction h generalizing id ids s with
  | array hs' hlast hkind =>
    obtain ⟨rfl, -⟩ := List.cons.inj hids
    obtain rfl := Option.some.inj (hs.symm.trans hs')
    exact .array hlast hkind
  | @struct _ next _ _ _ hs' hlast hnext ih =>
    obtain ⟨rfl, -⟩ := List.cons.inj hids
    obtain rfl := Option.some.inj (hs.symm.trans hs')
    obtain ⟨inner, hinner⟩ : ∃ inner, a.spec? next = some inner := by
      cases hnext with
      | array hs | struct hs => exact ⟨_, hs⟩
    exact .struct hlast hinner (ih hinner rfl)

/-! ### From types to a vector -/

/-- The definition of the struct that has this number. -/
def SpellsStruct (i : Interface) (a : Assembler) (id : StructId) (d : StructDefinition) : Prop :=
  ∃ s n, a.spec? id = some s ∧ a.offset? id = some n ∧ DefinesWhole i a s n d

/-- The last field of a struct spells its last type. -/
theorem lastField_of_spells {specs : List TypeSpec} {ds : List Descriptor} {t : TypeSpec}
    (h : List.Forall₂ (Spells i a {}) specs ds)
    (hlast : (specs.filter (!·.isMarker)).getLast? = some t)
    (ht : ∀ f, Spells i a {} t f → f.isField) :
    ∃ f, (ds.filter Descriptor.isField).getLast? = some f ∧ Spells i a {} t f := by
  induction h with
  | nil => simp at hlast
  | @cons spec d specs ds hd hds ih =>
    rw [List.filter_cons] at hlast ⊢
    -- whether the last type is among the others
    by_cases hrest : specs.filter (!·.isMarker) = []
    · obtain ⟨hnone, -⟩ := lastArray_of_markers hds hrest none
      rw [hrest] at hlast
      split at hlast
      · obtain rfl := Option.some.inj hlast
        exact ⟨d, by rw [if_pos (ht d hd), hnone]; rfl, hd⟩
      · simp at hlast
    · obtain ⟨f, hf, hspells⟩ := ih (by
        split at hlast
        · rwa [List.getLast?_cons_of_ne_nil hrest] at hlast
        · exact hlast)
      have hne : ds.filter Descriptor.isField ≠ [] := fun h => by simp [h] at hf
      refine ⟨f, ?_, hspells⟩
      split
      · rw [List.getLast?_cons_of_ne_nil hne]
        exact hf
      · exact hf

theorem spells_struct {m : Modifiers} {d : Descriptor} (h : Spells i a m (.struct id) d) :
    ∃ s kind props n, d.form = .struct kind props n ∧ d.isField ∧ a.spec? id = some s ∧
      kind.Tells a s ∧ a.offset? id = some n := by
  cases h with
  | struct hs hkind hoffset => exact ⟨_, _, _, _, rfl, rfl, hs, hkind, hoffset⟩

/-- The descriptor of a struct that ends with a conformant array tells the width of its counts. -/
theorem kind_of_tells {kind : StructKind} {s : StructSpec} (h : kind.Tells a s)
    (hends : s.EndsWith a array) : kind ≠ .fixed ∧ (kind = .v1Conformant ↔ array.v1 = true) := by
  cases kind with
  | fixed => exact absurd hends (h array)
  | conformant =>
    obtain ⟨other, hother, hv1⟩ := h
    obtain rfl := hother.unique hends
    simp [hv1]
  | v1Conformant =>
    obtain ⟨other, hother, hv1⟩ := h
    obtain rfl := hother.unique hends
    simp [hv1]

theorem spells_arrayForm {m : Modifiers} {f : Descriptor} (h : Spells i a m (.array array) f) :
    f.isField ∧ f.modifiers = array.modify m ∧
      ∃ props t, f.form = .array array.kind props array.bounds.length t := by
  cases h with
  | array => exact ⟨rfl, rfl, _, _, rfl⟩

/-- The chain of a struct at an offset of a vector: the definitions of its structs, the first of
them apart, and the array with the place of its definition. -/
structure SpellsChain (i : Interface) (a : Assembler) (ids : List StructId) (array : ArraySpec)
    (n : Nat) (d : StructDefinition) (ds : List StructDefinition) (f : Descriptor) (t : Nat) :
    Prop where
  chain : i.vector.Chain n (d :: ds) f
  structs : List.Forall₂ (SpellsStruct i a) ids (d :: ds)
  array : Spells i a {} (.array array) f
  place : f.form.arrayAt? = some t

/-- What leads from a struct to the array at its end leads to the end of its chain. -/
theorem exists_chain (hs : Settled i a a) (hplain : ∀ id s, a.spec? id = some s → s.Plain)
    (h : a.Chain (id :: ids) array) {n : Nat} (hoffset : a.offset? id = some n) :
    ∃ s d ds f t, a.spec? id = some s ∧ DefinesWhole i a s n d ∧
      SpellsChain i a (id :: ids) array n d ds f t ∧ ∀ t', TrailsAt i a s d t' → t' = t := by
  generalize hids : id :: ids = all at h
  induction h generalizing id ids n with
  | @array _ s array hspec hlast hkind =>
    obtain ⟨rfl, rfl⟩ := List.cons.inj hids
    obtain ⟨s', d, hspec', hd⟩ := definesWhole hs hplain hoffset
    obtain rfl := Option.some.inj (hspec.symm.trans hspec')
    obtain ⟨f, hfield, hf⟩ := lastField_of_spells hd.fields hlast fun f hf => (spells_arrayForm hf).1
    obtain ⟨-, -, props, t, hform⟩ := spells_arrayForm hf
    refine ⟨s, d, [], f, t, hspec, hd, ⟨.array hd.read hfield hform hkind,
      .cons ⟨s, n, hspec, hoffset, hd⟩ .nil, hf, by rw [hform]; rfl⟩, fun t' ht' => ?_⟩
    cases ht' with
    | array _ _ hfield' ht' =>
      obtain rfl := Option.some.inj (hfield.symm.trans hfield')
      rw [hform] at ht'
      exact (Option.some.inj ht').symm
    | struct hlast' => exact absurd (hlast.symm.trans hlast') (by simp)
  | @struct _ next rest s array hspec hlast hnext ih =>
    obtain ⟨rfl, rfl⟩ := List.cons.inj hids
    obtain ⟨s', d, hspec', hd⟩ := definesWhole hs hplain hoffset
    obtain rfl := Option.some.inj (hspec.symm.trans hspec')
    obtain ⟨g, hfield, hg⟩ := lastField_of_spells hd.fields hlast fun f hf =>
      (spells_struct hf).elim fun _ ⟨_, _, _, _, hf, _⟩ => hf
    obtain ⟨inner, kind, props, m, hform, -, hinner, hkind, hm⟩ := spells_struct hg
    obtain ⟨inner', d', ds, f, t, hinner', hd', hc, hsame⟩ := ih hm rfl
    obtain rfl := Option.some.inj (hinner.symm.trans hinner')
    refine ⟨s, d, d' :: ds, f, t, hspec, hd,
      ⟨.struct hd.read hfield hform (kind_of_tells hkind (hnext.endsWith hinner)).1 hc.chain,
      .cons ⟨s, n, hspec, hoffset, hd⟩ hc.structs, hc.array, hc.place⟩, fun t' ht' => ?_⟩
    cases ht' with
    | array hlast' => exact absurd (hlast.symm.trans hlast') (by simp)
    | struct hlast' hnext' hn hd'' ht' =>
      cases hlast.symm.trans hlast'
      obtain rfl := Option.some.inj (hinner.symm.trans hnext')
      obtain rfl := Option.some.inj (hm.symm.trans hn)
      obtain rfl := Except.ok.inj (hd'.read.symm.trans hd'')
      exact hsame t' ht'

/-- **A chain of types is a chain in the vector.** Its structs are the definitions of the types in
order, its array is that of the types, and the operand of the first struct is the place where that
array is defined. -/
theorem chain_of_settled (hs : Settled i a a) (hplain : ∀ id s, a.spec? id = some s → s.Plain)
    (h : a.Chain (id :: ids) array) {n : Nat} (hoffset : a.offset? id = some n) :
    ∃ d ds f t, SpellsChain i a (id :: ids) array n d ds f t ∧ d.trailing = some t := by
  obtain ⟨s, d, ds, f, t, hspec, hd, hc, hsame⟩ := exists_chain hs hplain h hoffset
  refine ⟨d, ds, f, t, hc, ?_⟩
  cases htrailing : d.trailing with
  | none => exact absurd (h.endsWith hspec) (hd.fixed.1 htrailing array)
  | some t' => rw [hsame t' (hd.trails t' htrailing)]

end Assembler

end Ndr
