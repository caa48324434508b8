import Ndr.TypeVector.Check

/-!
Which types a type leads to: those embedded in its values (its fields, its elements, its arms),
its pointee, and what travels for it. A walk over a value meets the types that its own type leads
to, and no others; so it cannot tell vectors apart that say the same about these types.
-/

namespace Ndr

/-- The last field of a struct that can end with an array. -/
theorem conformantTail?_eq_some {fields : List Descriptor} {trailing field : Nat} {tail : Tail}
    (h : conformantTail? fields trailing = some (field, tail)) :
    field = (fields.filter Descriptor.isField).length - 1 ∧
      ∃ f, (fields.filter Descriptor.isField).getLast? = some f ∧
        ((∃ kind props dims, f.form = .array kind props dims trailing ∧ kind.isConformant ∧
            tail = .array f.modifiers kind dims trailing) ∨
          ∃ kind props definition, f.form = .struct kind props definition ∧ kind ≠ .fixed ∧
            tail = .struct definition) := by
  unfold conformantTail? at h
  dsimp only at h
  split at h
  · exact absurd h (by simp)
  rename_i f hlast
  split at h
  · rename_i kind props dims definition hform
    split at h
    · rename_i hkind
      obtain ⟨hkind, rfl⟩ := hkind
      obtain ⟨rfl, rfl⟩ := Prod.mk.inj (Option.some.inj h)
      exact ⟨rfl, f, hlast, .inl ⟨kind, props, dims, hform, hkind, rfl⟩⟩
    · exact absurd h (by simp)
  · rename_i kind props definition hform
    split at h
    · rename_i hkind
      obtain ⟨rfl, rfl⟩ := Prod.mk.inj (Option.some.inj h)
      exact ⟨rfl, f, hlast, .inr ⟨kind, props, definition, hform, hkind, rfl⟩⟩
    · exact absurd h (by simp)
  · exact absurd h (by simp)

namespace TypeVector

/-- The types that are embedded in the values of a type. -/
inductive Embeds (tv : TypeVector) : Descriptor → Descriptor → Prop where
  | field {d e : Descriptor} {kind : StructKind} {props : UInt8} {definition : Nat}
      {s : StructDefinition} (form : d.form = .struct kind props definition)
      (found : tv.structDefinition definition = .ok s) (mem : e ∈ s.fields) : Embeds tv d e
  | nestedField {d e : Descriptor} {align layout : Nat} {fields : List Descriptor}
      (form : d.form = .nested align layout fields) (mem : e ∈ fields) : Embeds tv d e
  | element {d : Descriptor} {kind : ArrayKind} {props : UInt8} {dims definition : Nat}
      {a : ArrayDefinition} (form : d.form = .array kind props dims definition)
      (found : tv.arrayDefinition definition kind.isVarying = .ok a) : Embeds tv d a.element
  | arm {d e : Descriptor} {definition offset : Nat} {u : UnionDefinition} {switch : Int}
      {a : Arm}
      (form : (∃ props, d.form = .encapsulatedUnion props definition) ∨
        ∃ props field, d.form = .switchedUnion props field definition)
      (found : tv.unionDefinition definition = .ok u)
      (chosen : tv.findArm u switch = .ok (some a)) (body : a.body = ArmBody.stream offset)
      (stream : tv.stream offset = .ok e) : Embeds tv d e
  | piped {d e : Descriptor} {props : UInt8} {element : Nat} (form : d.form = .pipe props element)
      (stream : tv.stream element = .ok e) : Embeds tv d e

/-- The types that a walk over a type meets next. -/
inductive Leads (tv : TypeVector) : Descriptor → Descriptor → Prop where
  | embedded {d e : Descriptor} (embeds : tv.Embeds d e) : Leads tv d e
  | pointee {d e : Descriptor} {kind : PointerKind} {props : UInt8} {pointee : Nat}
      (form : d.form = .pointer kind props pointee) (stream : tv.stream pointee = .ok e) :
      Leads tv d e
  | wire {d e : Descriptor} {kind : ConversionKind} {props : UInt8} {routine wire : Nat}
      (form : d.form = .converted kind props routine wire) (stream : tv.stream wire = .ok e) :
      Leads tv d e

theorem not_leads_of_scalar {tv : TypeVector} {d e : Descriptor} {kind : Scalar}
    (h : d.form = .scalar kind) : ¬tv.Leads d e := by
  rintro (⟨form⟩ | form | form)
  · cases ‹tv.Embeds d e› <;> simp_all
  · simp_all
  · simp_all

/-- A pointer leads to its pointee alone. -/
theorem Leads.stream_of_pointer {tv : TypeVector} {d e : Descriptor} {kind : PointerKind}
    {props : UInt8} {pointee : Nat} (h : tv.Leads d e) (hd : d.form = .pointer kind props pointee) :
    tv.stream pointee = .ok e := by
  cases h with
  | embedded h => cases h <;> simp_all
  | pointee form stream =>
    obtain ⟨-, -, rfl⟩ := TypeForm.pointer.inj (hd.symm.trans form)
    exact stream
  | wire form _ => exact absurd (hd.symm.trans form) (by simp)

/-- Types that lead to none but types among them. -/
def Closed (tv : TypeVector) (N : Descriptor → Prop) : Prop := ∀ ⦃d e⦄, N d → tv.Leads d e → N e

theorem closed_true (tv : TypeVector) : tv.Closed fun _ => True := fun _ _ _ _ => trivial

/-- Types that are met without going on behind an embedded pointer, embedded in a value or not:
they lead to none but types among them that way. -/
structure ClosedAtHand (tv : TypeVector) (N : Bool → Descriptor → Prop) : Prop where
  embedded : ∀ {b d e}, N b d → tv.Embeds d e → N true e
  pointee : ∀ {d e kind props pointee}, N false d → d.form = .pointer kind props pointee →
    tv.stream pointee = .ok e → N false e
  wire : ∀ {b d e kind props routine wire}, N b d → d.form = .converted kind props routine wire →
    tv.stream wire = .ok e → N b e

theorem Closed.atHand {tv : TypeVector} {N : Descriptor → Prop} (h : tv.Closed N) :
    tv.ClosedAtHand fun _ => N where
  embedded hd he := h hd (.embedded he)
  pointee hd hform he := h hd (.pointee hform he)
  wire hd hform he := h hd (.wire hform he)

/-- The types that a walk over the parameters of a list meets. -/
inductive Reached (tv : TypeVector) (list : List Parameter) : Descriptor → Prop where
  | parameter {p : Parameter} (mem : p ∈ list) : Reached tv list p.descriptor
  | step {d e : Descriptor} (reached : Reached tv list d) (leads : tv.Leads d e) : Reached tv list e

/-- What the vectors hold at the places that a type refers to is the same. -/
structure Same (tv tv' : TypeVector) (d : Descriptor) : Prop where
  struct : ∀ {kind props definition}, d.form = .struct kind props definition →
    tv'.structDefinition definition = tv.structDefinition definition
  array : ∀ {kind props dims definition}, d.form = .array kind props dims definition →
    tv'.arrayDefinition definition kind.isVarying = tv.arrayDefinition definition kind.isVarying
  union : ∀ {definition}, ((∃ props, d.form = .encapsulatedUnion props definition) ∨
      ∃ props field, d.form = .switchedUnion props field definition) →
    tv'.unionDefinition definition = tv.unionDefinition definition ∧
      ∀ u, tv.unionDefinition definition = .ok u → ∀ switch,
        tv'.findArm u switch = tv.findArm u switch ∧
        ∀ a offset, tv.findArm u switch = .ok (some a) → a.body = .stream offset →
          tv'.stream offset = tv.stream offset
  pointee : ∀ {kind props pointee}, d.form = .pointer kind props pointee →
    tv'.stream pointee = tv.stream pointee
  wire : ∀ {kind props routine wire}, d.form = .converted kind props routine wire →
    tv'.stream wire = tv.stream wire
  piped : ∀ {props element}, d.form = .pipe props element → tv'.stream element = tv.stream element

theorem Same.refl (tv : TypeVector) (d : Descriptor) : tv.Same tv d where
  struct _ := rfl
  array _ := rfl
  union _ := ⟨rfl, fun _ _ _ => ⟨rfl, fun _ _ _ _ => rfl⟩⟩
  pointee _ := rfl
  wire _ := rfl
  piped _ := rfl

theorem closed_reached (tv : TypeVector) (list : List Parameter) :
    tv.Closed (tv.Reached list) := fun _ _ => .step

end TypeVector

end Ndr
