import Mathlib.Data.Finset.Card
import Mathlib.Logic.Relation
import Ndr.Proofs.TypeVector.Leads
import Ndr.Proofs.TypeVector.Reading

/-!
Which types contain which by value. Where containment comes to an end below a type, it does so within
as many levels as the vector has bytes: the types on a chain stand at offsets of their own.
-/

namespace Ndr.TypeVector

variable {tv : TypeVector} {d e : Descriptor}

/-- The record of the arm that a value selects is one of the arms of its union, or its default. -/
theorem exists_armAt_of_findArm {u : UnionDefinition} {switch : Int} {a : Arm}
    (h : tv.findArm u switch = .ok (some a)) :
    ∃ k ≤ u.armCount, tv.armAt (u.armsAt + k * armWidth) = .ok a := by
  have hcase : ∀ n p, tv.findCase u.switch switch n p = .ok (some a) →
      ∃ k < n, tv.armAt (p + k * armWidth) = .ok a := by
    intro n
    induction n with
    | zero => exact fun p h => absurd h (by simp [findCase])
    | succ n ih =>
      intro p h
      obtain ⟨arm, harm, h⟩ := Except.bind_eq_ok.1 h
      by_cases hlabel : u.switch.normalize arm.label = switch
      · rw [if_pos hlabel] at h
        obtain rfl := Option.some.inj (Except.ok.inj h)
        exact ⟨0, Nat.succ_pos n, by rwa [Nat.zero_mul]⟩
      · rw [if_neg hlabel] at h
        obtain ⟨k, hk, h⟩ := ih _ h
        exact ⟨k + 1, Nat.succ_lt_succ hk, by rwa [Nat.succ_mul, Nat.add_comm _ armWidth, ← Nat.add_assoc]⟩
  obtain ⟨found, hfound, h⟩ := Except.bind_eq_ok.1 h
  cases found with
  | some arm =>
    obtain rfl := Option.some.inj (Except.ok.inj h)
    obtain ⟨k, hk, h⟩ := hcase _ _ hfound
    exact ⟨k, Nat.le_of_lt hk, h⟩
  | none =>
    obtain ⟨arm, harm, h⟩ := Except.bind_eq_ok.1 h
    refine ⟨u.armCount, Nat.le_refl _, ?_⟩
    have h := Except.ok.inj h
    split at h
    · exact absurd h (by simp)
    · rwa [← Option.some.inj h]

/-- The values of a type contain those of another, or what travels for them: in a field of a struct, as
an element of an array or a pipe, in one of all arms of a union, or by a conversion. What a pointer leads
to is not contained. -/
inductive Contains (tv : TypeVector) : Descriptor → Descriptor → Prop where
  | field {d e : Descriptor} {kind : StructKind} {props : UInt8} {definition : Nat}
      {s : StructDefinition} (form : d.form = .struct kind props definition)
      (found : tv.structDefinition definition = .ok s) (mem : e ∈ s.fields) : Contains tv d e
  | nestedField {d e : Descriptor} {align layout : Nat} {fields : List Descriptor}
      (form : d.form = .nested align layout fields) (mem : e ∈ fields) : Contains tv d e
  | element {d : Descriptor} {kind : ArrayKind} {props : UInt8} {dims definition : Nat}
      {a : ArrayDefinition} (form : d.form = .array kind props dims definition)
      (found : tv.arrayDefinition definition kind.isVarying = .ok a) : Contains tv d a.element
  | arm {d e : Descriptor} {definition offset k : Nat} {u : UnionDefinition} {a : Arm}
      (form : (∃ props, d.form = .encapsulatedUnion props definition) ∨
        ∃ props field, d.form = .switchedUnion props field definition)
      (found : tv.unionDefinition definition = .ok u) (le : k ≤ u.armCount)
      (record : tv.armAt (u.armsAt + k * armWidth) = .ok a) (body : a.body = ArmBody.stream offset)
      (stream : tv.stream offset = .ok e) : Contains tv d e
  | wire {d e : Descriptor} {kind : ConversionKind} {props : UInt8} {routine wire : Nat}
      (form : d.form = .converted kind props routine wire) (stream : tv.stream wire = .ok e) :
      Contains tv d e
  | piped {d e : Descriptor} {props : UInt8} {element : Nat} (form : d.form = .pipe props element)
      (stream : tv.stream element = .ok e) : Contains tv d e

/-- What a type contains, by its form. -/
theorem Contains.form (h : tv.Contains d e) :
    match d.form with
    | .struct _ _ n => ∃ s, tv.structDefinition n = .ok s ∧ e ∈ s.fields
    | .nested _ _ fields => e ∈ fields
    | .array kind _ _ n => ∃ a, tv.arrayDefinition n kind.isVarying = .ok a ∧ e = a.element
    | .encapsulatedUnion _ n | .switchedUnion _ _ n => ∃ u, tv.unionDefinition n = .ok u ∧
        ∃ k ≤ u.armCount, ∃ a offset, tv.armAt (u.armsAt + k * armWidth) = .ok a ∧
          a.body = ArmBody.stream offset ∧ tv.stream offset = .ok e
    | .converted _ _ _ n | .pipe _ n => tv.stream n = .ok e
    | .scalar _ | .pointer .. | .ignore | .context _ | .align _ | .deletedNodes | .void
    | .unhosted _ => False := by
  cases h with
  | field form found mem =>
    rw [form]
    exact ⟨_, found, mem⟩
  | nestedField form mem =>
    rw [form]
    exact mem
  | element form found =>
    rw [form]
    exact ⟨_, found, rfl⟩
  | arm form found le record body stream =>
    rcases form with ⟨_, form⟩ | ⟨_, _, form⟩
    all_goals
      rw [form]
      exact ⟨_, found, _, le, _, _, record, body, stream⟩
  | wire form stream | piped form stream =>
    rw [form]
    exact stream

/-- What is embedded in a value is contained in it. -/
theorem Embeds.contains (h : tv.Embeds d e) : tv.Contains d e := by
  cases h with
  | field form found mem => exact .field form found mem
  | nestedField form mem => exact .nestedField form mem
  | element form found => exact .element form found
  | arm form found chosen body stream =>
    obtain ⟨k, hk, ha⟩ := exists_armAt_of_findArm chosen
    exact .arm form found hk ha body stream
  | piped form stream => exact .piped form stream

/-! ### Levels -/

theorem Contains.standsIn (h : tv.Contains d e) (hd : d.StandsIn tv) : e.StandsIn tv := by
  cases h with
  | field _ found mem => exact (structDefinition_of_gives gives_readDescriptor_standsIn found).2 e mem
  | nestedField form mem =>
    obtain ⟨-, hfields⟩ := hd
    exact hfields _ _ _ form e mem
  | element _ found => exact arrayDefinition_of_gives gives_readDescriptor_standsIn found
  | arm _ _ _ _ _ stream | wire _ stream | piped _ stream =>
    exact stream_of_gives gives_readDescriptor_standsIn stream

/-- Containment comes to an end below a type. -/
def Founded (tv : TypeVector) (d : Descriptor) : Prop := Acc (fun inner outer => tv.Contains outer inner) d

theorem Founded.contains (h : tv.Founded d) (he : tv.Contains d e) : tv.Founded e := h.inv he

/-- A type below which containment comes to an end does not contain itself, be it through others. -/
theorem Founded.not_transGen (h : tv.Founded d) : ¬Relation.TransGen tv.Contains d d := by
  induction h with
  | intro d _ ih =>
    intro hd
    obtain ⟨e, he, hback⟩ := Relation.TransGen.head'_iff.1 hd
    exact ih e he (Relation.TransGen.tail' hback he)

/-- No chain of types that contain one another from a type on has more than `n` of them. -/
inductive Levels (tv : TypeVector) : Nat → Descriptor → Prop where
  | intro {n : Nat} {d : Descriptor} (h : ∀ e, tv.Contains d e → Levels tv n e) : Levels tv (n + 1) d

theorem Levels.mono {n m : Nat} (h : tv.Levels n d) (hm : n ≤ m) : tv.Levels m d := by
  induction h generalizing m with
  | intro _ ih =>
    obtain ⟨m, rfl⟩ := Nat.exists_eq_succ_of_ne_zero (Nat.ne_zero_of_lt hm)
    exact .intro fun e he => ih e he (Nat.le_of_succ_le_succ hm)

/-- What a type contains has no more levels. -/
theorem Levels.contains {n : Nat} (h : tv.Levels n d) (he : tv.Contains d e) : tv.Levels n e := by
  cases h with
  | intro h => exact (h e he).mono (Nat.le_succ _)

/-- There are no more levels than offsets at which none of the types stands that lead here. -/
theorem levels_of_used {n : Nat} (hd : d.StandsIn tv) (hfounded : tv.Founded d) (used : Finset Nat)
    (hused : ∀ o ∈ used, o < tv.size ∧
      ∃ c : Descriptor, c.StandsIn tv ∧ c.offset = o ∧ Relation.TransGen tv.Contains c d)
    (hn : tv.size ≤ used.card + n) : tv.Levels n d := by
  induction n generalizing d used with
  | zero =>
    -- all offsets are taken, that of the type as well
    have hall : used = Finset.range tv.size :=
      Finset.eq_of_subset_of_card_le (fun o ho => Finset.mem_range.2 (hused o ho).1)
        (by rwa [Finset.card_range])
    obtain ⟨-, c, hc, hoffset, hlead⟩ := hused d.offset (hall ▸ Finset.mem_range.2 hd.lt_size)
    rw [hc.unique hd hoffset] at hlead
    exact absurd hlead hfounded.not_transGen
  | succ n ih =>
    refine .intro fun e he => ?_
    have hnew : d.offset ∉ used := by
      intro ho
      obtain ⟨-, c, hc, hoffset, hlead⟩ := hused d.offset ho
      rw [hc.unique hd hoffset] at hlead
      exact hfounded.not_transGen hlead
    refine ih (he.standsIn hd) (hfounded.contains he) (insert d.offset used) (fun o ho => ?_) ?_
    · rcases Finset.mem_insert.1 ho with rfl | ho
      · exact ⟨hd.lt_size, d, hd, rfl, .single he⟩
      · obtain ⟨hlt, c, hc, hoffset, hlead⟩ := hused o ho
        exact ⟨hlt, c, hc, hoffset, hlead.tail he⟩
    · rw [Finset.card_insert_of_notMem hnew]
      omega

/-- **Containment that ends has no more levels than the vector has bytes.** -/
theorem Founded.levels (h : tv.Founded d) (hd : d.StandsIn tv) : tv.Levels tv.size d :=
  levels_of_used hd h ∅ (fun _ ho => absurd ho (Finset.notMem_empty _)) (by simp)

end Ndr.TypeVector
