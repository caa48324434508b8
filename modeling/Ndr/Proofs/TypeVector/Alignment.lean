import Ndr.Proofs.Action
import Ndr.TypeVector.Definition

/-!
Every alignment that is read from a type vector divides eight.
-/

namespace Ndr

/-- A descriptor in which every nested struct has an alignment that divides eight. -/
inductive Descriptor.Aligned : Descriptor → Prop where
  | intro {d : Descriptor} (align : ∀ n layout fields, d.form = .nested n layout fields → n ∣ 8)
      (fields : ∀ n layout fields, d.form = .nested n layout fields → ∀ f ∈ fields, f.Aligned) :
      d.Aligned

/-- A type without parts. -/
theorem Descriptor.Aligned.of_flat {d : Descriptor}
    (h : ∀ n layout fields, d.form ≠ .nested n layout fields) : d.Aligned :=
  ⟨fun _ _ _ e => absurd e (h _ _ _), fun _ _ _ e => absurd e (h _ _ _)⟩

namespace TypeVector

variable {tv : TypeVector}

/-- An answer of a scan. -/
abbrev Gives {α : Type} (P : α → Prop) (x : Scan α) : Prop := Keeps (fun _ => True) P x

theorem gives_true {α : Type} (x : Scan α) : Gives (fun _ => True) x := Keeps.ofTrue x

theorem readAt_of_gives {α : Type} {P : α → Prop} {offset : Nat} {scan : Scan α} {a : α}
    (h : Gives P scan) (e : readAt offset scan = .ok a) : P a := by
  have := h offset trivial
  unfold readAt EStateM.run at e
  split at e
  · rename_i hs
    rw [hs] at this
    exact Except.ok.inj e ▸ this.2
  · exact absurd e (by simp)

theorem checkAlign_dvd {align : UInt8} {offset n : Nat} (h : checkAlign align offset = .ok n) :
    n ∣ 8 := by
  unfold checkAlign at h
  split at h
  · rename_i ha
    obtain rfl := Except.ok.inj h
    rcases ha with rfl | rfl | rfl | rfl <;> decide
  · exact absurd h (by simp)

theorem gives_readFields {P : Descriptor → Prop} {next : Scan (Option Descriptor)}
    (h : Gives (fun d => ∀ x, d = some x → P x) next) (nested : Bool) (fuel : Nat)
    (before : List Descriptor) (hb : ∀ d ∈ before, P d) :
    Gives (fun ds => ∀ d ∈ ds, P d) (tv.readFields next nested fuel before) := by
  induction fuel generalizing before with
  | zero => exact (gives_true _).bind fun _ _ => .throw _
  | succ fuel ih =>
    refine (gives_true _).bind fun here _ => ?_
    have hdone : ∀ d ∈ before.reverse, P d := fun d hd => hb d (List.mem_reverse.1 hd)
    split
    · exact .throw _
    · refine .ite (.ite ((gives_true _).bind fun _ _ => .pure hdone) (.throw _)) ?_
      refine h.bind fun d hd => ?_
      split
      · rename_i x
        refine ih _ fun y hy => ?_
        rcases List.mem_cons.1 hy with rfl | hy
        · exact hd _ rfl
        · exact hb y hy
      · exact .ite (.throw _) (.pure hdone)

theorem gives_readDescriptorFrom (fuel start : Nat) (m : Modifiers) :
    Gives (fun d => ∀ x, d = some x → x.Aligned) (tv.readDescriptorFrom fuel start m) := by
  induction fuel generalizing start m with
  | zero => exact (gives_true _).bind fun _ _ => .throw _
  | succ fuel ih =>
    refine (gives_true _).bind fun here _ => (gives_true _).bind fun op _ => ?_
    have hflat : ∀ {x : Descriptor}, (∀ n layout fields, x.form ≠ .nested n layout fields) →
        ∀ y, some x = some y → y.Aligned := by
      rintro x hx _ ⟨⟩
      exact .of_flat hx
    cases op with
    | endOfList => exact .ite (.pure (by simp)) (.throw _)
    | mark mark => exact ih _ _
    | range => exact (gives_true _).bind fun _ _ => (gives_true _).bind fun _ _ => ih _ _
    | freeRep => exact (gives_true _).bind fun _ _ => ih _ _
    | beginNested =>
      refine (gives_true _).bind fun _ _ => (Keeps.lift _).bind fun align halign =>
        (gives_true _).bind fun layout _ => ?_
      refine (gives_readFields ((gives_true _).bind fun _ _ => ih _ _) _ _ [] (by simp)).bind
        fun fields hfields => .pure ?_
      rintro _ ⟨⟩
      refine ⟨?_, ?_⟩
      · rintro _ _ _ ⟨⟩
        exact checkAlign_dvd halign
      · rintro _ _ _ ⟨⟩
        exact hfields
    | array kind =>
      exact (gives_true _).bind fun _ _ => (gives_true _).bind fun _ _ => (gives_true _).bind fun _ _ =>
        .pure (hflat (by simp))
    | struct | encapsulatedUnion | pointer | pipe =>
      exact (gives_true _).bind fun _ _ => (gives_true _).bind fun _ _ => .pure (hflat (by simp))
    | switchedUnion | conversion =>
      exact (gives_true _).bind fun _ _ => (gives_true _).bind fun _ _ => (gives_true _).bind fun _ _ =>
        .pure (hflat (by simp))
    | scalar | ignore | context | align | deletedNodes | void | unhosted =>
      exact .pure (hflat (by simp))
    | noArm | endNested => exact .throw _

theorem gives_readDescriptor :
    Gives (fun d => ∀ x, d = some x → x.Aligned) tv.readDescriptor :=
  (gives_true _).bind fun _ _ => gives_readDescriptorFrom _ _ _

/-! ### What stands at an offset -/

/-- The definition of an array, once its dimensions are known. -/
abbrev readElement (offset : Nat) (dimensions : List Dimension) : Scan ArrayDefinition := do
  let here ← get
  match ← tv.readDescriptor with
  | some element =>
    tv.expectEnd
    return { offset, dimensions, element }
  | none => throw (.invalidDescriptor here .noElement)

variable {offset : Nat}

section

variable {P : Descriptor → Prop} (h : Gives (fun d => ∀ x, d = some x → P x) tv.readDescriptor)

include h

theorem stream_of_gives {d : Descriptor} (e : tv.stream offset = .ok d) : P d := by
  refine readAt_of_gives (h.bind fun d hd => ?_) e
  split
  · exact (gives_true _).bind fun _ _ => .pure (hd _ rfl)
  · exact .throw _

theorem parameters_of_gives {list : List Parameter} (e : tv.parameters offset = .ok list) :
    ∀ p ∈ list, P p.descriptor := by
  have hone : Gives (fun p : Parameter => P p.descriptor) tv.readParameter := by
    refine (gives_true _).bind fun _ _ => (gives_true _).bind fun _ _ => h.bind fun d hd => ?_
    split
    · exact (gives_true _).bind fun _ _ => .pure (hd _ rfl)
    · exact .throw _
  exact readAt_of_gives ((gives_true _).bind fun n _ => (Keeps.repeatM_all hone n).mono fun _ h => h.2) e

theorem structDefinition_of_gives {s : StructDefinition} (e : tv.structDefinition offset = .ok s) :
    s.align ∣ 8 ∧ ∀ f ∈ s.fields, P f := by
  refine readAt_of_gives (P := fun s => s.align ∣ 8 ∧ ∀ f ∈ s.fields, P f)
    ((gives_true _).bind fun _ _ => (gives_true _).bind fun _ _ => (gives_true _).bind fun _ _ =>
    (gives_true _).bind fun _ _ => (gives_true _).bind fun _ _ =>
    (gives_readFields h _ _ [] (by simp)).bind fun _ hfields =>
    (Keeps.lift _).bind fun _ halign => .pure ⟨checkAlign_dvd halign, hfields⟩) e

theorem arrayDefinition_of_gives {d : ArrayDefinition} {varying : Bool}
    (e : tv.arrayDefinition offset varying = .ok d) : P d.element := by
  have helement : ∀ dims,
      Gives (fun d : ArrayDefinition => P d.element) (tv.readElement offset dims) := by
    refine fun dims => (gives_true _).bind fun here _ => h.bind fun d hd => ?_
    cases d with
    | some d => exact (gives_true _).bind fun _ _ => .pure (hd _ rfl)
    | none => exact .throw _
  refine readAt_of_gives (P := fun d : ArrayDefinition => P d.element)
    ((gives_true _).bind fun dims _ => .check ?_) e
  refine (gives_true _).bind fun _ _ => (gives_true _).bind fun bounds _ => ?_
  exact .ite ((gives_true _).bind fun limits _ => helement _)
    ((gives_true _).bind fun limits _ => helement _)

end

theorem aligned_stream {d : Descriptor} (e : tv.stream offset = .ok d) : d.Aligned :=
  stream_of_gives gives_readDescriptor e

theorem aligned_parameters {list : List Parameter} (e : tv.parameters offset = .ok list) :
    ∀ p ∈ list, p.descriptor.Aligned := parameters_of_gives gives_readDescriptor e

theorem aligned_structDefinition {s : StructDefinition} (e : tv.structDefinition offset = .ok s) :
    s.align ∣ 8 ∧ ∀ f ∈ s.fields, f.Aligned := structDefinition_of_gives gives_readDescriptor e

theorem aligned_arrayDefinition {d : ArrayDefinition} {varying : Bool}
    (e : tv.arrayDefinition offset varying = .ok d) : d.element.Aligned :=
  arrayDefinition_of_gives gives_readDescriptor e

theorem aligned_unionDefinition {u : UnionDefinition} (e : tv.unionDefinition offset = .ok u) :
    u.align ∣ 8 := by
  refine readAt_of_gives (P := fun u : UnionDefinition => u.align ∣ 8)
    ((gives_true _).bind fun op _ => ?_) e
  cases op with
  | scalar switch =>
    refine .check ((gives_true _).bind fun _ _ => (gives_true _).bind fun _ _ =>
      (gives_true _).bind fun _ _ => (gives_true _).bind fun _ _ => (gives_true _).bind fun _ _ =>
      .check ?_)
    exact (Keeps.lift _).bind fun _ halign => .pure (checkAlign_dvd halign)
  | _ => exact .throw _

end TypeVector

end Ndr
