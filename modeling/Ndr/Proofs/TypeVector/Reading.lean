import Ndr.Proofs.TypeVector.Alignment

/-!
Descriptors are read alike wherever they are met: what is read at an offset does not depend on how
much may still be nested there, so a descriptor of a type vector is known by its offset.
-/

namespace Ndr

/-- A descriptor that is read at its own offset, as are those that are nested in it. -/
inductive Descriptor.StandsIn (tv : TypeVector) : Descriptor → Prop where
  | intro {d : Descriptor}
      (read : ∃ fuel q, tv.readDescriptorFrom fuel d.offset {} d.offset = .ok (some d) q)
      (fields : ∀ align layout fields, d.form = .nested align layout fields →
        ∀ f ∈ fields, f.StandsIn tv) : d.StandsIn tv

namespace TypeVector

variable {tv : TypeVector} {α β : Type}

/-! ### Scans that go further -/

/-- Whatever `x` gives, `y` gives. -/
def Extends (x y : Scan α) : Prop := ∀ ⦃p a q⦄, x p = .ok a q → y p = .ok a q

namespace Extends

theorem refl (x : Scan α) : Extends x x := fun _ _ _ e => e

theorem bind {x y : Scan α} {f g : α → Scan β} (h : Extends x y) (hf : ∀ a, Extends (f a) (g a)) :
    Extends (x >>= f) (y >>= g) := fun _ _ _ e => by
  obtain ⟨a, r, h1, h2⟩ := bind_eq_ok.1 e
  exact bind_eq_ok.2 ⟨a, r, h h1, hf a h2⟩

/-- The same step on both sides. -/
theorem bind_left {x : Scan α} {f g : α → Scan β} (hf : ∀ a, Extends (f a) (g a)) :
    Extends (x >>= f) (x >>= g) := (Extends.refl x).bind hf

theorem ite {c : Prop} [Decidable c] {x x' y y' : Scan α} (h : Extends x y) (h' : Extends x' y') :
    Extends (if c then x else x') (if c then y else y') := by
  split
  · exact h
  · exact h'

end Extends

theorem extends_readFields {next next' : Scan (Option Descriptor)} (h : Extends next next')
    (nested : Bool) (fuel : Nat) (before : List Descriptor) :
    Extends (tv.readFields next nested fuel before) (tv.readFields next' nested fuel before) := by
  induction fuel generalizing before with
  | zero => exact .refl _
  | succ fuel ih =>
    refine .bind_left fun here => ?_
    split
    · exact .refl _
    · refine .ite (.refl _) (h.bind fun d => ?_)
      cases d with
      | none => exact .refl _
      | some d => exact ih _

/-- More may be nested without any change to what is read. -/
theorem extends_readDescriptorFrom {fuel fuel' : Nat} (hf : fuel ≤ fuel') (start : Nat)
    (m : Modifiers) :
    Extends (tv.readDescriptorFrom fuel start m) (tv.readDescriptorFrom fuel' start m) := by
  induction fuel generalizing fuel' start m with
  | zero => exact fun _ _ _ e => absurd e (by simp [readDescriptorFrom, bind_eq_ok, throw_ne_ok])
  | succ fuel ih =>
    obtain ⟨fuel', rfl⟩ := Nat.exists_eq_succ_of_ne_zero (Nat.ne_zero_of_lt hf)
    have hf := Nat.le_of_succ_le_succ hf
    refine .bind_left fun here => .bind_left fun op => ?_
    cases op with
    | mark mark => exact ih hf _ _
    | range => exact .bind_left fun _ => .bind_left fun _ => ih hf _ _
    | freeRep => exact .bind_left fun _ => ih hf _ _
    | beginNested =>
      refine .bind_left fun _ => .bind_left fun _ => .bind_left fun _ => ?_
      refine .bind (extends_readFields ?_ _ _ _) fun _ => .refl _
      exact .bind_left fun _ => ih hf _ _
    | _ => exact .refl _

/-! ### Descriptors by their offsets -/

/-- What a descriptor that began at `start` is, apart from how it was read. -/
def Began (tv : TypeVector) (start : Nat) (d : Option Descriptor) : Prop :=
  ∀ x, d = some x → x.offset = start ∧
    ∀ align layout fields, x.form = .nested align layout fields → ∀ f ∈ fields, f.StandsIn tv

/-- A descriptor that is read where it begins stands there. -/
theorem gives_standsIn {fuel : Nat}
    (h : ∀ start, Gives (tv.Began start) (tv.readDescriptorFrom fuel start {})) :
    Gives (fun d => ∀ x, d = some x → x.StandsIn tv)
      (do tv.readDescriptorFrom fuel (← get) {}) := by
  intro p _
  have hp := h p p trivial
  show Ends _ _ (tv.readDescriptorFrom fuel p {} p)
  cases e : tv.readDescriptorFrom fuel p {} p with
  | error f q => trivial
  | ok d q =>
    rw [e] at hp
    refine ⟨trivial, ?_⟩
    rintro x rfl
    obtain ⟨hoffset, hfields⟩ := hp.2 x rfl
    exact ⟨⟨fuel, q, by rw [hoffset]; exact e⟩, hfields⟩

theorem gives_began (fuel start : Nat) (m : Modifiers) :
    Gives (tv.Began start) (tv.readDescriptorFrom fuel start m) := by
  induction fuel generalizing start m with
  | zero => exact (gives_true _).bind fun _ _ => .throw _
  | succ fuel ih =>
    refine (gives_true _).bind fun here _ => (gives_true _).bind fun op _ => ?_
    have hflat : ∀ {x : Descriptor}, x.offset = start →
        (∀ align layout fields, x.form ≠ .nested align layout fields) →
        tv.Began start (some x) := by
      rintro x hx hn _ ⟨⟩
      exact ⟨hx, fun _ _ _ e => absurd e (hn _ _ _)⟩
    cases op with
    | endOfList => exact .ite (.pure fun _ h => nomatch h) (.throw _)
    | mark mark => exact ih _ _
    | range => exact (gives_true _).bind fun _ _ => (gives_true _).bind fun _ _ => ih _ _
    | freeRep => exact (gives_true _).bind fun _ _ => ih _ _
    | beginNested =>
      refine (gives_true _).bind fun _ _ => (gives_true _).bind fun _ _ =>
        (gives_true _).bind fun layout _ => ?_
      refine (gives_readFields (gives_standsIn fun start => ih start {}) _ _ [] (by simp)).bind
        fun fields hfields => .pure ?_
      rintro _ ⟨⟩
      exact ⟨rfl, by rintro _ _ _ ⟨⟩; exact hfields⟩
    | array kind =>
      exact (gives_true _).bind fun _ _ => (gives_true _).bind fun _ _ =>
        (gives_true _).bind fun _ _ => .pure (hflat rfl (by simp))
    | struct | encapsulatedUnion | pointer | pipe =>
      exact (gives_true _).bind fun _ _ => (gives_true _).bind fun _ _ =>
        .pure (hflat rfl (by simp))
    | switchedUnion | conversion =>
      exact (gives_true _).bind fun _ _ => (gives_true _).bind fun _ _ =>
        (gives_true _).bind fun _ _ => .pure (hflat rfl (by simp))
    | scalar | ignore | context | align | deletedNodes | void | unhosted =>
      exact .pure (hflat rfl (by simp))
    | noArm | endNested => exact .throw _

/-- Every descriptor that is read stands at its offset. -/
theorem gives_readDescriptor_standsIn :
    Gives (fun d => ∀ x, d = some x → x.StandsIn tv) tv.readDescriptor :=
  gives_standsIn fun start => gives_began _ start {}

/-- A pointee type is read at its own offset. -/
theorem offset_of_stream {offset : Nat} {d : Descriptor} (h : tv.stream offset = .ok d) :
    d.offset = offset := by
  unfold stream readAt at h
  split at h
  · cases h
    obtain ⟨found, q, h1, h2⟩ := bind_eq_ok.1 ‹_›
    have hbegan : tv.Began offset found := by
      have hgives : Gives (tv.Began offset) (tv.readDescriptorFrom (tv.size + 1) offset {}) :=
        gives_began _ _ _
      have hp := hgives offset trivial
      rw [show tv.readDescriptorFrom (tv.size + 1) offset {} offset = .ok found q from h1] at hp
      exact hp.2
    cases found with
    | none => exact absurd h2 throw_ne_ok
    | some x =>
      obtain ⟨_, _, -, h3⟩ := bind_eq_ok.1 h2
      obtain ⟨rfl, -⟩ := pure_eq_ok.1 h3
      exact (hbegan x rfl).1
  · exact absurd h (by simp)

end TypeVector

namespace Descriptor.StandsIn

variable {tv : TypeVector} {d e : Descriptor}

/-- A descriptor takes up a byte of its vector. -/
theorem lt_size (h : d.StandsIn tv) : d.offset < tv.size := by
  obtain ⟨⟨fuel, q, hread⟩, -⟩ := h
  cases fuel with
  | zero => exact absurd hread (by simp [TypeVector.readDescriptorFrom, bind_eq_ok, throw_ne_ok])
  | succ fuel =>
    obtain ⟨_, _, h1, h2⟩ := bind_eq_ok.1 hread
    obtain ⟨rfl, rfl⟩ := get_eq_ok.1 h1
    obtain ⟨op, p, h3, -⟩ := bind_eq_ok.1 h2
    obtain ⟨_, _, h4, h5⟩ := bind_eq_ok.1 h3
    obtain ⟨rfl, rfl⟩ := get_eq_ok.1 h4
    obtain ⟨b, p', h6, -⟩ := bind_eq_ok.1 h5
    obtain ⟨_, _, h7, h8⟩ := bind_eq_ok.1 h6
    obtain ⟨rfl, rfl⟩ := get_eq_ok.1 h7
    cases hb : tv.bytes[d.offset]? with
    | none =>
      simp only [hb] at h8
      exact absurd h8 throw_ne_ok
    | some b => exact (Array.getElem?_eq_some_iff.1 hb).1

/-- At an offset stands one descriptor only. -/
theorem unique (h : d.StandsIn tv) (h' : e.StandsIn tv) (ho : d.offset = e.offset) : d = e := by
  obtain ⟨⟨fuel, q, hread⟩, -⟩ := h
  obtain ⟨⟨fuel', q', hread'⟩, -⟩ := h'
  rw [ho] at hread
  have h1 := TypeVector.extends_readDescriptorFrom (Nat.le_max_left fuel fuel') _ _ hread
  have h2 := TypeVector.extends_readDescriptorFrom (Nat.le_max_right fuel fuel') _ _ hread'
  exact Option.some.inj (EStateM.Result.ok.inj (h1.symm.trans h2)).1

end Descriptor.StandsIn

end Ndr
