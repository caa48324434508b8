import Ndr.Proofs.Lockstep.Walk
import Ndr.Proofs.TypeVector.Leads
import Ndr.Proofs.Unmarshal.Invariant

/-!
Records: scalars, and structs of a fixed size that are made of them. A record is read back as it was
written, and nothing else changes where it is written or read: no node is met, nothing is put off,
and no pipe is used.
-/

namespace Ndr

/-- The types of records: scalars without a range, structs of a fixed size whose fields take all
their slots, and markers. -/
def Descriptor.IsRecord (i : Interface) (d : Descriptor) : Prop :=
  match d.form with
  | .scalar _ => d.modifiers.range = none
  | .struct kind _ definition => kind = .fixed ∧ ∀ s, i.vector.structDefinition definition = .ok s →
      i.layout.Covers s.layout (s.fields.countP Descriptor.isField)
  | .nested _ layout fields => i.layout.Covers layout (fields.countP Descriptor.isField)
  | .align _ => True
  | _ => False

/-- Types that are records through and through. -/
structure Interface.OfRecords (i : Interface) (D : Descriptor → Prop) : Prop where
  record : ∀ {d}, D d → d.IsRecord i
  embedded : ∀ {d e}, D d → i.vector.Embeds d e → D e

/-! ### Writing -/

namespace Marshal

/-- What the writing of records leaves alone. -/
abbrev State.aside (s : State) : NodeTable × List (Deferred Scope) × Array Pipe :=
  (s.nodes, s.deferred, s.pipes)

/-- An action that changes the message alone, and the calls of routines. -/
def Spares {α : Type} (x : Marshalling α) : Prop :=
  ∀ a, Keeps (fun s => s.aside = a) (fun _ => True) x

variable {env : Env} {D : Descriptor → Prop} {walk last : Walk} {site : Site Scope} {s t : State}

theorem Spares.aside_eq {α : Type} {x : Marshalling α} {a : α} (h : Spares x) (e : x s = .ok a t) :
    t.aside = s.aside := by
  have hends := h s.aside s rfl
  rw [e] at hends
  exact hends.1

theorem spares_put {α : Type} (x : Put α) : Spares (put x) := fun a =>
  Keeps.onPart (fun s writer (hs : s.aside = a) => (hs : { s with writer }.aside = a)) x

theorem spares_putFields {layout index : Nat} {slots : List Value} {ds : List Descriptor}
    (h : ∀ d ∈ ds, ∀ v, Spares (walk d v site)) (hlast : ∀ d ∈ ds, ∀ v, Spares (last d v site)) :
    Spares (putFields env walk last layout slots site index ds) := by
  induction ds generalizing index with
  | nil => exact fun _ => .pure trivial
  | cons d ds ih =>
    have ih := fun index => @ih index (fun e he => h e (List.mem_cons_of_mem _ he))
      fun e he => hlast e (List.mem_cons_of_mem _ he)
    intro a
    unfold putFields
    split
    · refine (Keeps.lift _).bind fun v _ => ?_
      split
      · exact (h d List.mem_cons_self v a).bind fun _ _ => ih _ a
      · exact (hlast d List.mem_cons_self v a).bind fun _ _ => ih _ a
    · exact (h d List.mem_cons_self .void a).bind fun _ _ => ih _ a

theorem spares_putStruct {definition : Nat} (h : ∀ s, env.vector.structDefinition definition = .ok s →
    ∀ d ∈ s.fields, ∀ v site, Spares (walk d v site)) (v : Value) :
    Spares (putStruct env walk .fixed definition v site) := by
  intro a
  unfold putStruct
  refine (Keeps.lift _).bind fun parts hparts => ?_
  obtain ⟨d, slots, scope⟩ := parts
  obtain ⟨hd, -, -⟩ := structParts_eq_ok hparts
  exact (spares_put _ a).bind fun _ _ =>
    spares_putFields (fun e he v => h d hd e he v _) (fun e he v => h d hd e he v _) a

theorem spares_putNested {align layout : Nat} {fields : List Descriptor}
    (h : ∀ d ∈ fields, ∀ v site, Spares (walk d v site)) (v : Value) :
    Spares (putNested env walk align layout fields v site) := fun a =>
  (Keeps.lift _).bind fun _ _ => (Keeps.lift _).bind fun _ _ => (spares_put _ a).bind fun _ _ =>
    spares_putFields (fun e he v => h e he v _) (fun e he v => h e he v _) a

theorem spares_freeRep (d : Descriptor) (v : Value) : Spares (match d.modifiers.freeRep with
    | some routine => freeInstance env routine v
    | none => return) := by
  intro a
  split
  · exact (Keeps.lift _).bind fun _ _ => Keeps.modify fun _ hs => hs
  · exact .pure trivial

/-- A record is written without a look at nodes and pipes. -/
theorem spares_walk (hD : env.interface.OfRecords D) (room : Nat) {d : Descriptor} (hd : D d)
    (v : Value) (site : Site Scope) : Spares (Marshal.walk env room d v site) := by
  induction room generalizing d v site with
  | zero => exact fun _ => .throw _
  | succ room ih =>
    have hrecord := hD.record hd
    have hform : Spares (putForm env (Marshal.walk env room) d v site) := by
      unfold putForm
      unfold Descriptor.IsRecord at hrecord
      split
      · exact spares_put _
      · rename_i hform
        rw [hform] at hrecord
        obtain ⟨rfl, -⟩ := hrecord
        exact spares_putStruct (fun s hs e he => ih (hD.embedded hd (.field hform hs he))) v
      · rename_i hform
        exact spares_putNested (fun e he => ih (hD.embedded hd (.nestedField hform he))) v
      case h_12 => exact spares_put _
      all_goals
        rename_i hform
        rw [hform] at hrecord
        exact hrecord.elim
    exact fun a => (hform a).bind fun _ _ => spares_freeRep d v a

end Marshal

/-! ### Reading -/

namespace Unmarshal

/-- What the reading of records leaves alone. -/
abbrev State.aside (s : State) : List (Deferred ScopeId) × Array Pipe := (s.deferred, s.pipes)

/-- An action that puts nothing off and uses no pipe. -/
def Spares {α : Type} (x : Unmarshalling α) : Prop := ∀ a, Holds (fun s => s.aside = a) x

variable {env : Env} {D : Descriptor → Prop} {walk last : Walk} {site : Site ScopeId} {s t : State}

theorem Spares.aside_eq {α : Type} {x : Unmarshalling α} {a : α} (h : Spares x)
    (e : x s = .ok a t) : t.aside = s.aside := by
  have hends := h s.aside s rfl
  rw [e] at hends
  exact hends.1

theorem spares_fetch {α : Type} (x : Fetch α) : Spares (fetch x) := fun a =>
  Keeps.onPart (fun s reader (hs : s.aside = a) => (hs : { s with reader }.aside = a)) x

theorem spares_setField (id : ScopeId) (field : Nat) (v : Option Int) : Spares (setField id field v) := by
  cases v with
  | none => exact fun _ => .pure trivial
  | some v => exact fun _ => Keeps.modify fun _ hs => hs

theorem spares_verifyLate (scope : ScopeId) : Spares (verifyLate scope) := fun _ =>
  Keeps.get.bind fun _ _ => Keeps.bind (Keeps.modify fun _ hs => hs) fun _ _ =>
    (holds_scopeOf scope).bind fun _ _ =>
      Keeps.forM (P := fun _ => True) (fun _ _ => (Keeps.lift _).weaken) fun _ _ => trivial

theorem spares_openStruct (count : Nat) (site : Site ScopeId) : Spares (openStruct count site) :=
  fun _ => Keeps.bind (P := fun _ => True) (Keeps.modifyGet fun _ hs => ⟨hs, trivial⟩) fun _ _ =>
    .pure trivial

theorem spares_getFields {layout index : Nat} {slots : Array Value} {ds : List Descriptor}
    (h : ∀ d ∈ ds, Spares (walk d site)) (hlast : ∀ d ∈ ds, Spares (last d site)) :
    Spares (getFields env walk last layout site index ds slots) := by
  induction ds generalizing index slots with
  | nil => exact fun _ => .pure trivial
  | cons d ds ih =>
    have ih := fun index slots => @ih index slots (fun e he => h e (List.mem_cons_of_mem _ he))
      fun e he => hlast e (List.mem_cons_of_mem _ he)
    intro a
    unfold getFields
    split
    · have hrest : ∀ v, Holds (fun s => s.aside = a) (do
          setField site.scope index (Value.toInt? v)
          let slot ← env.interface.layout.slot layout index
          getFields env walk last layout site (index + 1) ds (slots.setIfInBounds slot v)) :=
        fun v => (spares_setField _ _ _ a).bind fun _ _ => (Keeps.lift _).bind fun _ _ => ih _ _ a
      split
      · exact (h d List.mem_cons_self a).bind fun v _ => hrest v
      · exact (hlast d List.mem_cons_self a).bind fun v _ => hrest v
    · exact (h d List.mem_cons_self a).bind fun _ _ => ih _ _ a

theorem spares_getBody {align layout count : Nat} {fields : List Descriptor}
    (h : ∀ d ∈ fields, Spares (walk d site)) :
    Spares (getBody env walk walk align layout count fields site) := fun a =>
  (spares_fetch _ a).bind fun _ _ => (spares_getFields h h a).bind fun _ _ =>
    (spares_verifyLate _ a).bind fun _ _ => .pure trivial

theorem spares_getStruct {definition : Nat} (h : ∀ s, env.vector.structDefinition definition = .ok s →
    ∀ d ∈ s.fields, ∀ site, Spares (walk d site)) :
    Spares (getStruct env walk .fixed definition site) := fun a =>
  (Keeps.lift _).bind fun d hd => (Keeps.lift _).bind fun _ _ =>
    (spares_openStruct _ _ a).bind fun _ _ => spares_getBody (fun e he => h d hd e he _) a

theorem spares_getNested {align layout : Nat} {fields : List Descriptor}
    (h : ∀ d ∈ fields, ∀ site, Spares (walk d site)) :
    Spares (getNested env walk align layout fields site) := fun a =>
  (Keeps.lift _).bind fun _ _ => (spares_openStruct _ _ a).bind fun _ _ =>
    spares_getBody (fun e he => h e he _) a

/-- A record is read with nothing put off, and without a look at pipes. -/
theorem spares_walk (hD : env.interface.OfRecords D) (room : Nat) {d : Descriptor} (hd : D d)
    (site : Site ScopeId) : Spares (Unmarshal.walk env room d site) := by
  induction room generalizing d site with
  | zero => exact fun _ => .throw _
  | succ room ih =>
    have hrecord := hD.record hd
    unfold Unmarshal.walk getForm
    unfold Descriptor.IsRecord at hrecord
    split
    · exact fun a => (spares_fetch _ a).bind fun _ _ => (Keeps.lift _).bind fun _ _ => .pure trivial
    · rename_i hform
      rw [hform] at hrecord
      obtain ⟨rfl, -⟩ := hrecord
      exact spares_getStruct fun s hs e he => ih (hD.embedded hd (.field hform hs he))
    · rename_i hform
      exact spares_getNested fun e he => ih (hD.embedded hd (.nestedField hform he))
    case h_12 => exact fun a => (spares_fetch _ a).bind fun _ _ => .pure trivial
    all_goals
      rename_i hform
      rw [hform] at hrecord
      exact hrecord.elim

end Unmarshal

/-! ### Records in lock-step -/

namespace Lockstep

/-- What is asked of the values of records: a marker holds nothing. No cell is met. -/
def recordTerms (D : Descriptor → Prop) : Terms where
  value d v _ := D d ∧ (d.isField = false → v = .void)
  cell _ := False

variable {env : Marshal.Env} {D : Descriptor → Prop} {N : Naming}

/-- A record that is written is read back, also where there is more room for what it is made of. -/
theorem lockedWalks_record (hD : env.interface.OfRecords D) (side : Side) (previous : NodeTable)
    {room room' : Nat} (hroom : room ≤ room') :
    LockedWalks env (recordTerms D) N (recordTerms D).value (Marshal.walk env room)
      (Unmarshal.walk (env.receiver side previous) room') := by
  induction room generalizing room' with
  | zero => exact lockedWalks_zero
  | succ room ih =>
    obtain ⟨room', rfl⟩ := Nat.exists_eq_add_of_le' (Nat.lt_of_lt_of_le (Nat.succ_pos _) hroom)
    have ih := ih (Nat.le_of_succ_le_succ hroom)
    refine lockedWalks_succ fun {d v F G x y} hP hm => ?_
    obtain ⟨hd, hvoid⟩ := hP
    have hrecord := hD.record hd
    obtain ⟨offset, modifiers, form⟩ := d
    cases form with
    | scalar kind => exact locked_scalar (checkRange_of_none hrecord)
    | struct kind props definition =>
      obtain ⟨rfl, hlayout⟩ := hrecord
      refine locked_putStruct_fixed side previous ih fun s hs slots scope hv hscope =>
        ⟨hlayout s hs, fieldsHold_of_forall (fun k f w hf hw => ?_) fun f hf hmarker => ?_⟩
      · have hmem := List.mem_filter.1 (List.mem_of_getElem? hf)
        exact ⟨hD.embedded hd (.field rfl hs hmem.1), fun h => absurd (hmem.2.symm.trans h) (by simp)⟩
      · exact ⟨hD.embedded hd (.field rfl hs hf), fun _ => rfl⟩
    | nested align layout fields =>
      refine locked_putNested side previous ih fun slots scope hv hscope =>
        ⟨hrecord, fieldsHold_of_forall (fun k f w hf hw => ?_) fun f hf hmarker => ?_⟩
      · have hmem := List.mem_filter.1 (List.mem_of_getElem? hf)
        exact ⟨hD.embedded hd (.nestedField rfl hmem.1), fun h => absurd (hmem.2.symm.trans h) (by simp)⟩
      · exact ⟨hD.embedded hd (.nestedField rfl hf), fun _ => rfl⟩
    | align boundary =>
      obtain rfl := hvoid rfl
      exact locked_align boundary.toNat
    | array | encapsulatedUnion | switchedUnion | pointer | ignore | converted | pipe | context
    | deletedNodes | void | unhosted => exact hrecord.elim

end Lockstep

end Ndr
