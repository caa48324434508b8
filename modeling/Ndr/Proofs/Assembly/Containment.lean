import Mathlib.Logic.Relation
import Ndr.Proofs.Assembly.Reference

/-!
Structs that contain each other by value. Whatever refers to a struct asks for its properties, and so
looks through all that it contains, down to a depth that no cycle stays above: a struct that leads by
value into a cycle is refused where it is referred to and where it is laid down. What is referred to is
queued, once, and all that is queued is laid down in the end.
-/

namespace Ndr

/-- The types whose values are part of the values of a type, or travel in their place. -/
def TypeSpec.contents : TypeSpec → List TypeSpec
  | .pointer _ _ => []
  | t => t.parts

/-- The values of a type contain those of a struct. -/
inductive TypeSpec.Includes : TypeSpec → StructId → Prop where
  | struct (id : StructId) : Includes (.struct id) id
  | part {s t : TypeSpec} {id : StructId} (hs : s ∈ t.contents) (h : s.Includes id) : Includes t id

theorem TypeSpec.contents_subset (t : TypeSpec) : t.contents ⊆ t.parts := by
  cases t <;> simp [contents]

theorem TypeSpec.Includes.mentions {t : TypeSpec} {id : StructId} (h : t.Includes id) :
    t.Mentions id := by
  induction h with
  | struct id => exact .struct id
  | part hs _ ih => exact .part (contents_subset _ hs) ih

namespace Assembler

variable {a b c : Assembler} {id : StructId}

/-! ### Cycles -/

/-- A struct contains another by value, in one of its fields. -/
def Includes (a : Assembler) (id inner : StructId) : Prop :=
  ∃ s, a.spec? id = some s ∧ ∃ t ∈ s.fields, t.Includes inner

/-- Containment comes to an end below a struct. -/
def Founded (a : Assembler) (id : StructId) : Prop := Acc (fun inner outer => a.Includes outer inner) id

/-- A struct leads by value into a struct that contains itself, or is one. -/
def Circular (a : Assembler) (id : StructId) : Prop :=
  ∃ inner, Relation.ReflTransGen a.Includes id inner ∧ Relation.TransGen a.Includes inner inner

theorem Founded.not_circular (h : a.Founded id) : ¬a.Circular id := by
  induction h with
  | intro id _ ih =>
    -- one step on, there is the cycle still
    rintro ⟨inner, hlead, hcycle⟩
    rcases Relation.ReflTransGen.cases_head hlead with rfl | ⟨next, hnext, hlead⟩
    · obtain ⟨next, hnext, hback⟩ := Relation.TransGen.head'_iff.1 hcycle
      exact ih next hnext ⟨id, hback, hcycle⟩
    · exact ih next hnext ⟨inner, hlead, hcycle⟩

theorem Founded.congr (h : ∀ id, b.spec? id = a.spec? id) : b.Founded id ↔ a.Founded id := by
  have hincludes : b.Includes = a.Includes := by
    funext outer inner
    unfold Includes
    rw [h]
  rw [Founded, Founded, hincludes]

theorem props_of_joinProps {props : TypeSpec → Except Fault UInt8} {first all : UInt8}
    {specs : List TypeSpec} (h : joinProps props first specs = .ok all) :
    ∀ t ∈ specs, ∃ p, props t = .ok p := by
  unfold joinProps at h
  induction specs generalizing first with
  | nil => exact fun _ ht => absurd ht List.not_mem_nil
  | cons t specs ih =>
    rw [List.foldlM_cons] at h
    obtain ⟨next, hnext, h⟩ := Except.bind_eq_ok.1 h
    obtain ⟨p, hp, -⟩ := Except.bind_eq_ok.1 hnext
    exact List.forall_mem_cons.2 ⟨⟨p, hp⟩, ih h⟩

/-- **What has properties leads into no cycle**: they are found through all that it contains. -/
theorem founded_of_propsOf {room : Nat} {t : TypeSpec} {props : UInt8}
    (h : a.propsOf room t = .ok props) (hid : t.Includes id) : a.Founded id := by
  induction room generalizing t props id with
  | zero => exact absurd h (by simp [propsOf])
  | succ room ih =>
    have hall : ∀ {first all specs}, joinProps (a.propsOf room) first specs = .ok all →
        ∀ s ∈ specs, ∀ {id}, s.Includes id → a.Founded id := by
      intro first all specs h s hs id hid
      obtain ⟨p, hp⟩ := props_of_joinProps h s hs
      exact ih hp hid
    cases hid with
    | struct =>
      obtain ⟨s, hs, h⟩ := Except.bind_eq_ok.1 h
      refine .intro id fun inner hinner => ?_
      obtain ⟨s', hs', t, ht, hinner⟩ := hinner
      obtain rfl := Option.some.inj ((structSpec_eq_ok.1 hs).symm.trans hs')
      exact hall h t ht hinner
    | @part s _ _ hs hid =>
      cases t with
      | nested => exact hall h s hs hid
      | union => exact hall h s hs hid
      | array =>
        obtain rfl := List.mem_singleton.1 hs
        obtain ⟨p, hp, -⟩ := Except.bind_eq_ok.1 h
        exact ih hp hid
      | converted | freeRep =>
        obtain rfl := List.mem_singleton.1 hs
        exact ih h hid
      | pipe =>
        obtain rfl := List.mem_singleton.1 hs
        obtain ⟨p, hp, -⟩ := Except.bind_eq_ok.1 h
        exact ih hp hid
      | _ => exact absurd hs (by simp [TypeSpec.contents, TypeSpec.parts])

/-! ### Structs that are queued -/

/-- A struct was referred to. -/
def Queued (a : Assembler) (id : StructId) : Prop := ∃ e, a.structs[id]? = some e ∧ e.queued

/-- The number of structs that were not referred to. -/
def unqueued (a : Assembler) : Nat := a.structs.countP fun e => !e.queued

/-- `b` is `a` with more structs queued. -/
structure Queues (a b : Assembler) : Prop where
  size : b.structs.size = a.structs.size
  specs : ∀ id, b.spec? id = a.spec? id
  offsets : ∀ id, b.offset? id = a.offset? id
  queued : ∀ id, a.Queued id → b.Queued id
  pending : ∀ id ∈ a.pending, id ∈ b.pending
  fresh : ∀ id, b.Queued id → a.Queued id ∨ id ∈ b.pending
  count : b.pending.length + b.unqueued = a.pending.length + a.unqueued

namespace Queues

theorem of_eq (hs : b.structs = a.structs) (hp : b.pending = a.pending) : Queues a b where
  size := by rw [hs]
  specs id := by rw [spec?, spec?, hs]
  offsets id := by rw [offset?, offset?, hs]
  queued id h := by rwa [Queued, hs]
  pending id h := by rwa [hp]
  fresh id h := .inl (by rwa [Queued, hs] at h)
  count := by rw [unqueued, unqueued, hs, hp]

theorem refl (a : Assembler) : Queues a a := of_eq rfl rfl

theorem trans (h : Queues a b) (h' : Queues b c) : Queues a c where
  size := h'.size.trans h.size
  specs id := (h'.specs id).trans (h.specs id)
  offsets id := (h'.offsets id).trans (h.offsets id)
  queued id hid := h'.queued id (h.queued id hid)
  pending id hid := h'.pending id (h.pending id hid)
  fresh id hid := (h'.fresh id hid).elim
    (fun hid => (h.fresh id hid).imp_right (h'.pending id)) .inr
  count := h'.count.trans h.count

theorem founded (h : Queues a b) : b.Founded id ↔ a.Founded id := Founded.congr h.specs

end Queues

theorem queues_queue (id : StructId) : Queues a (a.queue id) := by
  have hspecs : ∀ j, (a.queue id).spec? j = a.spec? j := fun j => by
    rw [spec?_eq_known, known_queue, ← spec?_eq_known]
  have hoffsets : ∀ j, (a.queue id).offset? j = a.offset? j := fun j => by
    rw [offset?_eq_known, known_queue, ← offset?_eq_known]
  cases he : a.structs[id]? with
  | none =>
    refine .of_eq ?_ ?_
    all_goals simp [queue, he]
  | some e =>
    by_cases hq : e.queued
    · refine .of_eq ?_ ?_
      all_goals simp [queue, he, hq]
    · obtain ⟨hlt, rfl⟩ := Array.getElem?_eq_some_iff.1 he
      have hqueue : a.queue id = { a with
          structs := a.structs.setIfInBounds id { a.structs[id] with queued := true }
          pending := id :: a.pending } := by simp [queue, he, hq]
      have hget : ∀ j, (a.queue id).structs[j]? =
          if id = j then some { a.structs[id] with queued := true } else a.structs[j]? := by
        intro j
        rw [hqueue, Array.getElem?_setIfInBounds]
        by_cases hj : id = j
        · rw [if_pos hj, if_pos hj, if_pos hlt]
        · rw [if_neg hj, if_neg hj]
      have hpending : (a.queue id).pending = id :: a.pending := by rw [hqueue]
      refine ⟨?_, hspecs, hoffsets, fun j hj => ?_, fun j hj => ?_, fun j hj => ?_, ?_⟩
      · rw [hqueue, Array.size_setIfInBounds]
      · obtain ⟨e, he, hqueued⟩ := hj
        by_cases hid : id = j
        · exact ⟨_, (hget j).trans (if_pos hid), rfl⟩
        · exact ⟨e, (hget j).trans ((if_neg hid).trans he), hqueued⟩
      · rw [hpending]
        exact List.mem_cons_of_mem _ hj
      · rw [hpending]
        by_cases hid : id = j
        · exact .inr (hid ▸ List.mem_cons_self)
        · obtain ⟨e, he, hqueued⟩ := hj
          exact .inl ⟨e, (if_neg hid).symm.trans ((hget j).symm.trans he), hqueued⟩
      · -- one more is pending, and one less is not queued
        have hcount : (a.queue id).unqueued + 1 = a.unqueued := by
          have hpos : 0 < a.structs.countP fun e => !e.queued :=
            Array.countP_pos_iff.2 ⟨_, Array.getElem_mem hlt, by simpa using hq⟩
          rw [unqueued, unqueued, hqueue]
          simp only [Array.setIfInBounds, dif_pos hlt, Array.countP_set hlt]
          simp only [hq]
          simp
          omega
        rw [hpending, List.length_cons]
        omega

theorem queued_queue {s : StructSpec} (hs : a.spec? id = some s) : (a.queue id).Queued id := by
  obtain ⟨e, he, -⟩ := Option.bind_eq_some_iff.1 hs
  unfold queue
  rw [he]
  by_cases hq : e.queued
  · simp only [hq, if_true]
    exact ⟨e, he, hq⟩
  · simp only [hq]
    exact ⟨{ e with queued := true },
      by simp [(Array.getElem?_eq_some_iff.1 he).1], rfl⟩

/-! ### Actions that refer to structs -/

/-- An action from `a` on queued structs and did no more to them. Where it succeeded, the structs of
which `M` holds are queued, and none of them leads into a cycle. -/
def Cites {α : Type} (a : Assembler) (M : StructId → Prop) : EStateM.Result Fault Assembler α → Prop
  | .ok _ b => Queues a b ∧ ∀ id, M id → a.Founded id ∧ b.Queued id
  | .error _ b => Queues a b

/-- No struct is referred to. -/
abbrev noStruct : StructId → Prop := fun _ => False

variable {α β : Type} {M M' N : StructId → Prop} {t : TypeSpec} {r : Record} {room : Nat}

namespace Cites

theorem of_queues {v : α} (h : Queues a b) : Cites a noStruct (.ok v b) := ⟨h, fun _ h => h.elim⟩

theorem ok {x : Assemble α} {v : α} (h : Cites a M (x a)) (e : x a = .ok v b) :
    Queues a b ∧ ∀ id, M id → a.Founded id ∧ b.Queued id := by
  rwa [e] at h

theorem error {x : Assemble α} {f : Fault} (h : Cites a M (x a)) (e : x a = .error f b) :
    Queues a b := by
  rwa [e] at h

theorem mono {x : EStateM.Result Fault Assembler α} (h : Cites a M x) (hM : ∀ id, N id → M id) :
    Cites a N x := by
  cases x with
  | ok r b => exact ⟨h.1, fun id hid => h.2 id (hM id hid)⟩
  | error e b => exact h

theorem pure (v : α) : Cites a noStruct ((pure v : Assemble α) a) := of_queues (.refl a)

theorem bind {x : Assemble α} {f : α → Assemble β} (hx : Cites a M (x a))
    (hf : ∀ v b, Cites b M' (f v b)) (hN : ∀ id, N id → M id ∨ M' id) :
    Cites a N ((x >>= f) a) := by
  show Cites a N (EStateM.bind x f a)
  unfold EStateM.bind
  cases ex : x a with
  | error e b =>
    rw [ex] at hx
    exact hx
  | ok v b =>
    rw [ex] at hx
    have hv := hf v b
    show Cites a N (f v b)
    cases ef : f v b with
    | error e c =>
      rw [ef] at hv
      exact hx.1.trans hv
    | ok w c =>
      rw [ef] at hv
      refine ⟨hx.1.trans hv.1, fun id hid => ?_⟩
      rcases hN id hid with hid | hid
      · exact (hx.2 id hid).imp_right (hv.1.queued id)
      · exact (hv.2 id hid).imp_left hx.1.founded.1

/-- Steps that refer to no struct go ahead, or follow. -/
theorem after {x : Assemble α} {f : α → Assemble β} (hx : Cites a noStruct (x a))
    (hf : ∀ v b, Cites b M (f v b)) : Cites a M ((x >>= f) a) := hx.bind hf fun _ => .inr

theorem before {x : Assemble α} {f : α → Assemble β} (hx : Cites a M (x a))
    (hf : ∀ v b, Cites b noStruct (f v b)) : Cites a M ((x >>= f) a) := hx.bind hf fun _ => .inl

theorem see {f : Assembler → Assemble α} (h : Cites a M (f a a)) : Cites a M ((get >>= f) a) := h

theorem lift {x : Except Fault α} {f : α → Assemble β} (h : ∀ v, x = .ok v → Cites a M (f v a)) :
    Cites a M ((liftM x >>= f) a) := by
  cases x with
  | ok v => exact h v rfl
  | error e => exact Queues.refl a

theorem replace (h : Queues a b) : Cites a noStruct ((set b : Assemble PUnit) a) := of_queues h

theorem modified {f : Assembler → Assembler} (h : Queues a (f a)) :
    Cites a noStruct ((modify f : Assemble PUnit) a) := of_queues h

theorem malformed (reason : Malformation) : Cites a M ((malformed reason : Assemble α) a) :=
  Queues.refl a

theorem guard {c : Prop} [Decidable c] {reason : Malformation} {f : PUnit → Assemble α}
    (h : Cites a M (f ⟨⟩ a)) :
    Cites a M ((if c then Assembler.malformed reason >>= f else f ⟨⟩) a) := by
  by_cases hc : c
  · rw [if_pos hc]
    exact Queues.refl a
  · rwa [if_neg hc]

theorem emit (r : Record) : Cites a noStruct (emit r a) := of_queues (.of_eq rfl rfl)

theorem record {f : Record → Assemble α} (h : ∀ r, Cites a M (f r a)) :
    Cites a M ((record >>= f) a) := h _

theorem emitLayout (s : StructSpec) : Cites a noStruct (emitLayout s a) := by
  have hset : ∀ slots : List UInt32, Cites a noStruct ((do
      set { a with
        layout := a.layout.push (UInt32.ofNat s.slotted.length) ++ slots.toArray }
      return a.layout.size : Assemble Nat) a) := by
    intro slots
    have hlayout : Queues a { a with
      layout := a.layout.push (UInt32.ofNat s.slotted.length) ++ slots.toArray } := .of_eq rfl rfl
    exact (replace hlayout).after fun _ _ => .pure _
  unfold Assembler.emitLayout
  refine see ?_
  cases hslots : s.hostSlots with
  | none => exact hset _
  | some slots =>
    dsimp only
    by_cases hc : slots.length = s.slotted.length ∧ slots.all (·.toNat < s.slotted.length)
    · simp only [if_pos hc]
      exact hset slots
    · simp only [if_neg hc]
      exact Queues.refl a

end Cites

/-! ### Types -/

/-- A way to write types that queues all structs that a type mentions. -/
def WriteCites (write : Write) : Prop := ∀ t r a, Cites a t.Mentions (write t r a)

/-- Some types mention a struct. -/
def MentionedIn (ts : List TypeSpec) (id : StructId) : Prop := ∃ t ∈ ts, t.Mentions id

theorem not_mentionedIn_nil : ¬MentionedIn [] id := by
  rintro ⟨t, h, -⟩
  exact List.not_mem_nil h

theorem mentionedIn_parts (h : t.Mentions id) (ht : ∀ id, t ≠ .struct id) : MentionedIn t.parts id := by
  cases h with
  | struct => exact absurd rfl (ht id)
  | part hs h => exact ⟨_, hs, h⟩

section

variable {write : Write} (hw : WriteCites write)

include hw

theorem cites_emitStream (t : TypeSpec) : Cites a t.Mentions (emitStream write t a) :=
  .record fun r => (hw t r a).before fun _ _ => .emit _

theorem cites_emitArray (s : ArraySpec) : Cites a s.element.Mentions (emitArray write s a) := by
  unfold emitArray
  exact .guard (.guard (.record fun r => (hw s.element _ a).before fun _ _ => .emit _))

theorem cites_emitArm (t : TypeSpec) : Cites a t.Mentions (emitArm room write t a) := by
  unfold emitArm
  refine .see (.lift fun props _ => ?_)
  refine (cites_emitStream hw t).before fun n b => ?_
  exact .see (.pure _)

theorem cites_emitCases (arms : List (UInt32 × Option TypeSpec)) :
    Cites a (MentionedIn (arms.filterMap (·.2))) (emitCases room write arms a) := by
  induction arms generalizing a with
  | nil => exact (Cites.pure _).mono fun _ h => absurd h not_mentionedIn_nil
  | cons arm arms ih =>
    obtain ⟨label, arm⟩ := arm
    unfold emitCases
    have hrest : ∀ (r : ArmRecord) b, Cites b (MentionedIn (arms.filterMap (·.2)))
        ((do return (label, r) :: (← emitCases room write arms)
          : Assemble (List (UInt32 × ArmRecord))) b) :=
      fun r b => ih.before fun _ _ => .pure _
    cases arm with
    | none => exact hrest _ a
    | some t =>
      refine (cites_emitArm hw t).bind hrest ?_
      rintro id ⟨u, hu, hid⟩
      rcases List.mem_cons.1 hu with rfl | hu
      · exact .inl hid
      · exact .inr ⟨u, hu, hid⟩

/-- The arm of the values that no case names, and the record of the union. -/
theorem cites_emitDefault (u : UnionSpec) (align : Nat) (cases : List (UInt32 × ArmRecord)) :
    Cites a (MentionedIn (match u.default with | .arm t => [t] | .missing | .empty => [])) ((do
      let default ← match u.default with
        | .missing => pure (.empty .noArm)
        | .empty => pure (.empty .void)
        | .arm spec => emitArm room write spec
      emit (writeArms (cases ++ [(0, default)]) (unionHead u align (← record)))
        : Assemble Nat) a) := by
  have hrest : ∀ (default : ArmRecord) b, Cites b noStruct ((do
      emit (writeArms (cases ++ [(0, default)]) (unionHead u align (← record))) : Assemble Nat) b) :=
    fun default b => .record fun r => .emit _
  cases u.default with
  | missing | empty => exact (hrest _ a).mono fun _ h => absurd h not_mentionedIn_nil
  | arm t =>
    refine ((cites_emitArm hw t).before hrest).mono ?_
    rintro id ⟨u, hu, hid⟩
    rwa [← List.mem_singleton.1 hu]

theorem cites_emitUnion (u : UnionSpec) :
    Cites a (MentionedIn u.armTypes) (emitUnion room write u a) := by
  unfold emitUnion
  refine .guard (.see (.lift fun align _ => ?_))
  refine (cites_emitCases hw u.arms).bind (fun cases _ => cites_emitDefault hw u align cases) ?_
  rintro id ⟨t, ht, hid⟩
  exact (List.mem_append.1 ht).imp (fun ht => ⟨t, ht, hid⟩) fun ht => ⟨t, ht, hid⟩

theorem cites_writeFields (specs : List TypeSpec) (r : Record) (last : Option Nat) :
    Cites a (MentionedIn specs) (writeFields write specs r last a) := by
  induction specs generalizing a r last with
  | nil => exact (Cites.pure _).mono fun _ h => absurd h not_mentionedIn_nil
  | cons t specs ih =>
    refine (hw t r a).bind (fun _ _ => ih _ _) ?_
    rintro id ⟨u, hu, hid⟩
    rcases List.mem_cons.1 hu with rfl | hu
    · exact .inl hid
    · exact .inr ⟨u, hu, hid⟩

omit hw in
/-- A reference to a struct. -/
theorem cites_struct (r : Record) (id : StructId) :
    Cites a (TypeSpec.struct id).Mentions (writeStep room write (.struct id) r a) := by
  refine .see (.lift fun s hs => .lift fun array _ => .lift fun props hprops => ?_)
  refine ⟨queues_queue id, fun j hj => ?_⟩
  cases hj with
  | struct => exact ⟨founded_of_propsOf hprops (.struct id), queued_queue (structSpec_eq_ok.1 hs)⟩
  | part hs => exact absurd hs List.not_mem_nil

/-- A level of writing types queues what they mention where the levels below do. -/
theorem writeCites_step (room : Nat) : WriteCites (writeStep room write) := by
  intro t r a
  have hleaf : ∀ v, t.parts = [] → (∀ id, t ≠ .struct id) →
      Cites a t.Mentions ((pure v : Assemble (Record × Option Nat)) a) := by
    intro v hparts hstruct
    refine (Cites.pure v).mono fun id hid => ?_
    obtain ⟨s, hs, -⟩ := mentionedIn_parts hid hstruct
    exact absurd hs (by simp [hparts])
  have hpart : ∀ {s : TypeSpec} {x : Assemble (Record × Option Nat)}, t.parts = [s] →
      (∀ id, t ≠ .struct id) → Cites a s.Mentions (x a) → Cites a t.Mentions (x a) := by
    intro s x hparts hstruct hx
    refine hx.mono fun id hid => ?_
    obtain ⟨s', hs, hid⟩ := mentionedIn_parts hid hstruct
    rw [hparts] at hs
    rwa [← List.mem_singleton.1 hs]
  cases t with
  | scalar | range | ignore | context | deletedNodes | void | opcode => exact hleaf _ rfl (by simp)
  | struct id => exact cites_struct r id
  | nested s =>
    refine .see (.lift fun align _ => (Cites.emitLayout s).after fun layout b => ?_)
    refine ((cites_writeFields hw s.fields _ _).before fun _ _ => .pure _).mono fun id hid => ?_
    exact mentionedIn_parts hid (by simp)
  | array s =>
    refine hpart rfl (by simp) (.see (.lift fun props _ => ?_))
    exact (cites_emitArray hw s).before fun _ _ => .pure _
  | union u =>
    obtain ⟨switch, field, arms, default, optional⟩ := u
    refine .see (.lift fun props _ => ?_)
    refine ((cites_emitUnion hw _).before fun _ _ => ?_).mono fun id hid =>
      mentionedIn_parts hid (by simp)
    cases field <;> exact .pure _
  | pointer kind pointee =>
    refine hpart rfl (by simp) (.see (.lift fun props _ => ?_))
    exact (cites_emitStream hw pointee).before fun _ _ => .pure _
  | converted kind routine wire =>
    refine hpart rfl (by simp) (.see (.lift fun props _ => ?_))
    exact (cites_emitStream hw wire).before fun _ _ => .pure _
  | freeRep routine inner => exact hpart rfl (by simp) (hw inner _ a)
  | pipe element =>
    refine hpart rfl (by simp) (.see (.lift fun props _ => ?_))
    exact (cites_emitStream hw element).before fun _ _ => .pure _
  | align boundary =>
    rcases writeStep_align room r boundary with ⟨b, -, h⟩ | h
    · rw [h]
      exact hleaf _ rfl (by simp)
    · rw [h]
      exact .malformed _

end

theorem writeCites_write (room : Nat) : WriteCites (write room) := by
  induction room with
  | zero => exact fun _ _ _ => .malformed _
  | succ room ih => exact writeCites_step ih room

theorem cites_writeParameters (ps : List (UInt32 × TypeSpec)) (r : Record) :
    Cites a (MentionedIn (ps.map Prod.snd)) (writeParameters ps r a) := by
  induction ps generalizing a r with
  | nil => exact (Cites.pure _).mono fun _ h => absurd h not_mentionedIn_nil
  | cons p ps ih =>
    obtain ⟨index, t⟩ := p
    refine (writeCites_write (maxNesting + 1) t (r.word index.toNat) a).bind (fun _ _ => ih _) ?_
    rintro id ⟨u, hu, hid⟩
    rcases List.mem_cons.1 hu with rfl | hu
    · exact .inl hid
    · exact .inr ⟨u, hu, hid⟩

theorem cites_parameters (ps : List (UInt32 × TypeSpec)) :
    Cites a (MentionedIn (ps.map Prod.snd)) (parameters ps a) :=
  .record fun _ => (cites_writeParameters ps _).before fun _ _ => .emit _

theorem cites_stream (t : TypeSpec) : Cites a t.Mentions (stream t a) :=
  cites_emitStream (writeCites_write _) t

end Assembler

end Ndr
