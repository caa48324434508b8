import Ndr.Proofs.Assembly.Containment
import Ndr.Proofs.Assembly.Replay

/-!
The structs that an assembler lays down in the end: those that are queued, and those that their fields
mention in turn. Each is queued once, so there are no more of them than structs; and each is asked for
its properties, so that none leads by value into a cycle.
-/

namespace Ndr

namespace Assembler

variable {a b c : Assembler} {id : StructId} {n : Nat}

/-! ### One struct -/

section

variable {f : StructEntry → StructEntry}

/-- A change of other things that are known of a struct than whether it is queued. -/
theorem queued_modify (hqueued : ∀ e, (f e).queued = e.queued) (j : StructId) :
    ({ a with structs := a.structs.modify id f } : Assembler).Queued j ↔ a.Queued j := by
  have hiff : ∀ c : Assembler,
      c.Queued j ↔ (c.structs[j]?.bind fun e => some e.queued) = some true := fun c => by
    simp [Queued, Option.bind_eq_some_iff]
  rw [hiff, hiff, getElem?_modify_bind fun _ e => by rw [hqueued]]

theorem unqueued_modify (hqueued : ∀ e, (f e).queued = e.queued) :
    ({ a with structs := a.structs.modify id f } : Assembler).unqueued = a.unqueued := by
  have hmap : (a.structs.modify id f).map (!·.queued) = a.structs.map (!·.queued) := by
    refine Array.ext_getElem? fun j => ?_
    rw [Array.getElem?_map, Array.getElem?_map, Array.getElem?_modify]
    split
    · rw [Option.map_map]
      simp [Function.comp_def, hqueued]
    · rfl
  have hcount : ∀ structs : Array StructEntry,
      structs.countP (fun e => !e.queued) = (structs.map (!·.queued)).countP fun q => q := fun structs => by
    rw [Array.countP_map]
    rfl
  rw [unqueued, unqueued, hcount, hcount, hmap]

/-- The array at the end of a struct is told. -/
theorem queues_trail (id : StructId) (trailing : TrailingArray) : Queues a { a with
    structs := a.structs.modify id fun e => { e with trailing := some trailing } } := by
  have hqueued : ∀ j, Assembler.Queued { a with
      structs := a.structs.modify id fun e => { e with trailing := some trailing } } j ↔ a.Queued j :=
    queued_modify fun _ => rfl
  refine ⟨Array.size_modify, fun _ => getElem?_modify_bind fun _ _ => rfl,
    fun _ => getElem?_modify_bind fun _ _ => rfl, fun j => (hqueued j).2, fun _ h => h,
    fun j h => .inl ((hqueued j).1 h), ?_⟩
  exact congrArg (a.pending.length + ·) (unqueued_modify fun _ => rfl)

end

/-- A field of a struct mentions another struct. -/
def Cited (a : Assembler) (id inner : StructId) : Prop :=
  ∃ s, a.spec? id = some s ∧ MentionedIn s.fields inner

theorem cites_trail (id : StructId) (trailing : TrailingArray) :
    Cites a noStruct (modifyStruct id (fun e => { e with trailing := some trailing }) a) :=
  .modified (queues_trail id trailing)

/-- The operand for the array at the end is the definition of the last array. -/
theorem cites_emitLast (id : StructId) (w : Record × Option Nat) : Cites a noStruct ((match w.2 with
    | none => Assembler.malformed .trailingArrayMissing
    | some definition => do
      modifyStruct id fun e => { e with trailing := some (.laid definition) }
      emit ((patched w.1 definition).op .endOfList) : Assemble Nat) a) := by
  cases w.2 with
  | none => exact .malformed _
  | some definition => exact (cites_trail id _).after fun _ _ => .emit _

/-- A struct that is laid down queues all that its fields mention. -/
theorem cites_emitStruct (id : StructId) : Cites a (a.Cited id) (emitStruct id a) := by
  unfold emitStruct
  refine .see (.lift fun s hs => .lift fun align _ => .lift fun props _ => ?_)
  refine (Cites.emitLayout s).after fun layout b => .record fun r => .lift fun array _ => ?_
  have hfields : ∀ r, Cites b (a.Cited id) (writeFields (write maxNesting) s.fields r none b) :=
    fun r => (cites_writeFields (writeCites_write _) s.fields r none).mono fun inner h => by
      obtain ⟨s', hs', h⟩ := h
      rwa [Option.some.inj ((structSpec_eq_ok.1 hs).symm.trans hs')]
  refine (hfields _).before fun w c => ?_
  cases array with
  | none => exact .emit _
  | some array =>
    cases hfield : s.lastField? with
    | none => exact cites_emitLast id w
    | some t =>
      cases t with
      | struct inner =>
        refine (Cites.emit _).after fun n c => (cites_trail id _).after fun _ c => ?_
        exact (Cites.modified (.of_eq rfl rfl)).after fun _ _ => .pure _
      | _ => exact cites_emitLast id w

/-! ### All that is queued -/

/-- The number of structs that may still be laid down. -/
def remaining (a : Assembler) : Nat := a.pending.length + a.unqueued

theorem Queues.remaining_eq (h : Queues a b) : b.remaining = a.remaining := h.count

/-- The next struct is laid down, and its offset is kept. -/
theorem emitPending_succ (fuel : Nat) (a : Assembler) :
    emitPending (fuel + 1) a = match a.pending with
      | [] => .ok ⟨⟩ a
      | id :: rest => match emitStruct id { a with pending := rest } with
        | .ok n b => emitPending fuel (b.placed id n)
        | .error e b => .error e b := by
  conv_lhs => unfold emitPending
  refine (bind_of_ok rfl _).trans ?_
  cases hpending : a.pending with
  | nil => rfl
  | cons id rest =>
    refine (bind_of_ok rfl _).trans ?_
    dsimp only
    cases e : emitStruct id { a with pending := rest } with
    | ok n b => exact (bind_of_ok e _).trans (bind_of_ok rfl _)
    | error f b => exact bind_of_error e _

section

variable {rest : List StructId}

theorem queues_of_emitStruct (e : emitStruct id { a with pending := rest } = .ok n b) :
    Queues { a with pending := rest } b := ((cites_emitStruct id).ok e).1

theorem remaining_placed : (b.placed id n).remaining = b.remaining :=
  congrArg (b.pending.length + ·) (unqueued_modify fun _ => rfl)

theorem queued_placed (j : StructId) : (b.placed id n).Queued j ↔ b.Queued j :=
  queued_modify (f := fun e => { e with offset := some n }) (fun _ => rfl) j

/-- With each struct that is laid down there is one less to come. -/
theorem remaining_emitStruct (hpending : a.pending = id :: rest)
    (e : emitStruct id { a with pending := rest } = .ok n b) :
    (b.placed id n).remaining + 1 = a.remaining := by
  rw [remaining_placed, (queues_of_emitStruct e).remaining_eq, remaining, remaining, hpending,
    List.length_cons]
  show rest.length + a.unqueued + 1 = _
  omega

end

/-- **Laying down structs comes to an end**: where no more are left than there is fuel for, more fuel
makes no difference. -/
theorem emitPending_eq {fuel more : Nat} (h : a.remaining ≤ fuel) (hmore : fuel ≤ more) :
    emitPending more a = emitPending fuel a := by
  induction fuel generalizing a more with
  | zero =>
    have hpending : a.pending = [] := List.eq_nil_of_length_eq_zero (by unfold remaining at h; omega)
    cases more with
    | zero => rfl
    | succ more =>
      rw [emitPending_succ, hpending]
      rfl
  | succ fuel ih =>
    obtain ⟨more, rfl⟩ := Nat.exists_eq_succ_of_ne_zero (Nat.ne_zero_of_lt hmore)
    rw [emitPending_succ, emitPending_succ]
    cases hpending : a.pending with
    | nil => rfl
    | cons id rest =>
      dsimp only
      cases e : emitStruct id { a with pending := rest } with
      | error => rfl
      | ok n b =>
        have := remaining_emitStruct hpending e
        exact ih (by omega) (Nat.le_of_succ_le_succ hmore)

/-- The structs that are queued are pending or laid down; what a struct mentions that is laid down is
queued, and leads into no cycle. -/
structure UnderWay (a : Assembler) : Prop where
  waiting : ∀ id, a.Queued id → id ∈ a.pending ∨ ∃ n, a.offset? id = some n
  laid : ∀ id n, a.offset? id = some n → ∀ inner, a.Cited id inner → a.Founded inner ∧ a.Queued inner

theorem Cited.congr {inner : StructId} (h : ∀ id, b.spec? id = a.spec? id) :
    b.Cited id inner ↔ a.Cited id inner := by
  unfold Cited
  rw [h]

theorem offset?_placed_self {s : StructSpec} (hs : b.spec? id = some s) :
    (b.placed id n).offset? id = some n := by
  obtain ⟨e, he, -⟩ := Option.bind_eq_some_iff.1 hs
  unfold offset? placed
  rw [Array.getElem?_modify, if_pos rfl, he]
  rfl

/-- One more struct is laid down. -/
theorem UnderWay.step {rest : List StructId} (h : a.UnderWay) (hpending : a.pending = id :: rest)
    (e : emitStruct id { a with pending := rest } = .ok n b) : (b.placed id n).UnderWay := by
  obtain ⟨hqueues, hcited⟩ := (cites_emitStruct id).ok e
  obtain ⟨s, -, -, -, -, -, -, -, -, hs, -⟩ := emitStruct_eq_ok e
  have hspecs : ∀ j, (b.placed id n).spec? j = a.spec? j := fun j =>
    spec?_placed.trans (hqueues.specs j)
  have hself : (b.placed id n).offset? id = some n :=
    offset?_placed_self ((hqueues.specs id).trans hs)
  have hothers : ∀ j m, a.offset? j = some m → ∃ m, (b.placed id n).offset? j = some m := by
    intro j m hm
    by_cases hj : id = j
    · exact ⟨n, hj ▸ hself⟩
    · refine ⟨m, ?_⟩
      rw [offset?, placed, getElem?_modify_bind fun h => absurd h hj]
      exact (hqueues.offsets j).trans hm
  refine ⟨fun j hj => ?_, fun j m hm inner hinner => ?_⟩
  · rcases hqueues.fresh j ((queued_placed j).1 hj) with hj | hj
    · rcases h.waiting j hj with hj | ⟨m, hm⟩
      · rw [hpending] at hj
        rcases List.mem_cons.1 hj with rfl | hj
        · exact .inr ⟨n, hself⟩
        · exact .inl (hqueues.pending j hj)
      · exact .inr (hothers j m hm)
    · exact .inl hj
  · rw [Founded.congr hspecs, queued_placed]
    have hinner := (Cited.congr hspecs).1 hinner
    rcases offset?_placed hm with ⟨rfl, -⟩ | ⟨-, hm⟩
    · exact hcited inner hinner
    · obtain ⟨hfounded, hinner⟩ := h.laid j m ((hqueues.offsets j).symm.trans hm) inner hinner
      exact ⟨hfounded, hqueues.queued inner hinner⟩

/-- In the end nothing is pending. -/
theorem UnderWay.emitPending {fuel : Nat} {u : Unit} (h : a.UnderWay) (hfuel : a.remaining ≤ fuel)
    (e : emitPending fuel a = .ok u b) : b.UnderWay ∧ b.pending = [] ∧
      (∀ id, b.spec? id = a.spec? id) ∧ ∀ id, a.Queued id → b.Queued id := by
  induction fuel generalizing a with
  | zero =>
    obtain ⟨-, rfl⟩ := pure_eq_ok.1 e
    exact ⟨h, List.eq_nil_of_length_eq_zero (by unfold remaining at hfuel; omega), fun _ => rfl,
      fun _ hid => hid⟩
  | succ fuel ih =>
    rw [emitPending_succ] at e
    cases hpending : a.pending with
    | nil =>
      rw [hpending] at e
      obtain ⟨-, rfl⟩ := EStateM.Result.ok.inj e
      exact ⟨h, hpending, fun _ => rfl, fun _ hid => hid⟩
    | cons id rest =>
      rw [hpending] at e
      dsimp only at e
      cases hemit : emitStruct id { a with pending := rest } with
      | error => simp [hemit] at e
      | ok n c =>
        rw [hemit] at e
        have hqueues := queues_of_emitStruct hemit
        have hstep := remaining_emitStruct hpending hemit
        obtain ⟨hway, hnone, hspecs, hqueued⟩ := ih (h.step hpending hemit) (by omega) e
        refine ⟨hway, hnone, fun j => ?_, fun j hj => hqueued j ?_⟩
        · exact (hspecs j).trans (spec?_placed.trans (hqueues.specs j))
        · exact (queued_placed j).2 (hqueues.queued j hj)

/-! ### Assemblers that are not finished -/

/-- No struct is laid down yet, and those that are queued are pending. -/
structure Open (a : Assembler) : Prop where
  waiting : ∀ id, a.Queued id → id ∈ a.pending
  offsets : ∀ id, a.offset? id = none
  bounded : a.remaining ≤ a.structs.size

/-- The structs that will be laid down: those that are queued, and those that their fields mention. -/
inductive Awaits (a : Assembler) : StructId → Prop where
  | queued {id : StructId} (h : a.Queued id) : Awaits a id
  | cited {id inner : StructId} (h : Awaits a id) (hc : a.Cited id inner) : Awaits a inner

namespace Open

theorem underWay (h : a.Open) : a.UnderWay :=
  ⟨fun id hid => .inl (h.waiting id hid), fun id n hn => absurd hn (by simp [h.offsets])⟩

theorem of_queues (h : a.Open) (hq : Queues a b) : b.Open where
  waiting id hid := (hq.fresh id hid).elim (fun hid => hq.pending id (h.waiting id hid)) fun hid => hid
  offsets id := (hq.offsets id).trans (h.offsets id)
  bounded := by
    rw [hq.remaining_eq, hq.size]
    exact h.bounded

theorem new (order : ByteOrder) (flags : UInt32) : (new order flags).Open where
  waiting id h := by
    obtain ⟨e, he, -⟩ := h
    exact absurd he (by simp [Assembler.new])
  offsets id := rfl
  bounded := Nat.le_refl 0

theorem declare (h : a.Open) : a.declare.Open where
  waiting id hid := by
    obtain ⟨e, he, hqueued⟩ := hid
    change (a.structs.push {})[id]? = some e at he
    rw [Array.getElem?_push] at he
    split at he
    · obtain rfl := Option.some.inj he
      exact absurd hqueued (by simp)
    · exact h.waiting id ⟨e, he, hqueued⟩
  offsets id := (getElem?_declare_bind rfl).trans (h.offsets id)
  bounded := by
    have hcount : a.declare.unqueued = a.unqueued + 1 := Array.countP_push_of_pos rfl
    have hsize : a.declare.structs.size = a.structs.size + 1 := Array.size_push _
    have := h.bounded
    unfold remaining at this ⊢
    rw [hcount, hsize]
    show a.pending.length + (a.unqueued + 1) ≤ _
    omega

theorem define (h : a.Open) (id : StructId) (s : StructSpec) : (a.define id s).Open where
  waiting j hj := h.waiting j
    ((queued_modify (f := fun e => { e with spec := some s }) (fun _ => rfl) j).1 hj)
  offsets j := (getElem?_modify_bind (F := fun e => { e with spec := some s })
    fun _ _ => rfl).trans (h.offsets j)
  bounded := by
    have hcount : (a.define id s).unqueued = a.unqueued := unqueued_modify fun _ => rfl
    have hsize : (a.define id s).structs.size = a.structs.size := Array.size_modify
    unfold remaining
    rw [hcount, hsize]
    exact h.bounded

end Open

/-- A request mentions a struct. -/
def Request.Mentions : Request → StructId → Prop
  | .parameters ps => MentionedIn (ps.map Prod.snd)
  | .stream t => t.Mentions

theorem cites_make (r : Request) : Cites a r.Mentions (r.make a) := by
  cases r with
  | parameters ps => exact cites_parameters ps
  | stream t => exact cites_stream t

/-- **A request that mentions a struct that leads into a cycle is refused.** -/
theorem request_refused {r : Request} (hid : r.Mentions id) (hc : a.Circular id) :
    ∃ e b, r.make a = .error e b := by
  cases e : r.make a with
  | error f b => exact ⟨f, b, rfl⟩
  | ok n b =>
    obtain ⟨-, hcited⟩ := (cites_make r).ok e
    exact absurd hc (hcited id hid).1.not_circular

theorem Open.answer (h : a.Open) (c : Call) : (c.answer a).2.Open := by
  cases c with
  | declare => exact h.declare
  | define id s => exact h.define id s
  | add s => exact h.declare.define _ s
  | request r =>
    cases e : r.make a with
    | ok n b =>
      have hmake : (Call.request r).make a = .ok (some n) b := bind_of_ok e _
      rw [Call.answer, hmake]
      exact h.of_queues ((cites_make r).ok e).1
    | error f b =>
      have hmake : (Call.request r).make a = .error f b := bind_of_error e _
      rw [Call.answer, hmake]
      exact h.of_queues ((cites_make r).error e)

theorem Open.replay (h : a.Open) (calls : List Call) : (replay calls a).2.Open := by
  induction calls generalizing a with
  | nil => exact h
  | cons c calls ih => exact ih (h.answer c)

/-! ### The end -/

/-- All structs that will be laid down are queued in the end. -/
theorem Open.queued {u : Unit} (h : a.Open) (e : emitPending a.structs.size a = .ok u b)
    (hid : a.Awaits id) : b.Queued id := by
  obtain ⟨hway, hnone, hspecs, hqueued⟩ := h.underWay.emitPending h.bounded e
  induction hid with
  | queued hid => exact hqueued _ hid
  | @cited id inner _ hc ih =>
    rcases hway.waiting id ih with hpending | ⟨n, hn⟩
    · exact absurd hpending (by simp [hnone])
    · exact (hway.laid id n hn inner ((Cited.congr hspecs).2 hc)).2

/-- A struct that is laid down leads into no cycle. -/
theorem UnderWay.founded (h : a.UnderWay) (hn : a.offset? id = some n) : a.Founded id := by
  refine .intro id fun inner hinner => ?_
  obtain ⟨s, hs, t, ht, hincludes⟩ := hinner
  exact (h.laid id n hn inner ⟨s, hs, t, ht, hincludes.mentions⟩).1

/-- **An assembler is not finished that would lay down a struct that leads into a cycle.** -/
theorem Open.finish_refused (h : a.Open) (hid : a.Awaits id) (hc : a.Circular id) :
    ∃ e, a.finish = .error e := by
  cases e : emitPending a.structs.size a with
  | error f b => exact ⟨f, by unfold finish; rw [EStateM.run, e]; rfl⟩
  | ok u b =>
    obtain ⟨hway, hnone, hspecs, -⟩ := h.underWay.emitPending h.bounded e
    rcases hway.waiting id (h.queued e hid) with hpending | ⟨n, hn⟩
    · exact absurd hpending (by simp [hnone])
    · exact absurd hc ((Founded.congr hspecs).1 (hway.founded hn)).not_circular

end Assembler

end Ndr
