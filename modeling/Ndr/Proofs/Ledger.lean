import Mathlib.Data.List.Induction
import Ndr.Proofs.Field
import Ndr.Proofs.Packing

/-!
What becomes of the buffers that a transport supplies. A ledger of them is kept from the events at the
transport alone: an empty buffer that is supplied is entered, and a chunk that is handed over, or given
back, settles the oldest entry that is left. Whatever the transport does, every step of writing leaves
a ledger in which just the buffers are open whose chunks the writer still has.
-/

namespace Ndr

/-! ### Ledgers -/

namespace Sink

/-- A chunk fits into a buffer of this capacity. -/
def Fits (c : Chunk) (capacity : Nat) : Prop := c.size ≤ capacity

instance (c : Chunk) (capacity : Nat) : Decidable (Fits c capacity) := inferInstanceAs (Decidable (_ ≤ _))

/-- The open entries that are left after some chunks settled the oldest ones; `none` where a chunk
finds no entry, or one of a smaller buffer. -/
def settle : List Nat → List Chunk → Option (List Nat)
  | held, [] => some held
  | [], _ :: _ => none
  | capacity :: held, c :: chunks => if Fits c capacity then settle held chunks else none

/-- The open entries after an event. -/
def Event.enter (held : List Nat) : Event → Option (List Nat)
  | .supplied capacity => some (held ++ [capacity])
  | .suppliedUsed _ | .refused _ => some held
  | .transmitted chunks | .lost chunks | .released chunks => settle held chunks

/-- The capacities of the empty buffers that were supplied and not handed back, oldest first. -/
def ledger (log : List Event) : Option (List Nat) := log.foldlM Event.enter []

namespace Event

/-- The capacity of an empty buffer that was supplied. -/
def supplied? : Event → Option Nat
  | supplied capacity => some capacity
  | _ => none

/-- The chunks that were handed back in an event, as part of a vector or not. -/
def handed : Event → List Chunk
  | transmitted chunks | lost chunks | released chunks => chunks
  | _ => []

/-- The chunks are given back. -/
def IsRelease (e : Event) : Prop := ∃ chunks, e = released chunks

/-- Nothing went wrong: an empty buffer was supplied, or a vector of `v` chunks went through. -/
def Smooth (v : Nat) : Event → Prop
  | supplied _ => True
  | transmitted chunks => chunks.length = v
  | _ => False

/-- The transport failed, or did not do what it was asked for. -/
def Trouble : Event → Prop
  | suppliedUsed _ | refused _ | lost _ => True
  | _ => False

end Event

variable {log : List Event} {held closed : List Nat} {chunks : List Chunk}

theorem settle_of_fits (h : List.Forall₂ Fits chunks closed) (held : List Nat) :
    settle (closed ++ held) chunks = some held := by
  induction h with
  | nil => cases held <;> rfl
  | cons hc _ ih => simpa [settle, hc] using ih

theorem settle_eq_some (h : settle held chunks = some closed) :
    ∃ done, held = done ++ closed ∧ List.Forall₂ Fits chunks done := by
  induction chunks generalizing held with
  | nil =>
    cases held <;> exact ⟨[], Option.some.inj h, .nil⟩
  | cons c chunks ih =>
    cases held with
    | nil => exact absurd h (by simp [settle])
    | cons capacity held =>
      unfold settle at h
      split at h
      · rename_i hc
        obtain ⟨done, rfl, hdone⟩ := ih h
        exact ⟨capacity :: done, rfl, .cons hc hdone⟩
      · exact absurd h (by simp)

theorem ledger_concat (e : Event) (h : ledger log = some held) :
    ledger (log ++ [e]) = e.enter held := by
  unfold ledger at h ⊢
  rw [List.foldlM_append, h]
  simp

/-- **A ledger without gaps**: the chunks that were handed back are the first of the buffers that were
supplied, each in its turn, and the others are held. -/
theorem ledger_eq_some (h : ledger log = some held) :
    ∃ done, log.filterMap Event.supplied? = done ++ held ∧
      List.Forall₂ Fits (log.flatMap Event.handed) done := by
  induction log using List.reverseRecOn generalizing held with
  | nil =>
    obtain rfl : [] = held := Option.some.inj h
    exact ⟨[], rfl, .nil⟩
  | append_singleton log e ih =>
    obtain ⟨before, hbefore, he⟩ : ∃ before, ledger log = some before ∧ e.enter before = some held := by
      unfold ledger at h ⊢
      rw [List.foldlM_append] at h
      obtain ⟨before, hbefore, he⟩ := Option.bind_eq_some_iff.1 h
      exact ⟨before, hbefore, by simpa using he⟩
    obtain ⟨done, hsupplied, hdone⟩ := ih hbefore
    rw [List.filterMap_append, List.flatMap_append, hsupplied]
    have hsettle : ∀ chunks, e.handed = chunks → e.supplied? = none →
        settle before chunks = some held → ∃ all, done ++ before ++ [e].filterMap Event.supplied?
          = all ++ held ∧ List.Forall₂ Fits (log.flatMap Event.handed ++ [e].flatMap Event.handed) all := by
      intro chunks hhanded hnone hs
      obtain ⟨more, rfl, hmore⟩ := settle_eq_some hs
      refine ⟨done ++ more, by simp [hnone], List.rel_append hdone ?_⟩
      simpa [hhanded] using hmore
    cases e with
    | supplied capacity =>
      obtain rfl := Option.some.inj he
      exact ⟨done, by simp [Event.supplied?], by simpa [Event.handed] using hdone⟩
    | suppliedUsed capacity =>
      obtain rfl := Option.some.inj he
      exact ⟨done, by simp [Event.supplied?], by simpa [Event.handed] using hdone⟩
    | refused capacity =>
      obtain rfl := Option.some.inj he
      exact ⟨done, by simp [Event.supplied?], by simpa [Event.handed] using hdone⟩
    | transmitted chunks => exact hsettle chunks rfl rfl he
    | lost chunks => exact hsettle chunks rfl rfl he
    | released chunks => exact hsettle chunks rfl rfl he

end Sink

namespace Writer

open Sink (Fits ledger)

variable {start : Sink} {v : Nat} {log : List Sink.Event} {w : Writer}

/-! ### The books of a writer -/

/-- The capacity of the buffer being filled. -/
def openBuffer (w : Writer) : List Nat :=
  match w.current with
  | some c => [c.written.length + c.room]
  | none => []

/-- The events since `start` make a ledger in which just the buffers are open that the writer has. -/
structure Booked (start : Sink) (log : List Sink.Event) (w : Writer) : Prop where
  events : w.sink.events = log.reverse ++ start.events
  ledger : ∃ closed, ledger log = some (closed ++ w.openBuffer) ∧
    List.Forall₂ Fits w.vector.chunks closed

/-- The events are booked, and all of them went well. -/
def Smooth (start : Sink) (v : Nat) (w : Writer) : Prop :=
  ∃ log, w.Booked start log ∧ ∀ e ∈ log, e.Smooth v

/-- A writer in the middle of a message of which all went well, with vectors of `v` chunks. -/
structure Steady (start : Sink) (v : Nat) (w : Writer) : Prop where
  smooth : w.Smooth start v
  large : 8 ≤ w.bufferSize
  size : w.vectorSize = v
  waiting : w.vector.size < v

/-- The same between two steps of a message: the chunk being filled is not empty. -/
structure Calm (start : Sink) (v : Nat) (w : Writer) : Prop extends Steady start v w where
  begun : ∀ c, w.current = some c → c.written ≠ []

/-- A writer that may have met a transport that failed. -/
def Stopped (start : Sink) (v : Nat) (w : Writer) : Prop :=
  ∃ log trouble, w.Booked start (log ++ trouble) ∧ (∀ e ∈ log, e.Smooth v) ∧
    trouble.length ≤ 1 ∧ ∀ e ∈ trouble, e.Trouble

theorem Steady.stopped (h : w.Steady start v) : w.Stopped start v := by
  obtain ⟨log, hbooked, hlog⟩ := h.smooth
  exact ⟨log, [], by simpa using hbooked, hlog, by simp, by simp⟩

theorem calm_new {config : Config} (start : Sink) (hb : 8 ≤ config.bufferSize)
    (hv : 0 < config.vectorSize) : (Writer.new start config).Calm start config.vectorSize where
  smooth := ⟨[], ⟨rfl, [], rfl, .nil⟩, by simp⟩
  large := hb
  size := rfl
  waiting := hv
  begun := by simp [Writer.new]

theorem events_record {s : Sink} {e : Sink.Event} (h : s.events = log.reverse ++ start.events) :
    (s.record e).events = (log ++ [e]).reverse ++ start.events := by
  show e :: s.events = _
  simp [h]

theorem smooth_concat {e : Sink.Event} (hlog : ∀ e ∈ log, e.Smooth v) (he : e.Smooth v) :
    ∀ d ∈ log ++ [e], d.Smooth v := by
  intro d hd
  rcases List.mem_append.1 hd with hd | hd
  · exact hlog d hd
  · rwa [List.mem_singleton.1 hd]

/-! ### Chunks -/

/-- A writer without a chunk being filled, whose vector may be due. -/
structure Shelved (start : Sink) (v : Nat) (w : Writer) : Prop where
  smooth : w.Smooth start v
  large : 8 ≤ w.bufferSize
  size : w.vectorSize = v
  positive : 0 < v
  waiting : w.vector.size ≤ v
  current : w.current = none

theorem Calm.shelve (h : w.Calm start v) : w.shelve.Shelved start v := by
  obtain ⟨log, ⟨hevents, closed, hledger, hfits⟩, hlog⟩ := h.smooth
  have hpositive : 0 < v := Nat.zero_lt_of_lt h.waiting
  unfold Writer.shelve
  cases hc : w.current with
  | none =>
    exact ⟨⟨log, ⟨hevents, closed, hledger, hfits⟩, hlog⟩, h.large, h.size, hpositive,
      Nat.le_of_lt h.waiting, hc⟩
  | some c =>
    have hne : c.written.isEmpty = false := by simpa using h.begun c hc
    simp only [hne, Bool.false_eq_true, if_false]
    refine ⟨⟨log, ⟨hevents, closed ++ [c.written.length + c.room], ?_, ?_⟩, hlog⟩, h.large, h.size,
      hpositive, h.waiting, rfl⟩
    · simpa [openBuffer, hc] using hledger
    · rw [IoVector.chunks_push]
      refine List.rel_append hfits (.cons ?_ .nil)
      simp [Fits, OpenChunk.close]

/-- Where no chunk is being filled, the chunks that wait settle all that is open. -/
theorem Booked.settle (h : w.Booked start log) (hc : w.current = none) {e : Sink.Event}
    (he : ∀ held, e.enter held = Sink.settle held w.vector.chunks) :
    Sink.ledger (log ++ [e]) = some [] := by
  obtain ⟨-, closed, hledger, hfits⟩ := h
  rw [Sink.ledger_concat _ hledger, he, openBuffer, hc]
  exact Sink.settle_of_fits hfits []

/-- The chunks that wait are handed over, or lost, as a vector. -/
theorem Shelved.transmit (h : w.Shelved start v) (hdue : v ≤ w.vector.size) :
    Lands (fun _ w' => w'.Shelved start v ∧ w'.vector.size < v) (fun _ => Stopped start v)
      (Writer.transmit w) := by
  obtain ⟨log, hbooked, hlog⟩ := h.smooth
  have hcurrent := h.current
  -- no buffer is open behind the event
  have hdone : ∀ {e : Sink.Event}, (∀ held, e.enter held = Sink.settle held w.vector.chunks) →
      Booked start (log ++ [e]) { w with vector := {}, sink := w.sink.record e } := fun he =>
    ⟨events_record hbooked.events, [], by simpa [openBuffer, hcurrent] using hbooked.settle hcurrent he,
      .nil⟩
  unfold Writer.transmit
  dsimp only
  split
  · refine ⟨⟨⟨_, hdone fun _ => rfl, smooth_concat hlog ?_⟩, h.large, h.size, h.positive,
      Nat.zero_le _, hcurrent⟩, h.positive⟩
    exact (IoVector.length_chunks _).trans (Nat.le_antisymm h.waiting hdue)
  · exact ⟨log, _, hdone fun _ => rfl, hlog, by simp, by simp [Sink.Event.Trouble]⟩

/-- A buffer is supplied empty, or the step fails and no buffer is taken. -/
theorem Shelved.openChunk (h : w.Shelved start v) (hsize : w.vector.size < v) :
    Lands (fun _ w' => w'.Steady start v ∧ 0 < w'.room) (fun _ => Stopped start v)
      (Writer.openChunk w) := by
  obtain ⟨log, ⟨hevents, closed, hledger, hfits⟩, hlog⟩ := h.smooth
  have hcurrent := h.current
  have hlarge := h.large
  have htrouble : ∀ e : Sink.Event, e.Trouble → (∀ held, e.enter held = some held) →
      Stopped start v { w with sink := w.sink.record e } := by
    intro e he henter
    refine ⟨log, [e], ⟨events_record hevents, closed, ?_, hfits⟩, hlog, by simp, by simpa using he⟩
    rw [Sink.ledger_concat _ hledger, henter]
    rfl
  unfold Writer.openChunk
  dsimp only
  split
  · exact htrouble _ trivial fun _ => rfl
  · split
    · refine ⟨⟨⟨_, ⟨events_record hevents, closed, ?_, hfits⟩, smooth_concat hlog ?_⟩, hlarge,
        h.size, hsize⟩, ?_⟩
      · rw [Sink.ledger_concat _ hledger]
        simp [Sink.Event.enter, openBuffer, hcurrent]
      · trivial
      · show 0 < w.bufferSize - w.position % 8
        omega
    · exact htrouble _ trivial fun _ => rfl

theorem Calm.nextChunk (h : w.Calm start v) :
    Lands (fun _ w' => w'.Steady start v ∧ 0 < w'.room) (fun _ => Stopped start v)
      (Writer.nextChunk w) := by
  have hsize := h.shelve.size
  show Lands _ _ ((do
      if w.shelve.vectorSize ≤ w.shelve.vector.size then Writer.transmit
      Writer.openChunk : Put Unit) w.shelve)
  rw [hsize]
  split
  · rename_i hdue
    exact (h.shelve.transmit hdue).bind fun _ _ h => h.1.openChunk h.2
  · rename_i hdue
    exact h.shelve.openChunk (Nat.lt_of_not_le hdue)

/-! ### Bytes -/

theorem Calm.ensure (h : w.Calm start v) (n : Nat) :
    Lands (fun _ w' => w'.Steady start v ∧ n ≤ w'.room) (fun _ => Stopped start v)
      (Writer.ensure n w) := by
  show Lands _ _ ((if w.current.isNone ∨ w.room < n then do
      Writer.nextChunk
      let w ← get
      if w.room < n then throw (.bufferExhausted (.tooSmall n w.room))
    else pure () : Put Unit) w)
  split
  · refine h.nextChunk.bind fun _ x hx => ?_
    show Lands _ _ ((if x.room < n then throw _ else pure () : Put Unit) x)
    split
    · exact hx.1.stopped
    · rename_i hroom
      exact ⟨hx.1, Nat.le_of_not_lt hroom⟩
  · rename_i hroom
    exact ⟨h.toSteady, Nat.le_of_not_lt (not_or.1 hroom).2⟩

/-- Bytes go into the chunk being filled, which is not empty then. -/
theorem Steady.append (h : w.Steady start v) {bytes : List UInt8} (hne : bytes ≠ [])
    (hroom : bytes.length ≤ w.room) : (w.append bytes).Calm start v := by
  obtain ⟨log, ⟨hevents, closed, hledger, hfits⟩, hlog⟩ := h.smooth
  have hpos := List.length_pos_iff.2 hne
  unfold room at hroom
  cases hc : w.current with
  | none =>
    simp only [hc] at hroom
    omega
  | some c =>
    simp only [hc] at hroom
    have hopen : (w.append bytes).openBuffer = w.openBuffer := by
      simp only [openBuffer, Writer.append, hc, Option.map_some, List.reverseAux_eq,
        List.length_append, List.length_reverse, List.cons.injEq, and_true]
      omega
    refine ⟨⟨⟨log, ⟨hevents, closed, hopen ▸ hledger, hfits⟩, hlog⟩, h.large, h.size, h.waiting⟩, ?_⟩
    simp only [Writer.append, hc, Option.map_some, Option.some.injEq, forall_eq',
      List.reverseAux_eq]
    exact List.append_ne_nil_of_left_ne_nil (by simpa using hne) _

/-- A step that keeps the books, whether it succeeds or fails. -/
def Accounts {α : Type} (start : Sink) (v : Nat) (x : Put α) : Prop :=
  ∀ w : Writer, w.Calm start v → Lands (fun _ w' => w'.Calm start v) (fun _ => Stopped start v)
      (x w)

namespace Accounts

variable {α β : Type}

theorem pure (a : α) : Accounts start v (pure a) := fun _ h => h

theorem throw (e : Fault) : Accounts start v (throw e : Put α) := fun _ h => h.stopped

theorem lift (x : Except Fault α) : Accounts start v (liftM x : Put α) := by
  cases x with
  | ok a => exact pure a
  | error e => exact throw e

theorem bind {x : Put α} {f : α → Put β} (hx : Accounts start v x)
    (hf : ∀ a, Accounts start v (f a)) : Accounts start v (x >>= f) :=
  fun w h => (hx w h).bind fun a t => hf a t

end Accounts

/-! ### Steps of writing -/

theorem accounts_putTogether {bytes : List UInt8} (hne : bytes ≠ []) :
    Accounts start v (putTogether bytes) := fun _ h =>
  (h.ensure bytes.length).bind fun _ _ h => h.1.append hne h.2

theorem accounts_align (n : Nat) : Accounts start v (align n) := by
  intro w h
  show Lands _ _ ((if padding w.position n ≠ 0 then
    putTogether (List.replicate (padding w.position n) 0) else pure () : Put Unit) w)
  split
  · rename_i hp
    exact accounts_putTogether (by simpa using hp) w h
  · exact h

theorem accounts_putWord (order : ByteOrder) {width : Nat} (hw : 0 < width) (n : Nat) :
    Accounts start v (putWord order width n) :=
  accounts_putTogether (List.ne_nil_of_length_pos (by rwa [ByteOrder.length_encode]))

theorem accounts_putAligned (order : ByteOrder) {width : Nat} (hw : 0 < width) (n : Nat) :
    Accounts start v (putAligned order width n) :=
  (accounts_align width).bind fun _ => accounts_putWord order hw n

theorem accounts_putScalar (r : Representation) (kind : Scalar) (value : Value) :
    Accounts start v (putScalar r kind value) := by
  refine (accounts_align _).bind fun _ => ?_
  cases kind.word? value with
  | none => exact .throw _
  | some word =>
    exact .bind (.lift _) fun _ => .bind (.lift _) fun _ => accounts_putWord _ kind.size_pos word

theorem accounts_putRun (bytes : List UInt8) : Accounts start v (putRun bytes) := by
  have hfrom : ∀ fuel bytes, Accounts start v (putRunFrom fuel bytes) := by
    intro fuel
    induction fuel with
    | zero =>
      intro bytes
      cases bytes <;> exact .pure ()
    | succ fuel ih =>
      intro bytes w h
      cases bytes with
      | nil => exact h
      | cons b bs =>
        -- behind the first check there is room for a byte at least
        have hrest : ∀ x : Writer, x.Steady start v → 0 < x.room →
            Lands (fun _ w' => w'.Calm start v) (fun _ => Stopped start v) ((do
              let room := (← get).room
              modify (·.append ((b :: bs).take room))
              putRunFrom fuel ((b :: bs).drop room) : Put Unit) x) := by
          intro x hx hroom
          have hne : (b :: bs).take x.room ≠ [] := by
            simp only [ne_eq, List.take_eq_nil_iff, reduceCtorEq, or_false]
            omega
          exact ih _ _ (hx.append hne (List.length_take_le _ _))
        show Lands _ _ ((if w.room = 0 then do
            Writer.nextChunk
            let room := (← get).room
            modify (·.append ((b :: bs).take room))
            putRunFrom fuel ((b :: bs).drop room)
          else do
            let room := (← get).room
            modify (·.append ((b :: bs).take room))
            putRunFrom fuel ((b :: bs).drop room) : Put Unit) w)
        split
        · exact h.nextChunk.bind fun _ x hx => hrest x hx.1 hx.2
        · rename_i hroom
          exact hrest w h.toSteady (Nat.pos_of_ne_zero hroom)
  exact hfrom _ bytes

theorem accounts_perform (r : Representation) (step : Step) : Accounts start v (step.perform r) := by
  cases step with
  | align n => exact accounts_align n
  | scalar kind value => exact accounts_putScalar r kind value
  | count n => exact accounts_putAligned _ (by decide) n
  | shortCount n => exact accounts_putAligned _ (by decide) n
  | run bytes => exact accounts_putRun bytes
  | token u =>
    exact (accounts_putAligned _ (by decide) _).bind fun _ =>
      (accounts_putAligned _ (by decide) _).bind fun _ =>
        (accounts_putWord _ (by decide) _).bind fun _ =>
          (accounts_putWord _ (by decide) _).bind fun _ => accounts_putRun _

/-! ### The end of a message -/

/-- The chunks that a writer has, the one being filled included. -/
def pending (w : Writer) : List Chunk :=
  w.vector.chunks ++ match w.current with
    | some c => [c.close]
    | none => []

/-- A writer that is abandoned gives back all its chunks. -/
theorem sink_abandon (w : Writer) : w.abandon.sink =
    if w.pending.isEmpty then w.sink else w.sink.record (.released w.pending) := rfl

/-- How the buffers of a message that ended in `r` are accounted for, with vectors of `v` chunks. -/
structure Settled {α : Type} (v : Nat) (r : Except Fault α) (log : List Sink.Event) : Prop where
  /-- Every buffer that was supplied empty is handed back after that, in one event. -/
  ledger : ledger log = some []
  /-- It is handed back once: the chunks of all events are, in turn, the buffers. -/
  handed : List.Forall₂ Fits (log.flatMap Sink.Event.handed) (log.filterMap Sink.Event.supplied?)
  /-- Chunks are given back at the end, if at all. -/
  once : ∀ e ∈ log.dropLast, ¬e.IsRelease
  /-- Of a message that went through, nothing is given back or lost. -/
  success : ∀ a, r = .ok a → ∀ e ∈ log, ¬e.IsRelease ∧ ¬e.Trouble
  /-- All vectors that went through were full, but for the last of a message that did. -/
  vectors : ∀ cs ∈ (log.filterMap Sink.Event.vector?).dropLast, cs.length = v
  last : ∀ cs ∈ (log.filterMap Sink.Event.vector?).getLast?, 0 < cs.length ∧ cs.length ≤ v
  failure : ∀ e, r = .error e → ∀ cs ∈ log.filterMap Sink.Event.vector?, cs.length = v

/-- The vectors among events that went well. -/
theorem vectors_of_smooth (hlog : ∀ e ∈ log, e.Smooth v) :
    ∀ cs ∈ log.filterMap Sink.Event.vector?, cs.length = v := by
  intro cs hcs
  obtain ⟨e, he, hvector⟩ := List.mem_filterMap.1 hcs
  cases e with
  | transmitted chunks =>
    obtain rfl := Option.some.inj hvector
    exact hlog _ he
  | _ => exact absurd hvector (by simp [Sink.Event.vector?])

theorem not_isRelease_of_smooth {e : Sink.Event} (h : e.Smooth v) : ¬e.IsRelease ∧ ¬e.Trouble := by
  cases e <;> simp_all [Sink.Event.Smooth, Sink.Event.IsRelease, Sink.Event.Trouble]

theorem not_isRelease_of_trouble {e : Sink.Event} (h : e.Trouble) :
    ¬e.IsRelease ∧ e.vector? = none := by
  cases e <;> simp_all [Sink.Event.IsRelease, Sink.Event.Trouble, Sink.Event.vector?]

theorem handed_of_ledger (h : Sink.ledger log = some []) :
    List.Forall₂ Fits (log.flatMap Sink.Event.handed) (log.filterMap Sink.Event.supplied?) := by
  obtain ⟨done, hdone, hfits⟩ := Sink.ledger_eq_some h
  rwa [hdone, List.append_nil]

/-- Events that went well, and a last vector behind them. -/
theorem settled_ok {α : Type} (a : α) (log last : List Sink.Event)
    (hledger : ledger (log ++ last) = some []) (hv : 0 < v) (hlog : ∀ e ∈ log, e.Smooth v)
    (hone : last.length ≤ 1)
    (hlast : ∀ e ∈ last, ∃ cs, e = .transmitted cs ∧ 0 < cs.length ∧ cs.length ≤ v) :
    Settled v (.ok a : Except Fault α) (log ++ last) := by
  have hquiet : ∀ e ∈ log ++ last, ¬e.IsRelease ∧ ¬e.Trouble := by
    intro e he
    rcases List.mem_append.1 he with he | he
    · exact not_isRelease_of_smooth (hlog e he)
    · obtain ⟨cs, rfl, -⟩ := hlast e he
      simp [Sink.Event.IsRelease, Sink.Event.Trouble]
  have hvectors := vectors_of_smooth hlog
  have hfew : (last.filterMap Sink.Event.vector?).length ≤ 1 :=
    Nat.le_trans (List.length_filterMap_le _ _) hone
  refine ⟨hledger, handed_of_ledger hledger, fun e he => (hquiet e (List.dropLast_subset _ he)).1,
    fun _ _ => hquiet, fun cs hcs => ?_, fun cs hcs => ?_, by simp⟩
  · rw [List.filterMap_append] at hcs
    exact hvectors cs (mem_of_mem_dropLast_append hfew hcs)
  · rw [List.filterMap_append] at hcs
    rcases List.mem_append.1 (List.mem_of_mem_getLast? hcs) with hcs | hcs
    · rw [hvectors cs hcs]
      exact ⟨hv, Nat.le_refl _⟩
    · obtain ⟨e, he, hvector⟩ := List.mem_filterMap.1 hcs
      obtain ⟨chunks, rfl, hlength⟩ := hlast e he
      obtain rfl := Option.some.inj hvector
      exact hlength

/-- Events that went well, a fault of the transport behind them, and what is given back after it. -/
theorem settled_error {α : Type} (e : Fault) (log trouble given : List Sink.Event)
    (hledger : ledger (log ++ trouble ++ given) = some []) (hv : 0 < v)
    (hlog : ∀ e ∈ log, e.Smooth v) (htrouble : ∀ e ∈ trouble, e.Trouble)
    (hone : given.length ≤ 1) (hgiven : ∀ e ∈ given, e.IsRelease) :
    Settled v (.error e : Except Fault α) (log ++ trouble ++ given) := by
  have hvectors : ∀ cs ∈ (log ++ trouble ++ given).filterMap Sink.Event.vector?, cs.length = v := by
    have h1 : trouble.filterMap Sink.Event.vector? = [] :=
      List.filterMap_eq_nil_iff.2 fun e he => (not_isRelease_of_trouble (htrouble e he)).2
    have h2 : given.filterMap Sink.Event.vector? = [] :=
      List.filterMap_eq_nil_iff.2 fun e he => by
        obtain ⟨chunks, rfl⟩ := hgiven e he
        rfl
    rw [List.filterMap_append, List.filterMap_append, h1, h2, List.append_nil, List.append_nil]
    exact vectors_of_smooth hlog
  refine ⟨hledger, handed_of_ledger hledger, fun e he => ?_, by simp,
    fun cs hcs => hvectors cs (List.dropLast_subset _ hcs), fun cs hcs => ?_, fun _ _ => hvectors⟩
  · rcases List.mem_append.1 (mem_of_mem_dropLast_append hone he) with he | he
    · exact (not_isRelease_of_smooth (hlog e he)).1
    · exact (not_isRelease_of_trouble (htrouble e he)).1
  · rw [hvectors cs (List.mem_of_mem_getLast? hcs)]
    exact ⟨hv, Nat.le_refl _⟩

/-- A writer that stopped gives back all that it has, and that settles its books. -/
theorem Stopped.abandon (h : w.Stopped start v) (hv : 0 < v) :
    ∃ log, w.abandon.sink.events = log.reverse ++ start.events ∧
      ∀ e : Fault, Settled v (.error e : Except Fault Nat) log := by
  obtain ⟨log, trouble, ⟨hevents, closed, hledger, hfits⟩, hlog, -, htrouble⟩ := h
  have hpending : List.Forall₂ Fits w.pending (closed ++ w.openBuffer) := by
    refine List.rel_append hfits ?_
    unfold openBuffer
    cases w.current with
    | none => exact .nil
    | some c => exact .cons (by simp [Fits, OpenChunk.close]) .nil
  rw [sink_abandon]
  split
  · rename_i hnil
    rw [List.isEmpty_iff.1 hnil] at hpending
    rw [List.forall₂_nil_left_iff.1 hpending] at hledger
    refine ⟨log ++ trouble, hevents, fun e => ?_⟩
    have := settled_error (α := Nat) e log trouble [] (by simpa using hledger) hv hlog htrouble
      (by simp) (by simp)
    simpa using this
  · refine ⟨log ++ trouble ++ [.released w.pending], events_record hevents, fun e => ?_⟩
    refine settled_error e log trouble _ ?_ hv hlog htrouble (by simp) (by simp [Sink.Event.IsRelease])
    rw [Sink.ledger_concat _ hledger]
    have := Sink.settle_of_fits hpending []
    rwa [List.append_nil] at this

/-- A message that was written hands over what waits, and that settles its books. -/
theorem Calm.finish (h : w.Calm start v) :
    Lands (fun n w' => ∃ log, w'.sink.events = log.reverse ++ start.events ∧
        Settled v (.ok n : Except Fault Nat) log)
      (fun e w' => ∃ log, w'.sink.events = log.reverse ++ start.events ∧
        Settled v (.error e : Except Fault Nat) log) (Writer.finish w) := by
  have hs := h.shelve
  obtain ⟨log, hbooked, hlog⟩ := hs.smooth
  have hcurrent := hs.current
  have hwaiting := hs.waiting
  show Lands _ _ ((if w.shelve.vector.size ≠ 0 then do
      Writer.transmit
      return (← get).position else do return (← get).position : Put Nat) w.shelve)
  split
  · rename_i hne
    refine Lands.bind (P := fun _ w' => ∃ log, w'.sink.events = log.reverse ++ start.events ∧
      ∀ n : Nat, Settled v (.ok n : Except Fault Nat) log) ?_ fun _ x ⟨log, hevents, hsettled⟩ =>
        ⟨log, hevents, hsettled _⟩
    unfold Writer.transmit
    dsimp only
    split
    · refine ⟨_, events_record hbooked.events, fun n => settled_ok n log _
        (hbooked.settle hcurrent fun _ => rfl) hs.positive hlog (by simp) ?_⟩
      simp only [List.mem_singleton, forall_eq, Sink.Event.transmitted.injEq, exists_eq_left',
        IoVector.length_chunks]
      omega
    · rename_i e _
      refine ⟨_, events_record hbooked.events, ?_⟩
      have := settled_error (α := Nat) e log [.lost w.shelve.vector.chunks] []
        (by simpa using hbooked.settle hcurrent fun _ => rfl) hs.positive hlog
        (by simp [Sink.Event.Trouble]) (by simp) (by simp)
      simpa using this
  · rename_i hz
    refine ⟨log, hbooked.events, ?_⟩
    obtain ⟨-, closed, hledger, hfits⟩ := hbooked
    have hnil : w.shelve.vector.chunks = [] :=
      List.length_eq_zero_iff.1 ((IoVector.length_chunks _).trans (Decidable.not_not.1 hz))
    rw [hnil] at hfits
    rw [List.forall₂_nil_left_iff.1 hfits, openBuffer, hcurrent] at hledger
    have := settled_ok w.shelve.position log [] (by simpa using hledger) hs.positive hlog (by simp)
      (by simp)
    simpa using this

end Writer

end Ndr
