import Ndr.Proofs.Chunking
import Ndr.Proofs.Ledger
import Ndr.Proofs.Lockstep.Operation
import Ndr.Proofs.Marshal.Plan
import Ndr.Wire.Script

/-!
What a transport took of a message. A run at any transport goes as at one that never fails, up to the
call at which the transport fails; what went through until then is a prefix of the message, in full
vectors, and every buffer is accounted for however the run ends.
-/

namespace Ndr

/-! ### Writers -/

/-- The bytes of a message, as a transport took them or got them back. -/
def Sink.written (s : Sink) : List UInt8 := s.message ++ s.released.flatMap Array.toList

namespace Writer

variable {start : Sink} {w x w' : Writer} {u : Unit}

/-- A transport that never fails, to which nothing was given back. -/
structure Clean (s : Sink) : Prop where
  obliging : s.Obliging
  released : s.released = []

/-- The same bytes were written to a transport that was `start` and to one that never fails. -/
structure Matched (start : Sink) (w x : Writer) : Prop where
  same : x = { w with sink := x.sink }
  clean : Clean x.sink
  message : w.sink.message = start.message ++ x.sink.message

/-- What went through until a transport failed is a prefix of what is written to another. -/
structure Behind (start : Sink) (w x : Writer) : Prop where
  clean : Clean x.sink
  sent : ∃ sent, w.sink.message = start.message ++ sent ∧ sent <+: x.output

theorem Clean.record {s : Sink} {e : Sink.Event} (h : Clean s) (he : e.givenBack = []) :
    Clean (s.record e) :=
  ⟨⟨h.obliging.supply, h.obliging.deliver⟩, by rw [Sink.released_record, h.released, he]; rfl⟩

theorem Behind.of_wrote {bytes : List UInt8} (h : Behind start w x) (hc : Clean w'.sink)
    (hw : Wrote x w' bytes) : Behind start w w' := by
  obtain ⟨sent, hsent, hprefix⟩ := h.sent
  exact ⟨hc, sent, hsent, hw.output ▸ hprefix.trans (List.prefix_append _ _)⟩

/-! ### Chunks -/

theorem Clean.shelve (h : Clean w.sink) : Clean w.shelve.sink := by rwa [sink_shelve]

/-- At a transport that never fails the next chunk is always found. -/
theorem Clean.nextChunk (h : Clean w.sink) :
    ∃ w', Writer.nextChunk w = .ok () w' ∧ Clean w'.sink := by
  have hopen : ∀ x : Writer, Clean x.sink → ∃ w', Writer.openChunk x = .ok () w' ∧ Clean w'.sink := by
    intro x hx
    unfold Writer.openChunk
    simp only [hx.obliging.supply]
    exact ⟨_, rfl, hx.record rfl⟩
  have hs := h.shelve
  show ∃ w', ((do
      if w.shelve.vectorSize ≤ w.shelve.vector.size then Writer.transmit
      Writer.openChunk : Put Unit) w.shelve) = .ok () w' ∧ _
  split
  · have htransmit : ∃ x, Writer.transmit w.shelve = .ok () x ∧ Clean x.sink := by
      unfold Writer.transmit
      simp only [hs.obliging.deliver]
      exact ⟨_, rfl, hs.record rfl⟩
    obtain ⟨x, hx, hclean⟩ := htransmit
    obtain ⟨w', hw', hclean'⟩ := hopen x hclean
    exact ⟨w', bind_eq_ok.2 ⟨_, _, hx, hw'⟩, hclean'⟩
  · exact hopen _ hs

/-- Where the next chunk is not found, what went through is a part of what was written. -/
theorem error_nextChunk {e : Fault} (h : Writer.nextChunk w = .error e w') :
    ∃ sent, w'.sink.message = w.sink.message ++ sent ∧ sent <+: w.waiting := by
  have hopen : ∀ {y : Writer}, Writer.openChunk y = .error e w' → w'.sink.message = y.sink.message := by
    intro y hy
    unfold Writer.openChunk at hy
    dsimp only at hy
    split at hy
    · cases hy
      exact message_record rfl
    · split at hy
      · exact absurd hy (by simp)
      · cases hy
        exact message_record rfl
  obtain ⟨hs, hn⟩ := wrote_shelve (w := w)
  have hsink := sink_shelve w
  have hwaiting : w.shelve.vector.chunks.flatMap Array.toList = w.waiting := by
    have := hs.output
    rw [output, output, hsink, List.append_nil] at this
    simpa [waiting, hn] using List.append_cancel_left this
  have h : ((do
      if w.shelve.vectorSize ≤ w.shelve.vector.size then Writer.transmit
      Writer.openChunk : Put Unit) w.shelve) = .error e w' := h
  split at h
  · cases ht : Writer.transmit w.shelve with
    | error e' y =>
      obtain ⟨-, rfl⟩ := EStateM.Result.error.inj ((bind_of_error ht _).symm.trans h)
      unfold Writer.transmit at ht
      dsimp only at ht
      split at ht
      · exact absurd ht (by simp)
      · cases ht
        exact ⟨[], by rw [← hsink]; simpa using message_record rfl, List.nil_prefix⟩
    | ok a y =>
      have hy := hopen ((bind_of_ok ht _).symm.trans h)
      have hw := (wrote_transmit ht).1.output
      obtain ⟨-, hcur, hvec⟩ := wrote_transmit ht
      refine ⟨w.waiting, ?_, List.prefix_rfl⟩
      rw [hy, ← hwaiting, ← hsink]
      simpa [output, waiting, hcur, hn, hvec, IoVector.chunks] using hw
  · exact ⟨[], by rw [hopen h, hsink, List.append_nil], List.nil_prefix⟩

theorem Matched.waiting (h : Matched start w x) : x.waiting = w.waiting := by
  rw [h.same]
  rfl

theorem Matched.shelve (h : Matched start w x) : Matched start w.shelve x.shelve := by
  refine ⟨?_, h.clean.shelve, by rw [sink_shelve, sink_shelve]; exact h.message⟩
  rw [sink_shelve, h.same]
  obtain ⟨sink, b, v, current, vector, position⟩ := w
  cases current <;> rfl

theorem Matched.transmit (h : Matched start w x) (hw : Writer.transmit w = .ok u w') :
    ∃ x', Writer.transmit x = .ok () x' ∧ Matched start w' x' := by
  unfold Writer.transmit at hw ⊢
  dsimp only at hw ⊢
  split at hw
  · cases hw
    rw [h.clean.obliging.deliver]
    refine ⟨_, rfl, ?_, h.clean.record rfl, ?_⟩
    · rw [h.same]
    · simp only [message_record_transmitted, h.message, List.append_assoc]
      rw [h.same]
  · exact absurd hw (by simp)

theorem Matched.openChunk (h : Matched start w x) (hw : Writer.openChunk w = .ok u w') :
    ∃ x', Writer.openChunk x = .ok () x' ∧ Matched start w' x' := by
  unfold Writer.openChunk at hw ⊢
  dsimp only at hw ⊢
  split at hw
  · exact absurd hw (by simp)
  · split at hw
    · cases hw
      rw [h.clean.obliging.supply]
      have hmessage : ∀ (s : Sink) n, (s.record (.supplied n)).message = s.message :=
        fun _ _ => message_record rfl
      refine ⟨_, rfl, ?_, h.clean.record rfl, ?_⟩
      · rw [h.same]
      · simpa only [hmessage] using h.message
    · exact absurd hw (by simp)

theorem Matched.nextChunk (h : Matched start w x) (hw : Writer.nextChunk w = .ok u w') :
    ∃ x', Writer.nextChunk x = .ok () x' ∧ Matched start w' x' := by
  have hs := h.shelve
  have hw : ((do
      if w.shelve.vectorSize ≤ w.shelve.vector.size then Writer.transmit
      Writer.openChunk : Put Unit) w.shelve) = .ok u w' := hw
  show ∃ x', ((do
      if x.shelve.vectorSize ≤ x.shelve.vector.size then Writer.transmit
      Writer.openChunk : Put Unit) x.shelve) = .ok () x' ∧ _
  have hvector : x.shelve.vectorSize = w.shelve.vectorSize ∧ x.shelve.vector = w.shelve.vector := by
    rw [hs.same]
    exact ⟨rfl, rfl⟩
  rw [hvector.1, hvector.2]
  split at hw
  · rename_i hdue
    rw [if_pos hdue]
    obtain ⟨_, y, hy, hw⟩ := bind_eq_ok.1 hw
    obtain ⟨z, hz, hm⟩ := hs.transmit hy
    obtain ⟨x', hx', hm'⟩ := hm.openChunk hw
    exact ⟨x', bind_eq_ok.2 ⟨_, _, hz, hx'⟩, hm'⟩
  · rename_i hdue
    rw [if_neg hdue]
    exact hs.openChunk hw

/-! ### Steps -/

/-- A step of writing at any transport, beside the same step at one that never fails. -/
abbrev Shadowed {α : Type} (start : Sink) (x : Put α) : Prop :=
  Shadowing (Matched start) (fun _ => Behind start) x

theorem shadowed_nextChunk : Shadowed start Writer.nextChunk where
  step w x h := by
    obtain ⟨x', hx', hclean⟩ := Clean.nextChunk h.clean
    cases hw : Writer.nextChunk w with
    | ok u w' =>
      obtain ⟨x', hx', hm⟩ := h.nextChunk hw
      rw [hx']
      exact .inl (.ok hm)
    | error e w' =>
      obtain ⟨sent, hsent, hprefix⟩ := error_nextChunk hw
      refine .inr ⟨e, w', rfl, ?_⟩
      rw [hx']
      refine ⟨⟨hclean, x.sink.message ++ sent, ?_, ?_⟩, trivial⟩
      · rw [hsent, h.message, List.append_assoc]
      · rw [(wrote_nextChunk hx').1.output, List.append_nil, output, h.waiting]
        exact (List.prefix_append_right_inj _).2 hprefix
  onward _ w x h := by
    obtain ⟨x', hx', hclean⟩ := Clean.nextChunk h.clean
    rw [hx']
    exact ⟨h.of_wrote hclean (wrote_nextChunk hx').1, trivial⟩

theorem shadowed_append (bytes : List UInt8) :
    Shadowed start (modify (·.append bytes) : Put Unit) := by
  refine .modify (fun w x h => ⟨?_, h.clean, h.message⟩) fun _ w x h => ?_
  · rw [h.same]
    rfl
  · cases hc : x.current with
    | none =>
      obtain ⟨sent, hsent, hprefix⟩ := h.sent
      refine ⟨h.clean, sent, hsent, ?_⟩
      simpa [output, Writer.waiting, append, hc] using hprefix
    | some c => exact h.of_wrote h.clean (wrote_append (by rw [hc]; rfl) bytes)

theorem Matched.room (h : Matched start w x) : x.room = w.room := by
  rw [h.same]
  rfl

theorem Matched.position (h : Matched start w x) : x.position = w.position := by
  rw [h.same]

theorem shadowed_ensure (n : Nat) : Shadowed start (Writer.ensure n) := by
  refine .see (fun w x h => by rw [h.same]; rfl) fun w => .ite ?_ (.pure _)
  refine shadowed_nextChunk.bind fun _ => .see (fun w x h => by rw [h.room]) fun w => ?_
  exact .ite (.throw _) (.pure _)

theorem shadowed_putTogether (bytes : List UInt8) : Shadowed start (putTogether bytes) :=
  (shadowed_ensure _).bind fun _ => shadowed_append bytes

theorem shadowed_align (n : Nat) : Shadowed start (align n) :=
  .see (fun w x h => by rw [h.position]) fun _ => .ite (shadowed_putTogether _) (.pure _)

theorem shadowed_putAligned (order : ByteOrder) (width n : Nat) :
    Shadowed start (putAligned order width n) :=
  (shadowed_align width).bind fun _ => shadowed_putTogether _

theorem shadowed_putRun (bytes : List UInt8) : Shadowed start (putRun bytes) := by
  have hfrom : ∀ fuel bytes, Shadowed start (putRunFrom fuel bytes) := by
    intro fuel
    induction fuel with
    | zero =>
      intro bytes
      cases bytes <;> exact .pure ()
    | succ fuel ih =>
      intro bytes
      cases bytes with
      | nil => exact .pure ()
      | cons b bs =>
        have hrest : Shadowed start (do
            let room := (← get).room
            modify (·.append ((b :: bs).take room))
            putRunFrom fuel ((b :: bs).drop room) : Put Unit) :=
          .see (fun w x h => by rw [h.room]) fun w => (shadowed_append _).bind fun _ => ih _
        exact .see (fun w x h => by rw [h.room]) fun w =>
          .ite (shadowed_nextChunk.bind fun _ => hrest) hrest
  exact hfrom _ bytes

theorem shadowed_perform (r : Representation) (step : Step) : Shadowed start (step.perform r) := by
  cases step with
  | align n => exact shadowed_align n
  | scalar kind v =>
    refine (shadowed_align _).bind fun _ => ?_
    cases kind.word? v with
    | none => exact .throw _
    | some word => exact .bind (.lift _) fun _ => .bind (.lift _) fun _ => shadowed_putTogether _
  | count n => exact shadowed_putAligned _ _ n
  | shortCount n => exact shadowed_putAligned _ _ n
  | run bytes => exact shadowed_putRun bytes
  | token u =>
    exact (shadowed_putAligned _ _ _).bind fun _ => (shadowed_putAligned _ _ _).bind fun _ =>
      (shadowed_putTogether _).bind fun _ => (shadowed_putTogether _).bind fun _ => shadowed_putRun _

/-! ### The end of a message -/

theorem flatMap_pending (w : Writer) : w.pending.flatMap Array.toList = w.waiting := by
  rw [pending, Writer.waiting, List.flatMap_append]
  cases w.current <;> simp [OpenChunk.close]

/-- What is given back to a transport that never fails is the part of the message that it did not
take. -/
theorem Clean.abandon (h : Clean w.sink) : w.abandon.sink.written = w.output := by
  rw [sink_abandon, output, ← flatMap_pending]
  split
  · rename_i hnil
    rw [List.isEmpty_iff.1 hnil, Sink.written, h.released]
  · have hrelease : (w.sink.record (.released w.pending)).message = w.sink.message :=
      message_record (by rfl)
    rw [Sink.written, hrelease, Sink.released_record, h.released]
    rfl

/-- Abandoning a message sends nothing. -/
theorem message_abandon (w : Writer) : w.abandon.sink.message = w.sink.message := by
  rw [sink_abandon]
  split
  · rfl
  · exact message_record (by rfl)

/-- A transport that never fails takes a whole message. -/
theorem Clean.finish (h : Clean w.sink) :
    ∃ w', Writer.finish w = .ok w.position w' ∧ w'.sink.written = w.output := by
  have hs := h.shelve
  have hfinish : ∃ n w', Writer.finish w = .ok n w' ∧ Clean w'.sink := by
    show ∃ n w', (if w.shelve.vector.size ≠ 0 then do
      Writer.transmit
      return (← get).position else do return (← get).position : Put Nat) w.shelve = .ok n w' ∧ _
    split
    · unfold Writer.transmit
      have hdeliver := hs.obliging.deliver w.shelve.sink.history w.shelve.vector.chunks
      refine ⟨_, _, bind_of_ok (by simp only [hdeliver]; rfl) _, hs.record rfl⟩
    · exact ⟨_, _, rfl, hs⟩
  obtain ⟨n, w', hw', hclean⟩ := hfinish
  obtain ⟨rfl, hmessage⟩ := finish_eq_ok hw'
  exact ⟨w', hw', by simp [Sink.written, hclean.released, hmessage]⟩

/-- Where the last vector is lost, nothing more went through. -/
theorem error_finish {e : Fault} (h : Writer.finish w = .error e w') :
    w'.sink.message = w.sink.message := by
  have hsink := sink_shelve w
  have h : (if w.shelve.vector.size ≠ 0 then do
      Writer.transmit
      return (← get).position else do return (← get).position : Put Nat) w.shelve = .error e w' := h
  split at h
  · cases ht : Writer.transmit w.shelve with
    | ok a y =>
      have h : EStateM.Result.ok y.position y = .error e w' := (bind_of_ok ht _).symm.trans h
      exact absurd h (by simp)
    | error e' y =>
      obtain ⟨-, rfl⟩ := EStateM.Result.error.inj ((bind_of_error ht _).symm.trans h)
      unfold Writer.transmit at ht
      dsimp only at ht
      split at ht
      · exact absurd ht (by simp)
      · cases ht
        rw [← hsink]
        exact message_record rfl
  · have h : EStateM.Result.ok w.shelve.position w.shelve = .error e w' := h
    exact absurd h (by simp)

end Writer

/-! ### Whole messages -/

namespace Marshal

variable {start : Sink} {v : Nat} {α : Type}

/-- The same message at two transports, of which the second never fails. -/
def Matched (start : Sink) (s t : State) : Prop :=
  s.writer.Matched start t.writer ∧ t = { s with writer := t.writer }

/-- What one transport took until it failed, beside what another has. -/
def Behind (start : Sink) (s t : State) : Prop := s.writer.Behind start t.writer

/-- An action that is followed in the chunks of any transport. -/
theorem shadowing_put {x : Put Unit} (h : Writer.Shadowed start x) :
    Shadowing (Matched start) (fun _ => Behind start) (put x) where
  step s t := by
    rintro ⟨hw, ht⟩
    unfold put onPart
    rcases h.step _ _ hw with hends | ⟨e, w, hx, hends⟩
    · generalize x s.writer = r, x t.writer = r' at hends
      cases hends with
      | ok hw' => exact .inl (.ok ⟨hw', by rw [ht]⟩)
      | error hw' => exact .inl (.error ⟨hw', by rw [ht]⟩)
    · rw [hx]
      refine .inr ⟨e, _, rfl, ?_⟩
      generalize x t.writer = r' at hends
      cases r' with
      | ok a w' => exact hends
      | error e w' => exact hends
  onward e s t ht := by
    have hends := h.onward e s.writer t.writer ht
    unfold put onPart
    generalize x t.writer = r at hends
    cases r with
    | ok a w' => exact hends
    | error e w' => exact hends

theorem shadowing_aside {x : Marshalling α} (h : Aside x) :
    Shadowing (Matched start) (fun _ => Behind start) x where
  step s t := by
    rintro ⟨hw, ht⟩
    have hends : EndsAlike (Matched start) (withWriter s.writer (x s)) (withWriter t.writer (x s)) := by
      cases x s with
      | ok a u => exact .ok ⟨hw, rfl⟩
      | error e u => exact .error ⟨hw, rfl⟩
    rw [← h.ends, ← h, ← ht] at hends
    exact .inl hends
  onward e s t ht := by
    rw [h.ends t]
    cases x t with
    | ok a u => exact ⟨ht, trivial⟩
    | error e u => exact ht

namespace Plan

/-- A plan is followed at any transport as far as that does not fail. -/
theorem shadowing_run (r : Representation) (p : Plan α) :
    Shadowing (Matched start) (fun _ => Behind start) (p.run r) := by
  induction p with
  | write step => exact shadowing_put (Writer.shadowed_perform r step)
  | aside x h => exact shadowing_aside h
  | bind x f ihx ihf => exact ihx.bind ihf
  | recorded x c ih =>
    exact ih.tryFinally_modify (fun s t h => ⟨h.1, by rw [h.2]⟩) (fun _ _ _ h => h) fun _ _ _ h => h

/-- A plan keeps the books of the writer. -/
theorem accounts_run (r : Representation) (p : Plan α) (s : State)
    (hs : s.writer.Calm start v) : Lands (fun _ t => t.writer.Calm start v)
      (fun _ t => t.writer.Stopped start v) (p.run r s) := by
  induction p generalizing s with
  | write step =>
    have hends := Writer.accounts_perform r step s.writer hs
    show Lands _ _ (put (step.perform r) s)
    unfold put onPart
    generalize step.perform r s.writer = q at hends
    cases q with
    | ok a w => exact hends
    | error e w => exact hends
  | aside x h =>
    show Lands _ _ (x s)
    rw [h.ends s]
    cases x s with
    | ok a t => exact hs
    | error e t => exact hs.stopped
  | bind x f ihx ihf => exact (ihx s hs).bind fun a t ht => ihf a t ht
  | recorded x c ih =>
    have hends := ih s hs
    show Lands _ _ (tryFinally (x.run r) (modify _) s)
    rw [tryFinally_modify]
    generalize x.run r s = q at hends
    cases q with
    | ok a t => exact hends
    | error e t => exact hends

end Plan

/-- What becomes of a message at its transport. -/
def conclude : EStateM.Result Fault State Unit → Except Fault Nat × Sink
  | .error e s => (.error e, s.writer.abandon.sink)
  | .ok () s =>
    match Writer.finish s.writer with
    | .ok n w => (.ok n, w.sink)
    | .error e w => (.error e, w.sink)

theorem settled_conclude {r : EStateM.Result Fault State Unit} (hv : 0 < v)
    (h : Lands (fun _ t => t.writer.Calm start v) (fun _ t => t.writer.Stopped start v) r) :
    ∃ log, (conclude r).2.events = log.reverse ++ start.events ∧
      Writer.Settled v (conclude r).1 log := by
  cases r with
  | error e s =>
    obtain ⟨log, hevents, hsettled⟩ := h.abandon hv
    exact ⟨log, hevents, hsettled e⟩
  | ok u s =>
    have hfinish := Writer.Calm.finish h
    unfold conclude
    dsimp only
    generalize Writer.finish s.writer = q at hfinish
    cases q with
    | ok n w => exact hfinish
    | error e w =>
      exact hfinish

/-- What a transport that never fails has of a message in the end is all that was written. -/
theorem written_conclude {r : EStateM.Result Fault State Unit} {P : State → Prop}
    (hr : Ends P (fun _ => True) r) (hP : ∀ t, P t → Writer.Clean t.writer.sink) :
    ∃ t, P t ∧ (conclude r).2.written = t.writer.output := by
  cases r with
  | error e t => exact ⟨t, hr, (hP t hr).abandon⟩
  | ok u t =>
    obtain ⟨w, hw, hwritten⟩ := (hP t hr.1).finish
    refine ⟨t, hr.1, ?_⟩
    unfold conclude
    dsimp only
    rw [hw]
    exact hwritten

/-- What went through is a prefix of the message, and all of it where the message ended well. -/
theorem prefix_conclude {r r' : EStateM.Result Fault State Unit}
    (h : Shadows (Matched start) (fun _ => Behind start) r r') :
    ∃ sent, (conclude r).2.message = start.message ++ sent ∧ sent <+: (conclude r').2.written ∧
      ∀ n, (conclude r).1 = .ok n → sent = (conclude r').2.written := by
  rcases h with hends | ⟨e, s, rfl, hends⟩
  · cases hends with
    | @error e s t hst =>
      have hwritten : (conclude (.error e t)).2.written = t.writer.output := hst.1.clean.abandon
      refine ⟨t.writer.sink.message, ?_, ?_, fun n hn => absurd hn (by simp [conclude])⟩
      · exact (Writer.message_abandon _).trans hst.1.message
      · rw [hwritten]
        exact List.prefix_append _ _
    | @ok u s t hst =>
      obtain ⟨w', hw', hwritten⟩ := hst.1.clean.finish
      have hwritten : (conclude (.ok u t)).2.written = t.writer.output := by
        unfold conclude
        dsimp only
        rw [hw']
        exact hwritten
      rw [hwritten]
      unfold conclude
      dsimp only
      cases hw : Writer.finish s.writer with
      | ok n w =>
        refine ⟨t.writer.output, ?_, List.prefix_rfl, fun _ _ => rfl⟩
        rw [(Writer.finish_eq_ok hw).2, Writer.output, Writer.output, hst.1.message,
          hst.1.waiting, List.append_assoc]
      | error e w =>
        refine ⟨t.writer.sink.message, ?_, List.prefix_append _ _, fun n hn => absurd hn (by simp)⟩
        exact (Writer.error_finish hw).trans hst.1.message
  · obtain ⟨t, hbehind, hwritten⟩ := written_conclude hends fun t ht => ht.clean
    obtain ⟨sent, hsent, hprefix⟩ := hbehind.sent
    refine ⟨sent, (Writer.message_abandon _).trans hsent, hwritten ▸ hprefix, fun n hn => ?_⟩
    exact absurd hn (by simp [conclude])

end Marshal

namespace Machine

/-- How a message is accounted for at a transport that was `start` before, with vectors of `v` chunks,
where `stream` is what is written of it. -/
structure Accounted (v : Nat) (stream : List UInt8) (start : Sink) (o : Outcome Sink Nat)
    (log : List Sink.Event) : Prop where
  /-- The events of the message. -/
  events : o.transport.events = log.reverse ++ start.events
  settled : Writer.Settled v o.result log
  /-- What went through is a prefix of the message. -/
  sent : (log.flatMap Sink.Event.sent).flatMap Array.toList <+: stream
  /-- All of a message that ended well went through. -/
  whole : ∀ n, o.result = .ok n → (log.flatMap Sink.Event.sent).flatMap Array.toList = stream

theorem marshal_conclude (m : Machine) (world : Surroundings) (offset : Nat) (params : List Value)
    (sink : Sink) : ((m.marshal world offset params sink).result,
      (m.marshal world offset params sink).transport) =
        Marshal.conclude (Marshal.putParameters (m.writing world) offset params
          { world with writer := .new sink m.config }) := by
  unfold marshal
  dsimp only [writing, startOperation]
  split
  · rename_i hr
    rw [hr]
    rfl
  · rename_i t hr
    rw [hr, Marshal.conclude]
    cases Writer.finish t.writer <;> rfl

/-- **Every chunk of output is accounted for**: whatever a transport does, each buffer that it supplied
empty comes back to it exactly once, in a vector or at the end; what it took is a prefix of what the
same operation writes to a transport that never fails, in full vectors up to the end of the message. -/
theorem marshal_accounted (m : Machine) (hconfig : m.config.check = .ok ()) (world : Surroundings)
    (offset : Nat) (params : List Value) (sink : Sink) :
    ∃ log, Accounted m.config.vectorSize (m.marshal world offset params .reliable).transport.written
      sink (m.marshal world offset params sink) log := by
  obtain ⟨hbuffer, -, hvector, -⟩ := (Config.check_eq_ok_iff _).1 hconfig
  obtain ⟨plan, hplan⟩ := Marshal.exists_plan (m.writing world) offset params
  have hplan : Marshal.putParameters (m.writing world) offset params = plan.run m.representation :=
    hplan m.representation.integers
  let start (s : Sink) : Marshal.State := { world with writer := .new s m.config }
  let run (s : Sink) := Marshal.putParameters (m.writing world) offset params (start s)
  have hconclude : ∀ s, ((m.marshal world offset params s).result,
      (m.marshal world offset params s).transport) = Marshal.conclude (run s) :=
    fun s => m.marshal_conclude world offset params s
  have hsettled : Lands (fun _ t => t.writer.Calm sink m.config.vectorSize)
      (fun _ t => t.writer.Stopped sink m.config.vectorSize) (run sink) := by
    show Lands _ _ (Marshal.putParameters (m.writing world) offset params (start sink))
    rw [hplan]
    exact plan.accounts_run _ (start sink) (Writer.calm_new sink hbuffer hvector)
  have hshadows : Shadows (Marshal.Matched sink) (fun _ => Marshal.Behind sink) (run sink)
      (run .reliable) := by
    show Shadows _ _ (Marshal.putParameters (m.writing world) offset params (start sink))
      (Marshal.putParameters (m.writing world) offset params (start .reliable))
    rw [hplan]
    refine (plan.shadowing_run _).step _ _ ⟨⟨rfl, ⟨Sink.obliging_reliable, rfl⟩, ?_⟩, rfl⟩
    exact (List.append_nil _).symm
  obtain ⟨log, hevents, hlog⟩ := Marshal.settled_conclude hvector hsettled
  obtain ⟨sent, hmessage, hprefix, hwhole⟩ := Marshal.prefix_conclude hshadows
  -- the bytes that went through stand in the events
  have hsent : (log.flatMap Sink.Event.sent).flatMap Array.toList = sent := by
    refine List.append_cancel_left (Eq.trans ?_ hmessage)
    rw [Sink.message, Sink.message, Sink.chunks, Sink.chunks, hevents, List.reverse_append,
      List.reverse_reverse, List.flatMap_append, List.flatMap_append]
  rw [← hconclude] at hevents hlog hwhole
  rw [← hconclude] at hprefix hwhole
  exact ⟨log, hevents, hlog, hsent ▸ hprefix, fun n hn => hsent.trans (hwhole n hn)⟩

/-- A machine for three longs with the smallest chunks, one to a vector. -/
def cramped : Machine where
  interface := { vector := longsVector }
  config := { bufferSize := 8, vectorSize := 1 }

/-- Three longs at a transport that has one buffer: the first two go through. -/
theorem marshal_accounted_refused :
    let sink := Sink.Script.sink { failSupply := some 1 }
    let o := cramped.marshal {} 12 [.long 1, .long 2, .long 3] sink
    o.result.isOk = false ∧ o.transport.message = [1, 0, 0, 0, 2, 0, 0, 0] ∧
      ∃ log, Accounted 1 (cramped.marshal {} 12 [.long 1, .long 2, .long 3] .reliable).transport.written
        sink o log :=
  have hr : (cramped.marshal {} 12 [.long 1, .long 2, .long 3]
      (Sink.Script.sink { failSupply := some 1 })).result.isOk = false := by decide +kernel
  have hm : (cramped.marshal {} 12 [.long 1, .long 2, .long 3]
      (Sink.Script.sink { failSupply := some 1 })).transport.message = [1, 0, 0, 0, 2, 0, 0, 0] := by
    decide +kernel
  ⟨hr, hm, marshal_accounted cramped (by decide) {} 12 [.long 1, .long 2, .long 3]
    (Sink.Script.sink { failSupply := some 1 })⟩

end Machine

end Ndr
