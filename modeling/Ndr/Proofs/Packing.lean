import Ndr.Proofs.Wire

/-!
How a writer cuts a message where the transport does what it is asked for: into chunks of one size,
handed over in vectors of one length. What is written does not depend on these sizes.
-/

namespace Ndr

/-! ### Transports that never fail -/

namespace Sink

/-- A transport that supplies an empty buffer whenever it is asked, and takes every vector. -/
structure Obliging (s : Sink) : Prop where
  supply : ∀ history capacity, s.supply history capacity = .ok #[]
  deliver : ∀ history chunks, s.deliver history chunks = .ok ()

theorem obliging_reliable : reliable.Obliging := ⟨fun _ _ => rfl, fun _ _ => rfl⟩

/-- The chunks of a vector that went through. -/
def Event.vector? : Event → Option (List Chunk)
  | .transmitted chunks => some chunks
  | _ => none

/-- The vectors that went through, in order. -/
def vectors (s : Sink) : List (List Chunk) := s.events.reverse.filterMap Event.vector?

/-- What became of `start` where buffers of `b` bytes were asked for, and these vectors went
through. -/
structure Since (start : Sink) (sent : List (List Chunk)) (b : Nat) (s : Sink) : Prop where
  obliging : s.Obliging
  vectors : s.vectors = start.vectors ++ sent
  released : s.released = start.released
  asked : ∃ n, s.asked = start.asked ++ List.replicate n b

variable {start s : Sink} {sent : List (List Chunk)} {b : Nat}

theorem Since.refl (h : s.Obliging) : Since s [] b s :=
  ⟨h, (List.append_nil _).symm, rfl, 0, (List.append_nil _).symm⟩

theorem vectors_record (s : Sink) (e : Event) :
    (s.record e).vectors = s.vectors ++ e.vector?.toList := by
  cases e <;> simp [vectors, events, record, History.record, Event.vector?]

theorem asked_record (s : Sink) (e : Event) :
    (s.record e).asked = s.asked ++ e.asked?.toList := by
  cases e <;> simp [asked, events, record, History.record, Event.asked?]

theorem released_record (s : Sink) (e : Event) :
    (s.record e).released = s.released ++ e.givenBack := by
  simp [released, events, record, History.record]

theorem Since.supplied (h : Since start sent b s) : Since start sent b (s.record (.supplied b)) := by
  obtain ⟨n, hn⟩ := h.asked
  refine ⟨⟨h.obliging.supply, h.obliging.deliver⟩, ?_, ?_, n + 1, ?_⟩
  · simpa [vectors_record, Event.vector?] using h.vectors
  · simpa [released_record, Event.givenBack] using h.released
  · simp [asked_record, Event.asked?, hn, List.replicate_succ']

theorem Since.transmitted (h : Since start sent b s) (chunks : List Chunk) :
    Since start (sent ++ [chunks]) b (s.record (.transmitted chunks)) := by
  obtain ⟨n, hn⟩ := h.asked
  refine ⟨⟨h.obliging.supply, h.obliging.deliver⟩, ?_, ?_, n, ?_⟩
  · simp [vectors_record, Event.vector?, h.vectors]
  · simpa [released_record, Event.givenBack] using h.released
  · simpa [asked_record, Event.asked?] using hn

end Sink

namespace Writer

/-! ### Blocks of eight -/

/-- What begins at a multiple of a divisor of eight, and is no longer, does not cross a multiple of
eight. -/
theorem mod_eight_add_le {n p : Nat} (hn : n ∣ 8) (hp : n ∣ p) : p % 8 + n ≤ 8 := by
  have hcases : ∀ n ≤ 8, n ∣ 8 → n = 1 ∨ n = 2 ∨ n = 4 ∨ n = 8 := by decide
  rcases hcases n (Nat.le_of_dvd (by decide) hn) hn with rfl | rfl | rfl | rfl <;> omega

/-- Padding to a divisor of eight does not cross a multiple of eight. -/
theorem mod_eight_add_padding_le {n : Nat} (hn : n ∣ 8) (p : Nat) : p % 8 + padding p n ≤ 8 := by
  have hcases : ∀ n ≤ 8, n ∣ 8 → n = 1 ∨ n = 2 ∨ n = 4 ∨ n = 8 := by decide
  rw [padding]
  split
  · omega
  · rcases hcases n (Nat.le_of_dvd (by decide) hn) hn with rfl | rfl | rfl | rfl <;> omega

/-! ### Packed writers -/

/-- The bytes of the chunk being filled. -/
def open? (w : Writer) : List UInt8 :=
  match w.current with
  | some c => c.written.reverse
  | none => []

/-- A writer that has written `out` since `start`, all chunks of it full but the one being filled;
vectors went through when they were full. -/
structure Filled (start : Sink) (sent : List (List Chunk)) (out : List UInt8) (w : Writer) :
    Prop where
  since : start.Since sent w.bufferSize w.sink
  large : 8 ≤ w.bufferSize
  even : w.bufferSize % 8 = 0
  long : ∀ cs ∈ sent, cs.length = w.vectorSize
  full : ∀ c ∈ sent.flatten ++ w.vector.chunks, c.size = w.bufferSize
  output : (sent.flatten ++ w.vector.chunks).flatMap Array.toList ++ w.open? = out
  position : w.position = out.length

/-- The same between two steps of a message: there is room for the chunk being filled. -/
structure Packed (start : Sink) (sent : List (List Chunk)) (out : List UInt8) (w : Writer) : Prop
    extends Filled start sent out w where
  waiting : w.vector.size < w.vectorSize
  current : ∀ c, w.current = some c → c.written.length + c.room = w.bufferSize
  begun : w.current = none → out = []

variable {start : Sink} {sent : List (List Chunk)} {w : Writer} {out bytes : List UInt8}

theorem length_flatMap_of_full {chunks : List Chunk} {b : Nat} (h : ∀ c ∈ chunks, c.size = b) :
    (chunks.flatMap Array.toList).length = chunks.length * b := by
  induction chunks with
  | nil => simp
  | cons c chunks ih =>
    rw [List.flatMap_cons, List.length_append, ih fun d hd => h d (List.mem_cons_of_mem _ hd),
      Array.length_toList, h c List.mem_cons_self, List.length_cons, Nat.add_mul]
    omega

/-- Ahead of the chunk being filled there is a multiple of eight bytes. -/
theorem Filled.position_mod (h : w.Filled start sent out) :
    w.position % 8 = w.open?.length % 8 := by
  rw [h.position, ← h.output, List.length_append, length_flatMap_of_full h.full, Nat.add_mod,
    Nat.mul_mod, h.even, Nat.mul_zero, Nat.zero_mod, Nat.zero_add, Nat.mod_mod]

/-- The room that is left reaches to a multiple of eight. -/
theorem Packed.room_mod (h : w.Packed start sent out) {c : OpenChunk} (hc : w.current = some c) :
    (w.position + c.room) % 8 = 0 := by
  have hmod := h.position_mod
  have hcur := h.current c hc
  simp only [open?, hc, List.length_reverse] at hmod
  have := h.even
  omega

/-- A chunk without room joins those that wait. -/
theorem Packed.shelve (h : w.Packed start sent out) (hroom : ∀ c, w.current = some c → c.room = 0) :
    w.shelve.Filled start sent out ∧ w.shelve.current = none ∧
      w.shelve.vector.size ≤ w.shelve.vectorSize := by
  have hout := h.output
  unfold Writer.shelve
  cases hc : w.current with
  | none => exact ⟨h.toFilled, hc, Nat.le_of_lt h.waiting⟩
  | some c =>
    have hcur := h.current c hc
    rw [hroom c hc, Nat.add_zero] at hcur
    have hlarge := h.large
    have hne : c.written.isEmpty = false := by
      cases hw : c.written with
      | nil => simp [hw] at hcur; omega
      | cons _ _ => rfl
    simp only [hne, Bool.false_eq_true, if_false, true_and]
    refine ⟨⟨h.since, h.large, h.even, h.long, fun d hd => ?_, ?_, h.position⟩, h.waiting⟩
    · rw [IoVector.chunks_push, ← List.append_assoc] at hd
      rcases List.mem_append.1 hd with hd | hd
      · exact h.full d hd
      · obtain rfl := List.mem_singleton.1 hd
        simpa [OpenChunk.close] using hcur
    · simp only [open?, hc] at hout
      simpa [open?, OpenChunk.close] using hout

/-- A vector that is full goes through. -/
theorem Filled.transmit (h : w.Filled start sent out) (hsize : w.vector.size = w.vectorSize) :
    ∃ w', Writer.transmit w = .ok () w' ∧ w'.Filled start (sent ++ [w.vector.chunks]) out ∧
      w'.bufferSize = w.bufferSize ∧ w'.vectorSize = w.vectorSize ∧ w'.current = w.current ∧
      w'.vector = {} := by
  refine ⟨{ w with sink := w.sink.record (.transmitted w.vector.chunks), vector := {} }, ?_, ?_, rfl,
    rfl, rfl, rfl⟩
  · unfold Writer.transmit
    dsimp only
    rw [h.since.obliging.deliver]
  · have hchunks : (sent ++ [w.vector.chunks]).flatten ++ IoVector.chunks {} =
        sent.flatten ++ w.vector.chunks := by
      simp [IoVector.chunks]
    refine ⟨h.since.transmitted _, h.large, h.even, fun cs hcs => ?_, fun c hc => ?_, ?_, h.position⟩
    · rcases List.mem_append.1 hcs with hcs | hcs
      · exact h.long cs hcs
      · obtain rfl := List.mem_singleton.1 hcs
        exact (IoVector.length_chunks _).trans hsize
    · exact h.full c (hchunks ▸ hc)
    · exact (congrArg (fun l => List.flatMap Array.toList l ++ w.open?) hchunks).trans h.output

/-- A buffer is asked for where a multiple of eight is reached, so it has the full size. -/
theorem Filled.openChunk (h : w.Filled start sent out) (hc : w.current = none)
    (hsize : w.vector.size < w.vectorSize) :
    ∃ w', Writer.openChunk w = .ok () w' ∧ w'.Packed start sent out ∧
      w'.bufferSize = w.bufferSize ∧ w'.vectorSize = w.vectorSize ∧
      w'.current = some ⟨[], w.bufferSize⟩ := by
  have hmod := h.position_mod
  have hout := h.output
  simp only [open?, hc, List.length_nil, Nat.zero_mod, List.append_nil] at hmod hout
  refine ⟨{ w with sink := w.sink.record (.supplied w.bufferSize), current := some ⟨[], w.bufferSize⟩ },
    ?_, ⟨⟨h.since.supplied, h.large, h.even, h.long, h.full, ?_, h.position⟩, hsize, ?_, ?_⟩, rfl, rfl,
    rfl⟩
  · unfold Writer.openChunk
    simp only [h.since.obliging.supply, hmod, Nat.sub_zero]
    rfl
  · simpa [open?] using hout
  · rintro c ⟨⟩
    exact Nat.zero_add _
  · exact fun hn => absurd hn (by simp)

/-- The next chunk begins where the one before is full. -/
theorem Packed.nextChunk (h : w.Packed start sent out)
    (hroom : ∀ c, w.current = some c → c.room = 0) :
    ∃ w' sent', Writer.nextChunk w = .ok () w' ∧ w'.Packed start sent' out ∧
      w'.bufferSize = w.bufferSize ∧ w'.vectorSize = w.vectorSize ∧
      w'.current = some ⟨[], w.bufferSize⟩ := by
  obtain ⟨hs, hc, hle⟩ := h.shelve hroom
  have hb : w.shelve.bufferSize = w.bufferSize ∧ w.shelve.vectorSize = w.vectorSize := by
    unfold Writer.shelve
    split <;> exact ⟨rfl, rfl⟩
  show ∃ w' sent', (do
      if w.shelve.vectorSize ≤ w.shelve.vector.size then Writer.transmit
      Writer.openChunk : Put Unit) w.shelve = .ok () w' ∧ _
  split
  · rename_i hfull
    obtain ⟨x, hx, hxf, hxb, hxv, hxc, hxe⟩ := hs.transmit (Nat.le_antisymm hle hfull)
    obtain ⟨w', hw', hp, hwb, hwv, hwc⟩ := hxf.openChunk (hxc.trans hc) (by
      rw [hxe, hxv, hb.2]
      exact Nat.zero_lt_of_lt h.waiting)
    exact ⟨w', _, bind_eq_ok.2 ⟨_, _, hx, hw'⟩, hp, hwb.trans (hxb.trans hb.1),
      hwv.trans (hxv.trans hb.2), by rw [hwc, hxb, hb.1]⟩
  · rename_i hfull
    obtain ⟨w', hw', hp, hwb, hwv, hwc⟩ := hs.openChunk hc (Nat.lt_of_not_le hfull)
    exact ⟨w', _, hw', hp, hwb.trans hb.1, hwv.trans hb.2, by rw [hwc, hb.1]⟩

/-- Bytes for which the chunk being filled has room. -/
theorem Packed.append (h : w.Packed start sent out) {c : OpenChunk} (hc : w.current = some c)
    (hroom : bytes.length ≤ c.room) : (w.append bytes).Packed start sent (out ++ bytes) := by
  have hout := h.output
  have hcur := h.current c hc
  refine ⟨⟨h.since, h.large, h.even, h.long, h.full, ?_, ?_⟩, h.waiting, ?_, ?_⟩
  · rw [← hout]
    simp [Writer.append, open?, hc, List.reverseAux_eq]
  · simp [Writer.append, h.position]
  · simp only [Writer.append, hc, Option.map_some, Option.some.injEq, forall_eq', List.reverseAux_eq,
      List.length_append, List.length_reverse]
    omega
  · simp [Writer.append, hc]

/-! ### Steps that write the same in chunks of any size -/

/-- A writer that has written `out` since `start`, with chunks and vectors of these sizes. -/
def Packs (start : Sink) (b v : Nat) (out : List UInt8) (w : Writer) : Prop :=
  w.bufferSize = b ∧ w.vectorSize = v ∧ ∃ sent, w.Packed start sent out

/-- A result without what comes out. -/
def ended {σ α : Type} (r : Except Fault α) (s : σ) : EStateM.Result Fault σ α :=
  match r with
  | .ok a => .ok a s
  | .error e => .error e s

/-- A step that, behind `out`, writes `bytes` and ends in `r`, whatever the sizes are. -/
def Writes {α : Type} (x : Put α) (out : List UInt8) (r : Except Fault α) (bytes : List UInt8) :
    Prop :=
  ∀ ⦃start b v w⦄, Packs start b v out w → ∃ w', x w = ended r w' ∧ Packs start b v (out ++ bytes) w'

variable {α β : Type}

theorem writes_pure (a : α) : Writes (pure a) out (.ok a) [] := fun _ _ _ w h =>
  ⟨w, rfl, by rwa [List.append_nil]⟩

theorem writes_throw (e : Fault) : Writes (throw e : Put α) out (.error e) [] := fun _ _ _ w h =>
  ⟨w, rfl, by rwa [List.append_nil]⟩

theorem writes_lift (x : Except Fault α) : Writes (liftM x : Put α) out x [] := by
  cases x with
  | ok a => exact writes_pure a
  | error e => exact writes_throw e

theorem Writes.bind {x : Put α} {f : α → Put β} {a : α} {r : Except Fault β} {bytes' : List UInt8}
    (hx : Writes x out (.ok a) bytes) (hf : Writes (f a) (out ++ bytes) r bytes') :
    Writes (x >>= f) out r (bytes ++ bytes') := by
  intro start b v w h
  obtain ⟨w1, h1, hp1⟩ := hx h
  obtain ⟨w2, h2, hp2⟩ := hf hp1
  refine ⟨w2, ?_, by rwa [← List.append_assoc]⟩
  show EStateM.bind x f w = _
  rw [EStateM.bind, h1]
  exact h2

theorem Writes.bind_error {x : Put α} {f : α → Put β} {e : Fault}
    (hx : Writes x out (.error e) bytes) : Writes (x >>= f) out (.error e) bytes := by
  intro start b v w h
  obtain ⟨w1, h1, hp1⟩ := hx h
  refine ⟨w1, ?_, hp1⟩
  show EStateM.bind x f w = _
  rw [EStateM.bind, h1]
  rfl

/-- What does not cross a multiple of eight goes into one chunk, for which there always is room. -/
theorem writes_putTogether (h : out.length % 8 + bytes.length ≤ 8) :
    Writes (putTogether bytes) out (.ok ()) bytes := by
  rintro start b v w ⟨rfl, rfl, sent, hp⟩
  have hpos := hp.position
  have hlarge := hp.large
  -- where the next chunk is due, the one being filled is full
  have hensure : ∃ x sent', ensure bytes.length w = .ok () x ∧ x.Packed start sent' out ∧
      x.bufferSize = w.bufferSize ∧ x.vectorSize = w.vectorSize ∧
      ∃ c, x.current = some c ∧ bytes.length ≤ c.room := by
    unfold ensure
    show ∃ x sent', (if w.current.isNone = true ∨ w.room < bytes.length then do
          Writer.nextChunk
          let w ← get
          if w.room < bytes.length then throw (.bufferExhausted (.tooSmall bytes.length w.room))
        else pure () : Put Unit) w = _ ∧ _
    split
    · rename_i hnext
      obtain ⟨x, sent', hx, hxp, hxb, hxv, hxc⟩ := hp.nextChunk fun c hc => by
        have := hp.room_mod hc
        simp only [hc, Option.isNone_some, Bool.false_eq_true, room, false_or] at hnext
        omega
      refine ⟨x, sent', bind_eq_ok.2 ⟨_, x, hx, ?_⟩, hxp, hxb, hxv, _, hxc, by
        show bytes.length ≤ w.bufferSize
        omega⟩
      show (if x.room < bytes.length then _ else _ : Put Unit) x = _
      rw [if_neg (by simp only [room, hxc]; omega)]
      rfl
    · rename_i hnext
      obtain ⟨h1, h2⟩ := not_or.1 hnext
      cases hc : w.current with
      | none => simp [hc] at h1
      | some c =>
        simp only [room, hc, Nat.not_lt] at h2
        exact ⟨w, sent, rfl, hp, rfl, rfl, c, hc, h2⟩
  obtain ⟨x, sent', hx, hxp, hxb, hxv, c, hc, hroom⟩ := hensure
  exact ⟨_, bind_eq_ok.2 ⟨_, x, hx, rfl⟩, hxb, hxv, sent', hxp.append hc hroom⟩

/-- Padding to a divisor of eight. -/
theorem writes_align {n : Nat} (hn : n ∣ 8) :
    Writes (align n) out (.ok ()) (List.replicate (padding out.length n) 0) := by
  intro start b v w h
  obtain ⟨hb, hv, sent, hp⟩ := h
  unfold align
  show ∃ w', (if padding w.position n ≠ 0 then
      putTogether (List.replicate (padding w.position n) 0) else pure ()) w = _ ∧ _
  rw [hp.position]
  have hfits : out.length % 8 + (List.replicate (padding out.length n) (0 : UInt8)).length ≤ 8 := by
    rw [List.length_replicate]
    exact mod_eight_add_padding_le hn _
  split
  · exact writes_putTogether hfits ⟨hb, hv, sent, hp⟩
  · rename_i hz
    rw [Decidable.not_not.1 hz]
    exact writes_pure () ⟨hb, hv, sent, hp⟩

/-- A word at a multiple of its width, and the padding ahead of it. -/
theorem writes_putAligned (order : ByteOrder) {width : Nat} (hw : width ∣ 8) (v : Nat) :
    ∃ bytes, Writes (putAligned order width v) out (.ok ()) bytes ∧ width ∣ (out ++ bytes).length := by
  have hpos : 0 < width := Nat.pos_of_dvd_of_pos hw (by decide)
  have hdvd : width ∣ (out ++ List.replicate (padding out.length width) (0 : UInt8)).length := by
    rw [List.length_append, List.length_replicate]
    exact dvd_add_padding hpos
  refine ⟨_, (writes_align hw).bind (writes_putTogether ?_), ?_⟩
  · rw [ByteOrder.length_encode]
    exact mod_eight_add_le hw hdvd
  · rw [← List.append_assoc, List.length_append, ByteOrder.length_encode]
    exact Nat.dvd_add hdvd (Nat.dvd_refl _)

theorem writes_putRun (bytes : List UInt8) : Writes (putRun bytes) out (.ok ()) bytes := by
  have hfrom : ∀ fuel (out bytes : List UInt8), bytes.length ≤ fuel →
      Writes (putRunFrom fuel bytes) out (.ok ()) bytes := by
    intro fuel
    induction fuel with
    | zero =>
      intro out bytes hle
      obtain rfl := List.length_eq_zero_iff.1 (Nat.le_zero.1 hle)
      exact writes_pure ()
    | succ fuel ih =>
      intro out bytes hle
      cases bytes with
      | nil => exact writes_pure ()
      | cons first more =>
        rintro start b v w ⟨rfl, rfl, sent, hp⟩
        -- a chunk with room, which takes a part of the run
        have hroom : ∃ x sent', (if w.room = 0 then Writer.nextChunk else pure () : Put Unit) w =
            .ok () x ∧ x.Packed start sent' out ∧ x.bufferSize = w.bufferSize ∧
            x.vectorSize = w.vectorSize ∧ ∃ c, x.current = some c ∧ 0 < c.room := by
          split
          · rename_i hz
            obtain ⟨x, sent', hx, hxp, hxb, hxv, hxc⟩ := hp.nextChunk fun c hc => by
              simpa [room, hc] using hz
            have := hp.large
            exact ⟨x, sent', hx, hxp, hxb, hxv, _, hxc, by dsimp only; omega⟩
          · rename_i hz
            cases hc : w.current with
            | none => simp [room, hc] at hz
            | some c =>
              simp only [room, hc] at hz
              exact ⟨w, sent, rfl, hp, rfl, rfl, c, hc, Nat.pos_of_ne_zero hz⟩
        obtain ⟨x, sent', hx, hxp, hxb, hxv, c, hc, hpos⟩ := hroom
        have htake := hxp.append hc (List.length_take_le c.room (first :: more))
        have hrest := ih (out ++ (first :: more).take c.room) ((first :: more).drop c.room) (by
          rw [List.length_drop]
          omega)
        obtain ⟨w', hw', hpacks⟩ := hrest (w := x.append ((first :: more).take c.room))
          ⟨hxb, hxv, sent', htake⟩
        rw [List.append_assoc, List.take_append_drop] at hpacks
        refine ⟨w', ?_, hpacks⟩
        have hr : x.room = c.room := by simp only [room, hc]
        rw [← hr] at hw'
        have hstep : ∀ {k : PUnit → Put Unit}, k ⟨⟩ x = .ok () w' →
            (if w.room = 0 then Writer.nextChunk >>= k else k ⟨⟩) w = .ok () w' := by
          intro k hk
          split at hx
          · rename_i hz
            rw [if_pos hz]
            exact bind_eq_ok.2 ⟨_, _, hx, hk⟩
          · rename_i hz
            obtain ⟨-, rfl⟩ := pure_eq_ok.1 hx
            rwa [if_neg hz]
        exact hstep (k := fun _ => (do
          let room := (← get).room
          modify fun w : Writer => w.append ((first :: more).take room)
          putRunFrom fuel ((first :: more).drop room) : Put Unit)) hw'
  exact hfrom _ out bytes (Nat.le_refl _)

/-! ### The end of a message -/

/-- The vectors of a message that went through whole. -/
structure Cut (b v : Nat) (message : List UInt8) (sent : List (List Chunk)) : Prop where
  message : sent.flatten.flatMap Array.toList = message
  chunks : ∀ c ∈ sent.flatten.dropLast, c.size = b
  last : ∀ c ∈ sent.flatten.getLast?, 0 < c.size ∧ c.size ≤ b
  vectors : ∀ cs ∈ sent.dropLast, cs.length = v
  lastVector : ∀ cs ∈ sent.getLast?, 0 < cs.length ∧ cs.length ≤ v

/-- Where at most one element stands behind `l`, what is not the last is in `l`. -/
theorem mem_of_mem_dropLast_append {α : Type} {a : α} {l tail : List α} (h : tail.length ≤ 1)
    (ha : a ∈ (l ++ tail).dropLast) : a ∈ l := by
  cases tail with
  | nil => exact List.dropLast_subset _ (by simpa using ha)
  | cons b tail =>
    obtain rfl : tail = [] := List.length_eq_zero_iff.1 (Nat.le_zero.1 (Nat.le_of_succ_le_succ h))
    simpa using ha

/-- What is left of the chunk being filled joins the chunks that wait, if it holds anything. -/
theorem Packed.shelve_rest (h : w.Packed start sent out) :
    ∃ tail : List Chunk, w.shelve.vector.chunks = w.vector.chunks ++ tail ∧ tail.length ≤ 1 ∧
      (∀ c ∈ tail, 0 < c.size ∧ c.size ≤ w.bufferSize) ∧
      (sent.flatten ++ (w.vector.chunks ++ tail)).flatMap Array.toList = out ∧
      w.shelve.sink = w.sink ∧ w.shelve.position = w.position := by
  have hout := h.output
  unfold Writer.shelve
  cases hc : w.current with
  | none =>
    refine ⟨[], by simp, by simp, by simp, ?_, rfl, rfl⟩
    simpa [open?, hc] using hout
  | some c =>
    have hcur := h.current c hc
    simp only [open?, hc] at hout
    cases hw : c.written with
    | nil =>
      refine ⟨[], by simp [hw], by simp, by simp, ?_, rfl, rfl⟩
      simpa [hw] using hout
    | cons first more =>
      refine ⟨[c.close], by simp [hw], by simp, ?_, ?_, rfl, rfl⟩
      · simp only [List.mem_singleton, forall_eq, OpenChunk.close, List.size_toArray,
          List.length_reverse]
        rw [hw, List.length_cons] at hcur ⊢
        omega
      · rw [← List.append_assoc, List.flatMap_append, ← hout]
        simp [OpenChunk.close]

/-- The chunks of a message that ended: those that were full, and what was left. -/
theorem Packed.chunks_of_rest (h : w.Packed start sent out) {tail : List Chunk}
    (hone : tail.length ≤ 1) (htail : ∀ c ∈ tail, 0 < c.size ∧ c.size ≤ w.bufferSize) :
    (∀ c ∈ (sent.flatten ++ (w.vector.chunks ++ tail)).dropLast, c.size = w.bufferSize) ∧
      ∀ c ∈ (sent.flatten ++ (w.vector.chunks ++ tail)).getLast?,
        0 < c.size ∧ c.size ≤ w.bufferSize := by
  rw [← List.append_assoc]
  refine ⟨fun c hc => h.full c (mem_of_mem_dropLast_append hone hc), fun c hc => ?_⟩
  rcases List.mem_append.1 (List.mem_of_mem_getLast? hc) with hc | hc
  · have hlarge := h.large
    rw [h.full c hc]
    omega
  · exact htail c hc

/-- A message that ended goes through, cut into chunks and vectors of these sizes. -/
theorem Packs.finish {b v : Nat} (h : Packs start b v out w) :
    ∃ w' sent, Writer.finish w = .ok out.length w' ∧ start.Since sent b w'.sink ∧ Cut b v out sent := by
  obtain ⟨rfl, rfl, sent, hp⟩ := h
  have hwaiting := hp.waiting
  have hposition := hp.position
  obtain ⟨tail, hchunks, hone, htail, hout, hsink, hpos⟩ := hp.shelve_rest
  obtain ⟨hall, hlast⟩ := hp.chunks_of_rest hone htail
  have hlength : (w.vector.chunks ++ tail).length ≤ w.vectorSize := by
    rw [List.length_append, IoVector.length_chunks]
    omega
  have hsize : w.shelve.vector.size = (w.vector.chunks ++ tail).length := by
    rw [← hchunks, IoVector.length_chunks]
  unfold Writer.finish
  show ∃ w' sent', (if w.shelve.vector.size ≠ 0 then do
      Writer.transmit
      return (← get).position else do return (← get).position : Put Nat) w.shelve = _ ∧ _
  split
  · rename_i hne
    refine ⟨{ w.shelve with sink := w.sink.record (.transmitted (w.vector.chunks ++ tail)), vector := {} },
      sent ++ [w.vector.chunks ++ tail], ?_, hp.since.transmitted _, ?_⟩
    · refine bind_eq_ok.2 ⟨(), _, ?_, congrArg (EStateM.Result.ok · _) (hpos.trans hposition)⟩
      unfold Writer.transmit
      dsimp only
      rw [hsink, hp.since.obliging.deliver, hchunks]
    · have hflat : (sent ++ [w.vector.chunks ++ tail]).flatten =
          sent.flatten ++ (w.vector.chunks ++ tail) := by simp
      refine ⟨hflat ▸ hout, hflat ▸ hall, hflat ▸ hlast, fun cs hcs => hp.long cs ?_, ?_⟩
      · simpa using hcs
      · simp only [List.getLast?_concat, Option.mem_some_iff, forall_eq']
        exact ⟨by omega, hlength⟩
  · rename_i hz
    obtain hnil : w.vector.chunks ++ tail = [] := List.length_eq_zero_iff.1 (by omega)
    rw [hnil, List.append_nil] at hout hall hlast
    refine ⟨w.shelve, sent, congrArg (EStateM.Result.ok · _) (hpos.trans hposition),
      hsink ▸ hp.since, ⟨hout, hall, hlast, fun cs hcs => hp.long cs (List.dropLast_subset _ hcs),
        fun cs hcs => ?_⟩⟩
    rw [hp.long cs (List.mem_of_mem_getLast? hcs)]
    exact ⟨by omega, Nat.le_refl _⟩

theorem packs_new {config : Config} {sink : Sink} (hs : sink.Obliging) (hb : 8 ≤ config.bufferSize)
    (he : config.bufferSize % 8 = 0) (hv : 0 < config.vectorSize) :
    Packs sink config.bufferSize config.vectorSize [] (.new sink config) :=
  ⟨rfl, rfl, [], ⟨.refl hs, hb, he, by simp, by simp [Writer.new, IoVector.chunks],
    by simp [Writer.new, IoVector.chunks, open?], rfl⟩, hv, by simp [Writer.new], fun _ => rfl⟩

/-- A message that failed was handed over, or is given back, as far as it was written. -/
theorem Packs.abandon {b v : Nat} (h : Packs start b v out w) :
    ∃ sent pending, w.abandon.sink.vectors = start.vectors ++ sent ∧
      w.abandon.sink.released = start.released ++ pending ∧
      (∃ n, w.abandon.sink.asked = start.asked ++ List.replicate n b) ∧
      (∀ cs ∈ sent, cs.length = v) ∧ (∀ c ∈ (sent.flatten ++ pending).dropLast, c.size = b) ∧
      (sent.flatten ++ pending).flatMap Array.toList = out := by
  obtain ⟨rfl, rfl, sent, hp⟩ := h
  obtain ⟨n, hn⟩ := hp.since.asked
  have hout := hp.output
  have hfull := hp.full
  -- the chunk being filled is given back with the others
  have hpending : ∃ tail : List Chunk, tail.length ≤ 1 ∧
      (tail.flatMap Array.toList) = w.open? ∧
      w.abandon.sink = if (w.vector.chunks ++ tail).isEmpty then w.sink
        else w.sink.record (.released (w.vector.chunks ++ tail)) := by
    cases hcur : w.current with
    | none => exact ⟨[], by simp, by simp [open?, hcur], by simp [Writer.abandon, hcur]⟩
    | some c =>
      exact ⟨[c.close], by simp, by simp [open?, hcur, OpenChunk.close],
        by simp [Writer.abandon, hcur]⟩
  obtain ⟨tail, hone, htail, hsink⟩ := hpending
  have hrecord : w.abandon.sink.vectors = w.sink.vectors ∧
      w.abandon.sink.released = w.sink.released ++ (w.vector.chunks ++ tail) ∧
      w.abandon.sink.asked = w.sink.asked := by
    rw [hsink]
    split
    · rename_i hnil
      rw [List.isEmpty_iff.1 hnil, List.append_nil]
      exact ⟨rfl, rfl, rfl⟩
    · simp [Sink.vectors_record, Sink.released_record, Sink.asked_record, Sink.Event.vector?,
        Sink.Event.givenBack, Sink.Event.asked?]
  obtain ⟨hvectors, hreleased, hasked⟩ := hrecord
  refine ⟨sent, w.vector.chunks ++ tail, hvectors.trans hp.since.vectors,
    by rw [hreleased, hp.since.released], ⟨n, hasked.trans hn⟩, hp.long, fun c hc => hfull c ?_, ?_⟩
  · rw [← List.append_assoc] at hc
    exact mem_of_mem_dropLast_append hone hc
  · rw [← List.append_assoc, List.flatMap_append, htail]
    exact hout

/-- An element of a list is its last or one ahead of it. -/
theorem mem_getLast?_or_mem_dropLast {α : Type} {a : α} {l : List α} (h : a ∈ l) :
    a ∈ l.getLast? ∨ a ∈ l.dropLast := by
  obtain ⟨l, b, rfl⟩ := (List.eq_nil_or_concat l).resolve_left (List.ne_nil_of_mem h)
  simpa [or_comm, eq_comm] using h

/-- A vector that went through has chunks. -/
theorem Cut.ne_nil {b v : Nat} {message : List UInt8} (h : Cut b v message sent) :
    ∀ cs ∈ sent, cs ≠ [] := by
  intro cs hcs hnil
  obtain ⟨last, hlast⟩ := Option.isSome_iff_exists.1 (List.getLast?_isSome.2 (List.ne_nil_of_mem hcs))
  obtain ⟨hpos, hle⟩ := h.lastVector last hlast
  rcases mem_getLast?_or_mem_dropLast hcs with hc | hc
  · obtain rfl := Option.some.inj (hlast.symm.trans hc)
    simp [hnil] at hpos
  · have := h.vectors cs hc
    simp only [hnil, List.length_nil] at this
    omega

/-- A message that fits into one chunk is sent as one chunk, and an empty one not at all. -/
theorem Cut.whole {b v : Nat} {message : List UInt8} (h : Cut b v message sent)
    (hle : message.length ≤ b) : sent = if message = [] then [] else [[message.toArray]] := by
  have hne := h.ne_nil
  have hnone : ∀ l : List (List Chunk), (∀ cs ∈ l, cs ≠ []) → l.flatten = [] → l = [] := by
    intro l hl hflat
    cases l with
    | nil => rfl
    | cons cs l =>
      exact absurd (List.flatten_eq_nil_iff.1 hflat cs List.mem_cons_self) (hl cs List.mem_cons_self)
  have hmessage := h.message
  match hflat : sent.flatten with
  | [] =>
    rw [hflat, List.flatMap_nil] at hmessage
    rw [if_pos hmessage.symm]
    exact hnone sent hne hflat
  | [c] =>
    obtain ⟨hpos, -⟩ := h.last c (by simp [hflat])
    rw [hflat, List.flatMap_singleton] at hmessage
    have hfull : message ≠ [] := by
      rintro rfl
      rw [Array.toList_eq_nil_iff.1 hmessage] at hpos
      simp at hpos
    rw [if_neg hfull, ← hmessage, Array.toArray_toList]
    match sent, hne, hflat with
    | cs :: rest, hne, hflat =>
      rw [List.flatten_cons] at hflat
      obtain ⟨hcs, hrest⟩ : cs = [c] ∧ rest.flatten = [] := by
        rcases List.append_eq_singleton_iff.1 hflat with ⟨hnil, -⟩ | hboth
        · exact absurd hnil (hne cs List.mem_cons_self)
        · exact hboth
      rw [hcs, hnone rest (fun d hd => hne d (List.mem_cons_of_mem _ hd)) hrest]
  | c :: d :: more =>
    have hc : c.size = b := h.chunks c (by simp [hflat])
    obtain ⟨last, hlast⟩ :=
      Option.isSome_iff_exists.1 (List.getLast?_isSome.2 (List.cons_ne_nil d more))
    obtain ⟨hpos, -⟩ := h.last last (by simpa [hflat] using hlast)
    have hlong := congrArg List.length hmessage
    rw [hflat, List.flatMap_cons, List.length_append, Array.length_toList] at hlong
    have : last.toList.length ≤ ((d :: more).flatMap Array.toList).length :=
      (List.sublist_flatten_of_mem (List.mem_map_of_mem (List.mem_of_getLast? hlast))).length_le
    rw [Array.length_toList] at this
    omega

/-! ### Where a run of bytes goes -/

/-- What lies behind `k` full chunks. -/
theorem drop_flatMap_of_full {b k : Nat} {chunks : List Chunk} (hk : k < chunks.length)
    (hfull : ∀ c ∈ chunks.dropLast, c.size = b) :
    (chunks.flatMap Array.toList).drop (k * b) = (chunks.drop k).flatMap Array.toList := by
  induction k generalizing chunks with
  | zero => simp
  | succ k ih =>
    match chunks, hk with
    | c :: d :: chunks, hk =>
      have hc : b = c.toList.length := (hfull c (by simp)).symm
      have hrest := @ih (d :: chunks) (by simpa using hk) fun e he => hfull e (by
        rw [List.dropLast_cons_cons]
        exact List.mem_cons_of_mem _ he)
      rw [List.drop_succ_cons, ← hrest, List.flatMap_cons, Nat.add_mul, Nat.one_mul, Nat.add_comm]
      nth_rewrite 1 [hc]
      exact List.drop_length_add_append _

theorem length_flatMap_le {b : Nat} {chunks : List Chunk} (h : ∀ c ∈ chunks, c.size ≤ b) :
    (chunks.flatMap Array.toList).length ≤ chunks.length * b := by
  induction chunks with
  | nil => simp
  | cons c chunks ih =>
    have hc := h c List.mem_cons_self
    have := ih fun d hd => h d (List.mem_cons_of_mem _ hd)
    rw [List.flatMap_cons, List.length_append, Array.length_toList, List.length_cons, Nat.add_mul]
    omega

/-- A run that does not cross a multiple of eight is in one chunk. -/
theorem Cut.together {b v p n : Nat} {message : List UInt8} (h : Cut b v message sent)
    (he : b % 8 = 0) (hrun : p % 8 + n ≤ 8) (hn : 0 < n) (hle : p + n ≤ message.length) :
    ∃ c, sent.flatten[p / b]? = some c ∧ p % b + n ≤ c.size ∧
      (c.toList.drop (p % b)).take n = (message.drop p).take n := by
  have hsize : ∀ c ∈ sent.flatten, c.size ≤ b := by
    intro c hc
    rcases mem_getLast?_or_mem_dropLast hc with hl | hd
    · exact (h.last c hl).2
    · exact Nat.le_of_eq (h.chunks c hd)
  have hlength := length_flatMap_le hsize
  rw [h.message] at hlength
  have hb : 0 < b := Nat.pos_of_ne_zero fun hz => by
    rw [hz, Nat.mul_zero] at hlength
    omega
  have hk : p / b < sent.flatten.length := (Nat.div_lt_iff_lt_mul hb).2 (by omega)
  have hmod : p % b < b := Nat.mod_lt _ hb
  have hp : p / b * b + p % b = p := Nat.div_add_mod' p b
  have hdrop := drop_flatMap_of_full hk h.chunks
  rw [h.message, List.drop_eq_getElem_cons hk, List.flatMap_cons] at hdrop
  have hfits : p % b + n ≤ sent.flatten[p / b].size := by
    by_cases hlast : p / b + 1 < sent.flatten.length
    · rw [h.chunks _ (List.mem_iff_getElem.2 ⟨p / b, by rw [List.length_dropLast]; omega,
        List.getElem_dropLast _⟩)]
      have : p % b % 8 = p % 8 := Nat.mod_mod_of_dvd _ (Nat.dvd_of_mod_eq_zero he)
      omega
    · rw [List.drop_eq_nil_of_le (Nat.le_of_not_lt hlast), List.flatMap_nil, List.append_nil] at hdrop
      have hl : sent.flatten[p / b].toList.length = sent.flatten[p / b].size := Array.length_toList
      have := congrArg List.length hdrop
      rw [List.length_drop, hl] at this
      omega
  refine ⟨_, List.getElem?_eq_getElem hk, hfits, ?_⟩
  have hbehind : message.drop p = (message.drop (p / b * b)).drop (p % b) := by
    rw [List.drop_drop, hp]
  rw [hbehind, hdrop, List.drop_append_of_le_length (by rw [Array.length_toList]; omega),
    List.take_append_of_le_length (by rw [List.length_drop, Array.length_toList]; omega)]

end Writer

end Ndr
