import Ndr.Proofs.Action
import Ndr.Wire.Writer

/-!
Transports that do not look into messages. Where a transport cannot tell bytes from zeros, neither
can the writer, which only counts them: it cuts chunks, hands them over and fails in the same places
whatever is written, as long as there is as much of it.
-/

namespace Ndr

/-! ### Zeros in place of bytes -/

/-- Zeros, as many as there are bytes. -/
abbrev zeros (n : Nat) : List UInt8 := List.replicate n 0

def Chunk.blank (c : Chunk) : Chunk := (zeros c.size).toArray

namespace Sink

def Event.blank : Event → Event
  | .transmitted chunks => .transmitted (chunks.map Chunk.blank)
  | .lost chunks => .lost (chunks.map Chunk.blank)
  | .released chunks => .released (chunks.map Chunk.blank)
  | e => e

@[simp] theorem Event.isSupply_blank (e : Event) : e.blank.isSupply = e.isSupply := by
  cases e <;> rfl

@[simp] theorem Event.isTransmission_blank (e : Event) :
    e.blank.isTransmission = e.isTransmission := by
  cases e <;> rfl

/-- What happened, with zeros in place of the bytes. -/
def History.blank (h : History) : History where
  events := h.events.map Event.blank
  supplies := h.supplies
  transmissions := h.transmissions
  supplies_eq := by
    rw [List.countP_map, h.supplies_eq]
    exact List.countP_congr fun e _ => by simp
  transmissions_eq := by
    rw [List.countP_map, h.transmissions_eq]
    exact List.countP_congr fun e _ => by simp

@[simp] theorem History.blank_record (h : History) (e : Event) :
    (h.record e).blank = h.blank.record e.blank := by
  simp [History.blank, History.record]

def blank (s : Sink) : Sink := { s with history := s.history.blank }

@[simp] theorem blank_record (s : Sink) (e : Event) :
    (s.record e).blank = s.blank.record e.blank := by
  simp [blank, record]

/-- A transport that answers without looking at the bytes it is given. -/
structure Blind (s : Sink) : Prop where
  supply : ∀ h capacity, s.supply h.blank capacity = s.supply h capacity
  deliver : ∀ h chunks, s.deliver h.blank (chunks.map Chunk.blank) = s.deliver h chunks

theorem Blind.record {s : Sink} (h : s.Blind) (e : Event) : (s.record e).Blind :=
  ⟨h.supply, h.deliver⟩

theorem blind_reliable : reliable.Blind := ⟨fun _ _ => rfl, fun _ _ => rfl⟩

end Sink

def OpenChunk.blank (c : OpenChunk) : OpenChunk := ⟨zeros c.written.length, c.room⟩

theorem OpenChunk.close_blank (c : OpenChunk) : c.blank.close = c.close.blank := by
  simp [blank, close, Chunk.blank]

def IoVector.blank (v : IoVector) : IoVector where
  waiting := v.waiting.map Chunk.blank
  size := v.size
  size_eq := by rw [List.length_map, v.size_eq]

@[simp] theorem IoVector.blank_push (v : IoVector) (c : Chunk) :
    (v.push c).blank = v.blank.push c.blank := rfl

@[simp] theorem IoVector.chunks_blank (v : IoVector) :
    v.blank.chunks = v.chunks.map Chunk.blank := List.map_reverse.symm

namespace Writer

/-- A message being written, with zeros in place of its bytes. -/
def blank (w : Writer) : Writer :=
  { w with
    sink := w.sink.blank
    current := w.current.map OpenChunk.blank
    vector := w.vector.blank }

/-! ### Writing zeros -/

/-- The other message is this one with zeros, and its transport does not look at the bytes. -/
structure Blanked (w b : Writer) : Prop where
  blind : w.sink.Blind
  eq : b = w.blank

/-- An action does to zeros what the other one does to bytes. -/
abbrev Blanks {α : Type} (x z : Put α) : Prop := Tandem Blanked x z

theorem room_blank (w : Writer) : w.blank.room = w.room := by
  unfold room blank
  cases w.current <;> rfl

theorem shelve_blank (w : Writer) : w.blank.shelve = w.shelve.blank := by
  unfold shelve
  cases hc : w.current with
  | none => simp [blank, hc]
  | some c =>
    simp only [blank, hc, Option.map_some, OpenChunk.close_blank]
    cases hw : c.written with
    | nil => simp [OpenChunk.blank, hw]
    | cons b bs => simp [OpenChunk.blank, hw]

theorem abandon_blank (w : Writer) : w.blank.abandon.sink = w.abandon.sink.blank := by
  unfold abandon blank
  cases w.current with
  | none => cases h : w.vector.chunks <;> simp [h, Sink.Event.blank]
  | some c => simp [OpenChunk.close_blank, Sink.Event.blank]

theorem append_blank (w : Writer) (bytes : List UInt8) :
    w.blank.append (zeros bytes.length) = (w.append bytes).blank := by
  unfold append blank
  cases w.current <;> simp [OpenChunk.blank, List.reverseAux_eq]

theorem blanks_shelve : Blanks (modify shelve) (modify shelve) :=
  .modify fun w b ⟨hblind, heq⟩ => ⟨by unfold shelve; split <;> exact hblind, by
    rw [heq, shelve_blank]⟩

theorem blanks_transmit : Blanks transmit transmit := by
  rintro w _ ⟨hblind, rfl⟩
  have hchunks : w.blank.vector.chunks = w.vector.chunks.map Chunk.blank :=
    w.vector.chunks_blank
  have hdeliver : w.blank.sink.deliver w.blank.sink.history (w.vector.chunks.map Chunk.blank)
      = w.sink.deliver w.sink.history w.vector.chunks := hblind.deliver _ _
  unfold transmit
  simp only [hchunks, hdeliver]
  cases w.sink.deliver w.sink.history w.vector.chunks with
  | ok => exact .ok ⟨hblind.record _, by simp [blank, Sink.Event.blank, IoVector.blank]⟩
  | error e => exact .error ⟨hblind.record _, by simp [blank, Sink.Event.blank, IoVector.blank]⟩

theorem blanks_openChunk : Blanks openChunk openChunk := by
  rintro w _ ⟨hblind, rfl⟩
  have hsupply : ∀ capacity, w.blank.sink.supply w.blank.sink.history capacity
      = w.sink.supply w.sink.history capacity := hblind.supply _
  unfold openChunk
  simp only [hsupply, show w.blank.bufferSize = w.bufferSize from rfl,
    show w.blank.position = w.position from rfl]
  cases w.sink.supply w.sink.history (w.bufferSize - w.position % 8) with
  | error e => exact .error ⟨hblind.record _, by simp [blank, Sink.Event.blank]⟩
  | ok buffer =>
    dsimp only
    split
    · exact .ok ⟨hblind.record _, by simp [blank, Sink.Event.blank, OpenChunk.blank]⟩
    · exact .error ⟨hblind.record _, by simp [blank, Sink.Event.blank]⟩

theorem blanks_nextChunk : Blanks nextChunk nextChunk :=
  blanks_shelve.bind fun _ => .see fun w b h => by
    obtain rfl := h.eq
    exact Tandem.ite (blanks_transmit.bind fun _ => blanks_openChunk) blanks_openChunk w _ h

theorem blanks_ensure (n : Nat) : Blanks (ensure n) (ensure n) := by
  have hroom : Blanks (do
      nextChunk
      let w ← get
      if w.room < n then throw (.bufferExhausted (.tooSmall n w.room)) : Put PUnit) (do
      nextChunk
      let w ← get
      if w.room < n then throw (.bufferExhausted (.tooSmall n w.room))) :=
    blanks_nextChunk.bind fun _ => .see fun w b h => by
      obtain rfl := h.eq
      rw [room_blank]
      exact Tandem.ite (.throw _) (.pure _) w _ h
  refine .see fun w b h => ?_
  obtain rfl := h.eq
  have hcurrent : w.blank.current.isNone = w.current.isNone := Option.isNone_map
  rw [room_blank, hcurrent]
  exact Tandem.ite hroom (.pure _) w _ h

/-! ### Bytes and zeros -/

theorem blanks_append {bytes : List UInt8} {n : Nat} (h : bytes.length = n) :
    Blanks (modify (·.append bytes)) (modify (·.append (zeros n))) :=
  .modify fun w _ ⟨hblind, heq⟩ => ⟨hblind, by rw [heq, ← h, append_blank]⟩

theorem blanks_putTogether {bytes : List UInt8} {n : Nat} (h : bytes.length = n) :
    Blanks (putTogether bytes) (putTogether (zeros n)) := by
  unfold putTogether
  rw [h, List.length_replicate]
  exact (blanks_ensure n).bind fun _ => blanks_append h

theorem blanks_align (n : Nat) : Blanks (align n) (align n) := by
  refine .see fun w b h => ?_
  obtain rfl := h.eq
  exact Tandem.ite (blanks_putTogether List.length_replicate) (.pure _) w _ h

theorem blanks_putRunFrom (fuel : Nat) {bytes : List UInt8} {n : Nat} (h : bytes.length = n) :
    Blanks (putRunFrom fuel bytes) (putRunFrom fuel (zeros n)) := by
  induction fuel generalizing bytes n with
  | zero =>
    cases bytes with
    | nil => obtain rfl := h; exact .pure _
    | cons b bs => obtain rfl := h; exact .pure _
  | succ fuel ih =>
    cases bytes with
    | nil => obtain rfl := h; exact .pure _
    | cons b bs =>
      obtain rfl := h
      have hrest : Blanks (do
          let room := (← get).room
          modify (·.append ((b :: bs).take room))
          putRunFrom fuel ((b :: bs).drop room)) (do
          let room := (← get).room
          modify (·.append ((zeros (b :: bs).length).take room))
          putRunFrom fuel ((zeros (b :: bs).length).drop room)) := by
        refine .see fun w c h => ?_
        obtain rfl := h.eq
        rw [room_blank, List.take_replicate, List.drop_replicate]
        exact ((blanks_append (by simp)).bind fun _ => ih (by simp)) w _ h
      refine .see fun w c h => ?_
      obtain rfl := h.eq
      rw [room_blank]
      exact Tandem.ite (blanks_nextChunk.bind fun _ => hrest) hrest w _ h

theorem blanks_putRun {bytes : List UInt8} {n : Nat} (h : bytes.length = n) :
    Blanks (putRun bytes) (putRun (zeros n)) := by
  unfold putRun
  rw [List.length_replicate, h]
  exact blanks_putRunFrom n h

theorem blanks_finish : Blanks finish finish := by
  have hcount : Blanks (do return (← get).position) (do return (← get).position) :=
    .see fun w b h => by
      obtain rfl := h.eq
      exact .ok h
  refine blanks_shelve.bind fun _ => .see fun w b h => ?_
  obtain rfl := h.eq
  exact Tandem.ite (blanks_transmit.bind fun _ => hcount) hcount w _ h

/-! ### Two messages of the same length -/

/-- Two messages that differ in their bytes alone, before transports that do not look at them. -/
structure Twin (w w' : Writer) : Prop where
  blind : w.sink.Blind
  blind' : w'.sink.Blind
  blank : w'.blank = w.blank

theorem Twin.refl {w : Writer} (h : w.sink.Blind) : Twin w w := ⟨h, h, rfl⟩

theorem Twin.position {w w' : Writer} (h : Twin w w') : w'.position = w.position := by
  show w'.blank.position = w.blank.position
  rw [h.blank]

/-- What does the same to zeros does the same. -/
theorem Blanks.tandem {α : Type} {x y z : Put α} (hx : Blanks x z) (hy : Blanks y z) :
    Tandem Twin x y := by
  intro w w' h
  have hxz := hx w w.blank ⟨h.blind, rfl⟩
  have hyz := hy w' w.blank ⟨h.blind', h.blank.symm⟩
  generalize x w = r, y w' = r', z w.blank = q at hxz hyz
  cases hxz with
  | ok h₁ => cases hyz with | ok h₂ => exact .ok ⟨h₁.blind, h₂.blind, h₂.eq.symm.trans h₁.eq⟩
  | error h₁ => cases hyz with | error h₂ => exact .error ⟨h₁.blind, h₂.blind, h₂.eq.symm.trans h₁.eq⟩

end Writer

end Ndr
