import Ndr.Proofs.Lockstep.Operation
import Ndr.Proofs.Marshal.Plan
import Ndr.Proofs.Recutting

/-!
The byte order of a message arranges the bytes of its words, and does nothing else. An operation in
big-endian order goes as in little-endian order, to the same result in the same surroundings, and
cuts its message into chunks of the same sizes. The two messages have the same fields: padding,
single bytes and the last eight bytes of a token are the same, and the bytes of each scalar, count,
node id and integer of a token are reversed in place.
-/

namespace Ndr.Machine

/-- The same machine with another byte order. -/
def inOrder (m : Machine) (order : ByteOrder) : Machine :=
  { m with representation := m.representation.inOrder order }

variable {m : Machine} {world : Surroundings} {offset : Nat} {params : List Value} {sink : Sink}

/-- Operations that write alike up to the bytes end alike. -/
theorem marshal_alike {order order' : ByteOrder}
    (h : EndsAlike Marshal.Plan.Beside
      (Marshal.putParameters ((m.inOrder order).writing world) offset params
        { world with writer := .new sink m.config })
      (Marshal.putParameters ((m.inOrder order').writing world) offset params
        { world with writer := .new sink m.config })) :
    let o := (m.inOrder order).marshal world offset params sink
    let o' := (m.inOrder order').marshal world offset params sink
    o'.result = o.result ∧ o'.surroundings = o.surroundings ∧
      o'.machine = o.machine.inOrder order' ∧ o'.transport.blank = o.transport.blank := by
  have hfinish := Writer.blanks_finish.tandem Writer.blanks_finish
  generalize hr : Marshal.putParameters ((m.inOrder order).writing world) offset params
      { world with writer := .new sink m.config } = r,
    hr' : Marshal.putParameters ((m.inOrder order').writing world) offset params
      { world with writer := .new sink m.config } = r' at h
  unfold marshal
  dsimp only [writing, startOperation, inOrder] at hr hr' ⊢
  rw [hr, hr']
  cases h with
  | error hbeside =>
    obtain ⟨hw, ht⟩ := hbeside
    refine ⟨rfl, by rw [ht], by rw [ht]; rfl, ?_⟩
    rw [← Writer.abandon_blank, ← Writer.abandon_blank, hw.blank]
  | @ok _ s t hbeside =>
    obtain ⟨hw, ht⟩ := hbeside
    have hends := hfinish _ _ hw
    dsimp only
    generalize Writer.finish s.writer = q, Writer.finish t.writer = q' at hends
    cases hends with
    | ok hw' => exact ⟨rfl, by rw [ht], by rw [ht]; rfl, congrArg Writer.sink hw'.blank⟩
    | error hw' => exact ⟨rfl, by rw [ht], by rw [ht]; rfl, congrArg Writer.sink hw'.blank⟩

/-- How an operation goes in big-endian order, beside how it goes in little-endian order. -/
structure Mirrored (m : Machine) (world : Surroundings) (offset : Nat) (params : List Value)
    (sink : Sink) (big little : Outcome Sink Nat) : Prop where
  /-- It counts the same bytes, or comes to the same fault. -/
  result : big.result = little.result
  surroundings : big.surroundings = little.surroundings
  machine : big.machine = little.machine.inOrder .big
  /-- The chunks are the same, but for their bytes. -/
  transport : big.transport.blank = little.transport.blank
  /-- The fields are those of one plan, which the operation follows in either order. -/
  message : ∃ plan : Marshal.Plan Unit,
    (∀ order, Marshal.putParameters ((m.inOrder order).writing world) offset params
      = plan.run (m.representation.inOrder order)) ∧
    ∀ n, little.result = .ok n →
      let fields := plan.fields m.representation { world with writer := .new sink m.config }
      n = (fields.map Field.size).sum ∧
        little.transport.message = sink.message ++ encodeFields .little fields ∧
        big.transport.message = sink.message ++
          reverseUnits (fields.flatMap Field.units) (encodeFields .little fields)

/-- **Byte order only permutes bytes inside scalars**: a machine in big-endian order writes as it
does in little-endian order, with the bytes of each word reversed in place and nothing else
changed, for any transport that does not look at the bytes. -/
theorem marshal_mirrored (m : Machine) (hconfig : m.config.check = .ok ()) (world : Surroundings)
    (offset : Nat) (params : List Value) {sink : Sink} (hblind : sink.Blind) :
    m.Mirrored world offset params sink ((m.inOrder .big).marshal world offset params sink)
      ((m.inOrder .little).marshal world offset params sink) := by
  obtain ⟨plan, hplan⟩ := Marshal.exists_plan (m.writing world) offset params
  have hplan : ∀ order, Marshal.putParameters ((m.inOrder order).writing world) offset params
      = plan.run (m.representation.inOrder order) := hplan
  let start : Marshal.State := { world with writer := .new sink m.config }
  have hbeside : Marshal.Plan.Beside start start := ⟨.refl hblind, rfl⟩
  have hends := plan.tandem_run (m.representation.inOrder .little) .big start start hbeside
  rw [show (m.representation.inOrder .little).inOrder .big = m.representation.inOrder .big from rfl,
    ← hplan, ← hplan] at hends
  obtain ⟨hresult, hworld, hmachine, htransport⟩ := marshal_alike hends
  have hbuffer : 8 ≤ start.writer.bufferSize := ((Config.check_eq_ok_iff _).1 hconfig).1
  -- in either order a message that went through has the fields of the plan
  have hmessage : ∀ order n, ((m.inOrder order).marshal world offset params sink).result = .ok n →
      n = ((plan.fields m.representation start).map Field.size).sum ∧
        ((m.inOrder order).marshal world offset params sink).transport.message
          = sink.message ++ encodeFields order (plan.fields m.representation start) := by
    intro order n h
    obtain ⟨t, hput, hn, hsent⟩ := Lockstep.marshal_eq_ok h
    rw [hplan] at hput
    have hwrote := plan.wrote_run _ hbuffer hput
    rw [plan.fields_inOrder _ _ hbeside] at hwrote
    refine ⟨?_, ?_⟩
    · rw [hn, hwrote.position, length_encodeFields]
      exact Nat.zero_add _
    · rw [hsent, hwrote.output]
      exact congrArg (· ++ _) (Writer.output_new sink m.config)
  refine ⟨hresult, hworld, hmachine, htransport, plan, hplan, fun n hn => ?_⟩
  obtain ⟨hsize, hlittle⟩ := hmessage .little n hn
  obtain ⟨-, hbig⟩ := hmessage .big n (hresult.trans hn)
  exact ⟨hsize, hlittle, by rw [hbig, encodeFields_big]⟩

/-- A machine for a byte and a long, with the smallest chunks. -/
def narrow : Machine where
  interface := { vector := byteLongVector }
  config := { bufferSize := 8 }

/-- A byte, its padding and a long. -/
theorem marshal_mirrored_byteLong :
    let params : List Value := [.byte 5, .long 0x01020304]
    let big := (narrow.inOrder .big).marshal {} 12 params .reliable
    let little := (narrow.inOrder .little).marshal {} 12 params .reliable
    little.result = .ok 8 ∧ little.transport.message = [5, 0, 0, 0, 4, 3, 2, 1] ∧
      big.transport.message = [5, 0, 0, 0, 1, 2, 3, 4] ∧
      narrow.Mirrored {} 12 params .reliable big little :=
  have hlittle : ((narrow.inOrder .little).marshal {} 12 [.byte 5, .long 0x01020304]
      .reliable).transport.message = [5, 0, 0, 0, 4, 3, 2, 1] := by decide +kernel
  have hbig : ((narrow.inOrder .big).marshal {} 12 [.byte 5, .long 0x01020304]
      .reliable).transport.message = [5, 0, 0, 0, 1, 2, 3, 4] := by decide +kernel
  ⟨by decide +kernel, hlittle, hbig,
    marshal_mirrored narrow (by decide) {} 12 [.byte 5, .long 0x01020304] Sink.blind_reliable⟩

end Ndr.Machine
