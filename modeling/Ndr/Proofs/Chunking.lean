import Ndr.Proofs.Marshal.Packing

/-!
A message is one stream of bytes, however it is cut: the sizes of chunks and vectors decide where
the cuts are, and nothing else.
-/

namespace Ndr

namespace Writer

variable {b v : Nat} {bytes : List UInt8} {sent : List (List Chunk)}

/-- The `n` bytes of a message from `p` on are in one chunk. -/
def Together (b : Nat) (bytes : List UInt8) (sent : List (List Chunk)) (p n : Nat) : Prop :=
  ∃ c, sent.flatten[p / b]? = some c ∧ p % b + n ≤ c.size ∧
    (c.toList.drop (p % b)).take n = (bytes.drop p).take n

/-- A message in chunks of `b` bytes, `v` of them to a vector. -/
structure Chunked (b v : Nat) (bytes : List UInt8) (sent : List (List Chunk)) : Prop
    extends Cut b v bytes sent where
  /-- A buffer that is long enough holds it all. -/
  whole : bytes.length ≤ b → sent = if bytes = [] then [] else [[bytes.toArray]]
  /-- No aligned word is cut. -/
  words : ∀ width p, width ∣ 8 → width ∣ p → 0 < width → p + width ≤ bytes.length →
    Together b bytes sent p width
  /-- No padding is cut. -/
  paddings : ∀ width p, width ∣ 8 → 0 < padding p width → p + padding p width ≤ bytes.length →
    Together b bytes sent p (padding p width)

theorem Cut.chunked (h : Cut b v bytes sent) (he : b % 8 = 0) : Chunked b v bytes sent where
  toCut := h
  whole := h.whole
  words _ _ hw hp hn hle := h.together he (mod_eight_add_le hw hp) hn hle
  paddings _ _ hw hn hle := h.together he (mod_eight_add_padding_le hw _) hn hle

end Writer

namespace Machine

/-- A machine with chunks and vectors of other sizes. -/
def resized (m : Machine) (b v : Nat) : Machine :=
  { m with config := { m.config with bufferSize := b, vectorSize := v } }

/-- What became of the stream of a message that ended in `r`, at a transport that was `sink`
before. -/
structure Streamed (b v : Nat) (r : Except Fault Unit) (stream : List UInt8) (sink : Sink)
    (o : Outcome Sink Nat) : Prop where
  /-- The bytes are counted. -/
  result : o.result = r.map fun _ => stream.length
  /-- All buffers have the full size. -/
  asked : ∃ n, o.transport.asked = sink.asked ++ List.replicate n b
  sent : r = .ok () → ∃ sent, o.transport.vectors = sink.vectors ++ sent ∧
    o.transport.released = sink.released ∧ Writer.Chunked b v stream sent
  /-- What was written of a message that failed went through in full vectors, or is given back. -/
  failed : ∀ e, r = .error e → ∃ sent pending, o.transport.vectors = sink.vectors ++ sent ∧
    o.transport.released = sink.released ++ pending ∧ (∀ cs ∈ sent, cs.length = v) ∧
    (∀ c ∈ (sent.flatten ++ pending).dropLast, c.size = b) ∧
    (sent.flatten ++ pending).flatMap Array.toList = stream

/-- **A message is one stream**: what is written of the parameters, and whether that succeeds, is
the same for chunks and vectors of any size, which cut the stream and do no more. No buffer is too
small for what has to stay together. -/
theorem marshal_streamed (m : Machine) (world : Surroundings) (offset : Nat)
    (params : List Value) :
    ∃ (result : Except Fault Unit) (stream : List UInt8) (after : Surroundings),
      (∀ e, result = .error e → e.IsExhaustion →
        Marshal.Answered m.interface (world.pipes.map (·.application)) e) ∧
      ∀ b v sink, 0 < b → b % 8 = 0 → 0 < v → sink.Obliging →
        Streamed b v result stream sink ((m.resized b v).marshal world offset params sink) ∧
        ((m.resized b v).marshal world offset params sink).surroundings = after := by
  let env : Marshal.Env := { m.startOperation, world with }
  have huniform : Marshal.Uniform env.interface (world.pipes.map (·.application))
      (Marshal.putParameters env offset params) := Marshal.uniform_putParameters offset params
  obtain ⟨r, f, hgoes⟩ := huniform
    { out := [], nodes := {}, deferred := [], pipes := world.pipes, calls := world.calls } rfl
  refine ⟨r, f.out, { world with pipes := f.pipes, calls := f.calls }, hgoes.fault, ?_⟩
  intro b v sink hpos he hv hsink
  have hnew : Writer.Packs sink b v [] (.new sink (m.resized b v).config) :=
    Writer.packs_new hsink (show 8 ≤ b by omega) he hv
  obtain ⟨w, hrun, hw⟩ := hgoes.runs hnew
  have hrun : Marshal.putParameters { (m.resized b v).startOperation, world with } offset params
      { world with writer := .new sink (m.resized b v).config } = Writer.ended r (f.on w) :=
    (congrFun (congrFun (congrFun (Marshal.putParameters_resized env b v) offset) params) _).trans hrun
  unfold marshal
  dsimp only
  split
  · rename_i e s hs
    have hs := hrun.symm.trans hs
    cases r with
    | ok => exact absurd hs (by simp [Writer.ended])
    | error =>
      obtain ⟨rfl, rfl⟩ := EStateM.Result.error.inj hs
      obtain ⟨sent, pending, hvectors, hreleased, hasked, hlong, hfull, hout⟩ := hw.abandon
      refine ⟨⟨rfl, hasked, by simp, ?_⟩, rfl⟩
      rintro _ -
      exact ⟨sent, pending, hvectors, hreleased, hlong, hfull, hout⟩
  · rename_i s hs
    have hs := hrun.symm.trans hs
    cases r with
    | error => exact absurd hs (by simp [Writer.ended])
    | ok =>
      obtain ⟨-, rfl⟩ := EStateM.Result.ok.inj hs
      obtain ⟨w', sent, hfinish, hsince, hcut⟩ := hw.finish
      rw [show (f.on w).writer.finish = _ from hfinish]
      refine ⟨⟨rfl, hsince.asked, fun _ => ?_, by simp⟩, rfl⟩
      exact ⟨sent, hsince.vectors, hsince.released, hcut.chunked he⟩

/-- A vector whose only parameter list, at 12, has three longs. -/
def longsVector : TypeVector where
  bytes := #[8, 0, 10, 0, 1, 255, 255, 255, 0, 0, 0, 0, 3, 0, 0, 0, 0, 0, 0, 0, 9, 254, 255, 255,
    1, 0, 0, 0, 9, 254, 255, 255, 2, 0, 0, 0, 9, 254]
  order := .little
  minor := 10

/-- Three longs in the smallest chunks, one at a time. -/
theorem marshal_streamed_longs :
    let m : Machine := { interface := { vector := longsVector } }
    let o := (m.resized 8 1).marshal {} 12 [.long 1, .long 2, .long 3] .reliable
    o.result = .ok 12 ∧ o.transport.vectors = [[#[1, 0, 0, 0, 2, 0, 0, 0]], [#[3, 0, 0, 0]]] ∧
      ∃ r stream, Streamed 8 1 r stream .reliable o :=
  have ho : (Machine.marshal (resized { interface := { vector := longsVector } } 8 1) {} 12
      [.long 1, .long 2, .long 3] .reliable).result = .ok 12 := by decide +kernel
  have hv : (Machine.marshal (resized { interface := { vector := longsVector } } 8 1) {} 12
      [.long 1, .long 2, .long 3] .reliable).transport.vectors =
        [[#[1, 0, 0, 0, 2, 0, 0, 0]], [#[3, 0, 0, 0]]] := by decide +kernel
  ⟨ho, hv, by
    obtain ⟨r, stream, _, -, h⟩ := marshal_streamed { interface := { vector := longsVector } } {} 12
      [.long 1, .long 2, .long 3]
    exact ⟨r, stream, (h 8 1 .reliable (by decide) (by decide) (by decide) Sink.obliging_reliable).1⟩⟩

end Machine

end Ndr
