import Ndr.Proofs.Action
import Ndr.Wire.Word

/-!
What is written is read back: a step of the writer adds some bytes to the message, and the step of
the reader that belongs to it takes exactly these, however either cuts the message into chunks.
-/

namespace Ndr

/-! ### Messages as a whole -/

/-- All that was written: what the transport took and what waits for it. -/
def Writer.output (w : Writer) : List UInt8 := w.sink.message ++ w.waiting

namespace Writer

variable {w w' : Writer} {u : Unit}

/-- What a step did that wrote `bytes`. -/
structure Wrote (w w' : Writer) (bytes : List UInt8) : Prop where
  output : w'.output = w.output ++ bytes
  position : w'.position = w.position + bytes.length
  bufferSize : w'.bufferSize = w.bufferSize

namespace Wrote

theorem refl : Wrote w w [] := ⟨(List.append_nil _).symm, rfl, rfl⟩

theorem trans {w'' : Writer} {bytes bytes' : List UInt8} (h : Wrote w w' bytes)
    (h' : Wrote w' w'' bytes') : Wrote w w'' (bytes ++ bytes') where
  output := by rw [h'.output, h.output, List.append_assoc]
  position := by rw [h'.position, h.position, List.length_append, Nat.add_assoc]
  bufferSize := h'.bufferSize.trans h.bufferSize

end Wrote

/-! ### Chunks -/

theorem sink_shelve (w : Writer) : w.shelve.sink = w.sink := by
  unfold shelve
  split <;> rfl

theorem wrote_shelve : Wrote w w.shelve [] ∧ w.shelve.current = none := by
  unfold shelve
  cases hc : w.current with
  | none => exact ⟨Wrote.refl, hc⟩
  | some c =>
    refine ⟨⟨?_, rfl, rfl⟩, rfl⟩
    cases hw : c.written with
    | nil => simp [output, waiting, hc, hw]
    | cons b bs => simp [output, waiting, hc, hw, OpenChunk.close]

theorem message_record_transmitted (s : Sink) (chunks : List Chunk) :
    (s.record (.transmitted chunks)).message = s.message ++ chunks.flatMap Array.toList := by
  simp [Sink.message, Sink.chunks, Sink.record, Sink.events, Sink.History.record, Sink.Event.sent]

theorem message_record {s : Sink} {e : Sink.Event} (h : e.sent = []) :
    (s.record e).message = s.message := by
  simp [Sink.message, Sink.chunks, Sink.record, Sink.events, Sink.History.record, h]

theorem wrote_transmit (h : transmit w = .ok u w') :
    Wrote w w' [] ∧ w'.current = w.current ∧ w'.vector = {} := by
  unfold transmit at h
  dsimp only at h
  split at h
  · cases h
    refine ⟨⟨?_, rfl, rfl⟩, rfl, rfl⟩
    simp [output, waiting, message_record_transmitted, IoVector.chunks]
  · exact absurd h (by simp)

theorem wrote_openChunk (hc : w.current = none) (h : openChunk w = .ok u w') :
    Wrote w w' [] ∧ w'.current = some ⟨[], w.bufferSize - w.position % 8⟩ := by
  unfold openChunk at h
  dsimp only at h
  split at h
  · exact absurd h (by simp)
  · split at h
    · cases h
      refine ⟨⟨?_, rfl, rfl⟩, rfl⟩
      have := message_record (s := w.sink)
        (e := .supplied (w.bufferSize - w.position % 8)) rfl
      simp [output, waiting, hc, this]
    · exact absurd h (by simp)

theorem wrote_nextChunk (h : nextChunk w = .ok u w') :
    Wrote w w' [] ∧ w'.current = some ⟨[], w.bufferSize - w.position % 8⟩ := by
  unfold nextChunk at h
  obtain ⟨_, w1, h1, e1⟩ := bind_eq_ok.1 h
  obtain rfl := modify_eq_ok.1 h1
  obtain ⟨w2, _, h2, e2⟩ := bind_eq_ok.1 e1
  obtain ⟨rfl, rfl⟩ := get_eq_ok.1 h2
  obtain ⟨hs, hn⟩ := wrote_shelve (w := w)
  dsimp only at e2
  split at e2
  · obtain ⟨_, w3, h3, e3⟩ := bind_eq_ok.1 e2
    obtain ⟨ht, hcur, -⟩ := wrote_transmit h3
    obtain ⟨ho, hcap⟩ := wrote_openChunk (hcur.trans hn) e3
    refine ⟨(hs.trans ht).trans ho, ?_⟩
    rw [hcap, (hs.trans ht).bufferSize, (hs.trans ht).position]
    rfl
  · obtain ⟨ho, hcap⟩ := wrote_openChunk hn e2
    refine ⟨hs.trans ho, ?_⟩
    rw [hcap, hs.bufferSize, hs.position]
    rfl

theorem wrote_ensure {n : Nat} (h : ensure n w = .ok u w') :
    Wrote w w' [] ∧ w'.current.isSome ∧ n ≤ w'.room := by
  unfold ensure at h
  obtain ⟨_, _, h1, e1⟩ := bind_eq_ok.1 h
  obtain ⟨rfl, rfl⟩ := get_eq_ok.1 h1
  split at e1
  · obtain ⟨_, w2, h2, e2⟩ := bind_eq_ok.1 e1
    obtain ⟨_, _, h3, e3⟩ := bind_eq_ok.1 e2
    obtain ⟨rfl, rfl⟩ := get_eq_ok.1 h3
    obtain ⟨hw, hcur⟩ := wrote_nextChunk h2
    split at e3
    · exact absurd e3 throw_ne_ok
    · rename_i hroom
      obtain ⟨-, rfl⟩ := pure_eq_ok.1 e3
      exact ⟨hw, by rw [hcur]; rfl, Nat.not_lt.1 hroom⟩
  · rename_i hroom
    obtain ⟨-, rfl⟩ := pure_eq_ok.1 e1
    obtain ⟨h1, h2⟩ := not_or.1 hroom
    refine ⟨Wrote.refl, ?_, Nat.not_lt.1 h2⟩
    cases hc : w.current with
    | none => simp [hc] at h1
    | some c => rfl

theorem wrote_append (hc : w.current.isSome) (bytes : List UInt8) :
    Wrote w (w.append bytes) bytes := by
  obtain ⟨c, hc⟩ := Option.isSome_iff_exists.1 hc
  refine ⟨?_, rfl, rfl⟩
  simp [output, waiting, append, hc, List.reverseAux_eq]

/-! ### Bytes and padding -/

theorem wrote_putTogether {bytes : List UInt8} (h : putTogether bytes w = .ok u w') :
    Wrote w w' bytes := by
  unfold putTogether at h
  obtain ⟨_, w1, h1, e1⟩ := bind_eq_ok.1 h
  obtain ⟨hw, hc, -⟩ := wrote_ensure h1
  obtain rfl := modify_eq_ok.1 e1
  exact hw.trans (wrote_append hc bytes)

theorem wrote_align {n : Nat} (h : align n w = .ok u w') :
    Wrote w w' (List.replicate (padding w.position n) 0) := by
  unfold align at h
  obtain ⟨_, _, h1, e1⟩ := bind_eq_ok.1 h
  obtain ⟨rfl, rfl⟩ := get_eq_ok.1 h1
  split at e1
  · exact wrote_putTogether e1
  · rename_i hp
    obtain ⟨-, rfl⟩ := pure_eq_ok.1 e1
    rw [Decidable.not_not.1 hp]
    exact Wrote.refl

/-- A run goes out whole: every chunk takes a byte of it at least. -/
theorem wrote_putRunFrom (hb : 8 ≤ w.bufferSize) {fuel : Nat} {bytes : List UInt8}
    (hf : bytes.length ≤ fuel) (h : putRunFrom fuel bytes w = .ok u w') : Wrote w w' bytes := by
  induction fuel generalizing bytes w with
  | zero =>
    obtain rfl := List.length_eq_zero_iff.1 (Nat.le_zero.1 hf)
    obtain ⟨-, rfl⟩ := pure_eq_ok.1 h
    exact Wrote.refl
  | succ fuel ih =>
    cases bytes with
    | nil =>
      obtain ⟨-, rfl⟩ := pure_eq_ok.1 h
      exact Wrote.refl
    | cons b bs =>
      -- behind the first check there is a chunk with room
      have hrest : ∀ {w : Writer}, 8 ≤ w.bufferSize → w.current.isSome → 0 < w.room →
          (do
            let room := (← get).room
            modify (·.append ((b :: bs).take room))
            putRunFrom fuel ((b :: bs).drop room) : Put Unit) w = .ok u w' →
          Wrote w w' (b :: bs) := by
        intro w hb hc hr h
        obtain ⟨_, _, h1, e1⟩ := bind_eq_ok.1 h
        obtain ⟨rfl, rfl⟩ := get_eq_ok.1 h1
        obtain ⟨_, w2, h2, e2⟩ := bind_eq_ok.1 e1
        obtain rfl := modify_eq_ok.1 h2
        have hw := wrote_append hc ((b :: bs).take w.room)
        have hlen : ((b :: bs).drop w.room).length ≤ fuel := by
          rw [List.length_drop]
          omega
        have := hw.trans (ih (hw.bufferSize ▸ hb) hlen e2)
        rwa [List.take_append_drop] at this
      unfold putRunFrom at h
      obtain ⟨_, _, h1, e1⟩ := bind_eq_ok.1 h
      obtain ⟨rfl, rfl⟩ := get_eq_ok.1 h1
      split at e1
      · obtain ⟨_, w2, h2, e2⟩ := bind_eq_ok.1 e1
        obtain ⟨hw, hcur⟩ := wrote_nextChunk h2
        have := hw.trans (hrest (hw.bufferSize ▸ hb) (by rw [hcur]; rfl) ?_ e2)
        · rwa [List.nil_append] at this
        · simp only [room, hcur]
          omega
      · rename_i hroom
        refine hrest hb ?_ (Nat.pos_of_ne_zero hroom) e1
        unfold room at hroom
        cases hc : w.current with
        | none => simp [hc] at hroom
        | some c => rfl

theorem wrote_putRun (hb : 8 ≤ w.bufferSize) {bytes : List UInt8}
    (h : putRun bytes w = .ok u w') : Wrote w w' bytes :=
  wrote_putRunFrom hb (Nat.le_refl _) h

/-! ### The end of a message -/

/-- Finishing hands over all that was written, and counts it. -/
theorem finish_eq_ok {n : Nat} (h : finish w = .ok n w') :
    n = w.position ∧ w'.sink.message = w.output := by
  unfold finish at h
  obtain ⟨_, w1, h1, e1⟩ := bind_eq_ok.1 h
  obtain rfl := modify_eq_ok.1 h1
  obtain ⟨_, _, h2, e2⟩ := bind_eq_ok.1 e1
  obtain ⟨rfl, rfl⟩ := get_eq_ok.1 h2
  obtain ⟨hs, hn⟩ := wrote_shelve (w := w)
  -- with no chunk open and no vector waiting, the transport took everything
  have hdone : ∀ {v : Writer}, Wrote w v [] → v.current = none → v.vector.chunks = [] →
      v.position = w.position ∧ v.sink.message = w.output := by
    intro v hv hc hch
    refine ⟨hv.position, ?_⟩
    have := hv.output
    rwa [output, waiting, hc, hch, List.append_nil, List.flatMap_nil, List.append_nil,
      List.append_nil] at this
  split at e2
  · obtain ⟨_, w3, h3, e3⟩ := bind_eq_ok.1 e2
    obtain ⟨_, _, h4, e4⟩ := bind_eq_ok.1 e3
    obtain ⟨rfl, rfl⟩ := get_eq_ok.1 h4
    obtain ⟨rfl, rfl⟩ := pure_eq_ok.1 e4
    obtain ⟨ht, hcur, hvec⟩ := wrote_transmit h3
    exact hdone (hs.trans ht) (hcur.trans hn) (by rw [hvec]; rfl)
  · rename_i hz
    obtain ⟨_, _, h4, e4⟩ := bind_eq_ok.1 e2
    obtain ⟨rfl, rfl⟩ := get_eq_ok.1 h4
    obtain ⟨rfl, rfl⟩ := pure_eq_ok.1 e4
    refine hdone hs hn (List.length_eq_zero_iff.1 ?_)
    rw [IoVector.length_chunks]
    exact Decidable.not_not.1 hz

theorem output_new (sink : Sink) (config : Config) :
    (Writer.new sink config).output = sink.message := by
  simp [output, waiting, Writer.new, IoVector.chunks]

end Writer

namespace Reader

variable {r : Reader} {bytes tail : List UInt8}

/-! ### Bytes that are there -/

/-- What a step did that read `n` bytes, and left `tail`. -/
structure Took (r r' : Reader) (n : Nat) (tail : List UInt8) : Prop where
  rest : r'.rest = tail
  position : r'.position = r.position + n

theorem ensureFrom_ok {n : Nat} {ds : List Delivery} (hd : r.source.pending = ds)
    (h : n ≤ r.rest.length) :
    ∃ r', ensureFrom n ds r = .ok () r' ∧ Took r r' 0 r.rest ∧ n ≤ r'.current.length := by
  induction ds generalizing r with
  | nil =>
    have hr : r.rest = r.current := by simp [rest, Source.bytes, hd, Source.bytes.go]
    have hn : n ≤ r.current.length := hr ▸ h
    exact ⟨r, by simp [ensureFrom, hasAtLeast_iff, hn], ⟨rfl, rfl⟩, hn⟩
  | cons d ds ih =>
    by_cases hn : n ≤ r.current.length
    · refine ⟨r, ?_, ⟨rfl, rfl⟩, hn⟩
      cases d <;> simp [ensureFrom, hasAtLeast_iff, hn]
    · cases d with
      | fault e =>
        have hr : r.rest = r.current := by simp [rest, Source.bytes, hd, Source.bytes.go]
        exact absurd (hr ▸ h) hn
      | chunk bytes =>
        have hr : (r.take bytes ds).rest = r.rest := by
          simp [rest, Reader.take, Source.bytes, hd, Source.bytes.go]
        obtain ⟨r', hok, ht, hlen⟩ := ih (r := r.take bytes ds) rfl (by rw [hr]; exact h)
        refine ⟨r', ?_, ⟨ht.rest.trans hr, ht.position⟩, hlen⟩
        simpa [ensureFrom, hasAtLeast_iff, hn] using hok

theorem ensure_ok {n : Nat} (h : n ≤ r.rest.length) :
    ∃ r', ensure n r = .ok () r' ∧ Took r r' 0 r.rest ∧ n ≤ r'.current.length := by
  obtain ⟨r', hok, h'⟩ := ensureFrom_ok rfl h
  exact ⟨r', bind_eq_ok.2 ⟨r, r, get_eq_ok.2 ⟨rfl, rfl⟩, hok⟩, h'⟩

/-- Passing bytes of the chunk being read. -/
theorem took_pass {n : Nat} (h : n ≤ r.current.length) :
    Took r (r.pass n) n (r.rest.drop n) where
  rest := by simp [Reader.rest, pass, List.drop_append_of_le_length h]
  position := rfl

theorem getTogether_ok (h : r.rest = bytes ++ tail) :
    ∃ r', getTogether bytes.length r = .ok bytes r' ∧ Took r r' bytes.length tail := by
  obtain ⟨r', hok, ht, hlen⟩ := ensure_ok (r := r) (n := bytes.length) (by rw [h]; simp)
  have hp := took_pass hlen
  have htake : r'.current.take bytes.length = bytes := by
    have hrest : r'.current ++ r'.source.bytes = bytes ++ tail := ht.rest.trans h
    calc r'.current.take bytes.length
        = (r'.current ++ r'.source.bytes).take bytes.length :=
          (List.take_append_of_le_length hlen).symm
      _ = bytes := by rw [hrest, List.take_left]
  refine ⟨r'.pass bytes.length, ?_, ?_, ?_⟩
  · exact bind_eq_ok.2 ⟨(), r', hok, modifyGet_eq_ok.2 (by rw [htake])⟩
  · rw [hp.rest, ht.rest, h, List.drop_left]
  · rw [hp.position, ht.position, Nat.add_zero]

theorem align_ok {n : Nat} (h : r.rest = List.replicate (padding r.position n) 0 ++ tail) :
    ∃ r', align n r = .ok () r' ∧ Took r r' (padding r.position n) tail := by
  unfold align
  by_cases hp : padding r.position n = 0
  · refine ⟨r, bind_eq_ok.2 ⟨r, r, get_eq_ok.2 ⟨rfl, rfl⟩, ?_⟩, ?_, ?_⟩
    · rw [if_neg (not_not_intro hp)]
      rfl
    · rw [h, hp]
      rfl
    · rw [hp, Nat.add_zero]
  · obtain ⟨r', hok, ht⟩ := getTogether_ok h
    rw [List.length_replicate] at hok ht
    refine ⟨r', bind_eq_ok.2 ⟨r, r, get_eq_ok.2 ⟨rfl, rfl⟩, ?_⟩, ht⟩
    rw [if_pos hp]
    exact bind_eq_ok.2 ⟨_, r', hok, rfl⟩

/-- What the chunk being read has of a run. -/
theorem split_run (h : r.rest = bytes ++ tail) :
    r.current.take bytes.length = bytes.take r.current.length ∧
      r.current.drop bytes.length ++ r.source.bytes = bytes.drop r.current.length ++ tail := by
  rcases List.append_eq_append_iff.1 h with ⟨more, rfl, hs⟩ | ⟨more, hc, rfl⟩
  · simp [hs, List.take_of_length_le]
  · simp [hc, List.take_of_length_le]

/-- A run is read whole, a chunk at a time. -/
theorem getRunFrom_ok {fuel : Nat} (hf : bytes.length ≤ fuel) (before : List (List UInt8))
    (h : r.rest = bytes ++ tail) :
    ∃ r', getRunFrom fuel bytes.length before r = .ok (before.reverse.flatten ++ bytes) r' ∧
      Took r r' bytes.length tail := by
  induction fuel generalizing r bytes before with
  | zero =>
    obtain rfl := List.length_eq_zero_iff.1 (Nat.le_zero.1 hf)
    exact ⟨r, by simp [getRunFrom, pure_eq_ok], h, rfl⟩
  | succ fuel ih =>
    by_cases hne : bytes = []
    · subst hne
      exact ⟨r, by simp [getRunFrom, pure_eq_ok], h, rfl⟩
    -- behind the first check a chunk has bytes left
    have hrest : ∀ {r : Reader}, r.rest = bytes ++ tail → r.current ≠ [] → ∃ r',
        (do
          let piece ← modifyGet fun r : Reader =>
            let piece := r.current.take bytes.length
            (piece, { r with
              current := r.current.drop bytes.length
              position := r.position + piece.length })
          getRunFrom fuel (bytes.length - piece.length) (piece :: before) : Fetch _) r
            = .ok (before.reverse.flatten ++ bytes) r' ∧ Took r r' bytes.length tail := by
      intro r h hc
      obtain ⟨htake, hdrop⟩ := split_run h
      have hpos : 0 < r.current.length := List.length_pos_iff.2 hc
      have hpos' : 0 < bytes.length := List.length_pos_iff.2 hne
      have hlen : bytes.length - (r.current.take bytes.length).length
          = (bytes.drop r.current.length).length := by
        simp only [List.length_take, List.length_drop]
        omega
      have hfuel : (bytes.drop r.current.length).length ≤ fuel := by
        rw [List.length_drop]
        omega
      obtain ⟨r', hok, ht⟩ := ih (r := { r with
        current := r.current.drop bytes.length
        position := r.position + (r.current.take bytes.length).length })
        hfuel (bytes.take r.current.length :: before) hdrop
      refine ⟨r', bind_eq_ok.2 ⟨_, _, modifyGet_eq_ok.2 rfl, ?_⟩, ht.rest, ?_⟩
      · rw [hlen, htake] at *
        simpa [List.append_assoc] using hok
      · refine ht.position.trans ?_
        simp only [List.length_take, List.length_drop]
        omega
    obtain ⟨b, bs, rfl⟩ := List.exists_cons_of_ne_nil hne
    show ∃ r', (do
      if (← get).current.isEmpty then ensure 1
      let piece ← modifyGet fun r : Reader =>
        let piece := r.current.take (b :: bs).length
        (piece, { r with
          current := r.current.drop (b :: bs).length
          position := r.position + piece.length })
      getRunFrom fuel ((b :: bs).length - piece.length) (piece :: before) : Fetch _) r = _ ∧ _
    by_cases hc : r.current = []
    · obtain ⟨r1, hok, ht1, hlen⟩ := ensure_ok (r := r) (n := 1) (by rw [h]; simp)
      obtain ⟨r2, hok2, ht2⟩ := hrest (ht1.rest.trans h) (List.length_pos_iff.1 hlen)
      refine ⟨r2, bind_eq_ok.2 ⟨r, r, get_eq_ok.2 ⟨rfl, rfl⟩, ?_⟩, ht2.rest, ?_⟩
      · rw [if_pos (by rw [hc]; rfl)]
        exact bind_eq_ok.2 ⟨(), r1, hok, hok2⟩
      · rw [ht2.position, ht1.position, Nat.add_zero]
    · obtain ⟨r2, hok2, ht2⟩ := hrest h hc
      refine ⟨r2, bind_eq_ok.2 ⟨r, r, get_eq_ok.2 ⟨rfl, rfl⟩, ?_⟩, ht2⟩
      rw [if_neg (by simpa using hc)]
      exact hok2

theorem getRun_ok (h : r.rest = bytes ++ tail) :
    ∃ r', getRun bytes.length r = .ok bytes r' ∧ Took r r' bytes.length tail :=
  getRunFrom_ok (Nat.le_refl _) [] h

end Reader

/-! ### Values as words -/

theorem Scalar.checkEnum_eq_ok {kind : Scalar} {v : Int} :
    kind.checkEnum v = .ok () ↔ (kind = enum → 0 ≤ v ∧ v ≤ enumMax) := by
  grind [checkEnum]

/-- The low half of an enumeration that is not negative is the enumeration. -/
theorem toInt32_mod {v : Int32} (h : 0 ≤ v.toInt ∧ v.toInt ≤ Scalar.enumMax) :
    v.toUInt32.toNat % 2 ^ 16 = v.toUInt32.toNat := by
  have hv : (v.toUInt32.toNat : Int) = v.toInt := by
    rw [Int32.toNat_toUInt32_of_le (Int32.le_iff_toInt_le.2 h.1)]
    exact Int.toNat_of_nonneg h.1
  have : Scalar.enumMax = 32767 := rfl
  omega

/-- A value is the one that its word holds. -/
theorem Scalar.ofWord_word? {kind : Scalar} {v : Value} {n : Nat} (h : kind.word? v = some n)
    (he : kind.checkEnum (v.toInt?.getD 0) = .ok ()) : kind.ofWord n = v := by
  rw [checkEnum_eq_ok] at he
  unfold word? at h
  split at h
  case h_8 v =>
    obtain rfl := Option.some.inj h
    rw [toInt32_mod (he rfl)]
    simp [ofWord]
  case h_1 b =>
    obtain rfl := Option.some.inj h
    cases b <;> rfl
  all_goals first
    | obtain rfl := Option.some.inj h
      simp [ofWord]
    | exact absurd h (by simp)

theorem Scalar.word?_lt {kind : Scalar} {v : Value} {n : Nat} (h : kind.word? v = some n) :
    n < 256 ^ kind.size := by
  unfold word? at h
  split at h
  case h_1 b =>
    obtain rfl := Option.some.inj h
    cases b <;> decide
  all_goals first
    | obtain rfl := Option.some.inj h
      first
        | exact UInt8.toNat_lt _
        | exact UInt16.toNat_lt _
        | exact UInt32.toNat_lt _
        | exact UInt64.toNat_lt _
        | exact Nat.mod_lt _ (by decide)
    | exact absurd h (by simp)

/-- The word of an enumeration that can be written is one that can be read. -/
theorem Scalar.checkEnum_word? {kind : Scalar} {v : Value} {n : Nat} (h : kind.word? v = some n)
    (he : kind.checkEnum (v.toInt?.getD 0) = .ok ()) : kind.checkEnum n = .ok () := by
  rw [checkEnum_eq_ok] at he ⊢
  rintro rfl
  cases v <;> simp only [word?, reduceCtorEq] at h
  rename_i v
  obtain rfl := Option.some.inj h
  have hv := he rfl
  have : Scalar.enumMax = 32767 := rfl
  simp only [Value.toInt?, Option.getD_some] at hv
  rw [toInt32_mod hv, Int32.toNat_toUInt32_of_le (Int32.le_iff_toInt_le.2 hv.1)]
  exact ⟨Int.natCast_nonneg _, Int.le_trans (Int.le_of_eq (Int.toNat_of_nonneg hv.1)) hv.2⟩

/-! ### Words and scalars -/

/-- An aligned word at a position of a message. -/
def alignedBytes (order : ByteOrder) (width v position : Nat) : List UInt8 :=
  List.replicate (padding position width) 0 ++ order.encode width v

theorem length_alignedBytes_pos {order : ByteOrder} {width v position : Nat} (h : 0 < width) :
    0 < (alignedBytes order width v position).length := by
  rw [alignedBytes, List.length_append, ByteOrder.length_encode]
  omega

namespace Writer

variable {w w' : Writer} {u : Unit} {order : ByteOrder}

theorem Wrote.unique {bytes bytes' : List UInt8} (h : Wrote w w' bytes) (h' : Wrote w w' bytes') :
    bytes = bytes' := List.append_cancel_left (h.output.symm.trans h'.output)

theorem wrote_putAligned {width v : Nat} (h : putAligned order width v w = .ok u w') :
    Wrote w w' (alignedBytes order width v w.position) := by
  obtain ⟨_, w1, h1, e1⟩ := bind_eq_ok.1 h
  exact (wrote_align h1).trans (wrote_putTogether e1)

theorem wrote_putScalar {r : Representation} {kind : Scalar} {v : Value}
    (h : putScalar r kind v w = .ok u w') : ∃ n, kind.word? v = some n ∧
      kind.checkRepresentation r = .ok () ∧ kind.checkEnum (v.toInt?.getD 0) = .ok () ∧
      Wrote w w' (alignedBytes r.integers kind.size n w.position) := by
  unfold putScalar at h
  obtain ⟨_, w1, h1, e1⟩ := bind_eq_ok.1 h
  cases hn : kind.word? v with
  | none =>
    rw [hn] at e1
    exact absurd e1 throw_ne_ok
  | some n =>
    rw [hn] at e1
    obtain ⟨_, w2, h2, e2⟩ := bind_eq_ok.1 e1
    obtain ⟨_, w3, h3, e3⟩ := bind_eq_ok.1 e2
    obtain ⟨hr, rfl⟩ := lift_eq_ok.1 h2
    obtain ⟨he, rfl⟩ := lift_eq_ok.1 h3
    exact ⟨n, rfl, hr, he, (wrote_align h1).trans (wrote_putTogether e3)⟩

end Writer

namespace Reader

variable {r : Reader} {tail : List UInt8} {order : ByteOrder}

theorem Took.trans {r' r'' : Reader} {n n' : Nat} {tail' : List UInt8} (h : Took r r' n tail')
    (h' : Took r' r'' n' tail) : Took r r'' (n + n') tail :=
  ⟨h'.rest, by rw [h'.position, h.position, Nat.add_assoc]⟩

theorem getWord_ok {width v : Nat} (hv : v < 256 ^ width)
    (h : r.rest = order.encode width v ++ tail) :
    ∃ r', getWord order width r = .ok v r' ∧ Took r r' width tail := by
  obtain ⟨r', hok, ht⟩ := getTogether_ok h
  rw [ByteOrder.length_encode] at hok ht
  refine ⟨r', bind_eq_ok.2 ⟨_, r', hok, ?_⟩, ht⟩
  rw [ByteOrder.decode_encode order hv]
  rfl

theorem getAligned_ok {width v : Nat} (hv : v < 256 ^ width)
    (h : r.rest = alignedBytes order width v r.position ++ tail) :
    ∃ r', getAligned order width r = .ok v r' ∧
      Took r r' (alignedBytes order width v r.position).length tail := by
  rw [alignedBytes, List.append_assoc] at h
  obtain ⟨r1, h1, t1⟩ := align_ok h
  obtain ⟨r2, h2, t2⟩ := getWord_ok hv t1.rest
  refine ⟨r2, bind_eq_ok.2 ⟨_, r1, h1, h2⟩, ?_⟩
  simpa [alignedBytes] using t1.trans t2

/-- A scalar that was written is read back. -/
theorem getScalar_ok {representation : Representation} {kind : Scalar} {v : Value} {n : Nat}
    (hn : kind.word? v = some n) (hr : kind.checkRepresentation representation = .ok ())
    (he : kind.checkEnum (v.toInt?.getD 0) = .ok ())
    (h : r.rest = alignedBytes representation.integers kind.size n r.position ++ tail) :
    ∃ r', getScalar representation kind r = .ok v r' ∧
      Took r r' (alignedBytes representation.integers kind.size n r.position).length tail := by
  rw [alignedBytes, List.append_assoc] at h
  obtain ⟨r1, h1, t1⟩ := align_ok h
  obtain ⟨r2, h2, t2⟩ := getWord_ok (Scalar.word?_lt hn) t1.rest
  refine ⟨r2, ?_, by simpa [alignedBytes] using t1.trans t2⟩
  refine bind_eq_ok.2 ⟨_, r1, h1, bind_eq_ok.2 ⟨(), r1, lift_eq_ok.2 ⟨hr, rfl⟩, ?_⟩⟩
  refine bind_eq_ok.2 ⟨n, r2, h2, bind_eq_ok.2 ⟨(), r2, ?_, ?_⟩⟩
  · exact lift_eq_ok.2 ⟨Scalar.checkEnum_word? hn he, rfl⟩
  · rw [Scalar.ofWord_word? hn he]
    rfl

end Reader

end Ndr
