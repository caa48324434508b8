import Ndr.Assembler.Finish
import Ndr.Proofs.Action

/-!
Records in a type vector: bytes that only grow, with places for words that are filled in later, and
what is read where they stand.
-/

namespace Ndr

theorem TypeVector.readAt_eq_ok {α : Type} {offset : Nat} {scan : Scan α} {x : α} :
    readAt offset scan = .ok x ↔ ∃ next, scan offset = .ok x next := by
  unfold readAt EStateM.run
  cases scan offset <;> simp

/-! ### Sheets -/

/-- Bytes, and the places of the words in them that are filled in later, each with what goes
there. -/
structure Sheet where
  bytes : Array UInt8
  places : List (Nat × Option Nat)

namespace Sheet

/-- `t` is `s` and more behind it. -/
structure Extends (s t : Sheet) : Prop where
  bytes : s.bytes.toList <+: t.bytes.toList
  kept : ∀ p ∈ s.places, p ∈ t.places
  added : ∀ p ∈ t.places, p ∈ s.places ∨ s.bytes.size ≤ p.1

/-- The places are those of words, no two of the same word. -/
structure Sound (s : Sheet) : Prop where
  words : ∀ p ∈ s.places, p.1 % 4 = 0 ∧ p.1 + 4 ≤ s.bytes.size
  nodup : (s.places.map Prod.fst).Nodup

/-- The bytes from `start` on stand in a vector at `base`, and the places there are filled in. -/
structure Stands (tv : TypeVector) (base start : Nat) (s : Sheet) : Prop where
  fits : base + s.bytes.size ≤ tv.size
  bytes : ∀ k, start ≤ k → k < s.bytes.size → (∀ p ∈ s.places, k < p.1 ∨ p.1 + 4 ≤ k) →
    tv.bytes[base + k]? = s.bytes[k]?
  places : ∀ p ∈ s.places, start ≤ p.1 →
    ∃ v, p.2 = some v ∧ TypeVector.wordAt? tv.bytes tv.order (base + p.1) 4 = some v

variable {s t u : Sheet}

namespace Extends

theorem refl : s.Extends s := ⟨List.prefix_rfl, fun _ h => h, fun _ h => .inl h⟩

theorem size_le (h : s.Extends t) : s.bytes.size ≤ t.bytes.size := h.bytes.length_le

theorem trans (h : s.Extends t) (h' : t.Extends u) : s.Extends u where
  bytes := h.bytes.trans h'.bytes
  kept p hp := h'.kept p (h.kept p hp)
  added p hp := by
    rcases h'.added p hp with hp | hp
    · exact h.added p hp
    · exact .inr (Nat.le_trans h.size_le hp)

theorem getElem? (h : s.Extends t) {k : Nat} (hk : k < s.bytes.size) :
    t.bytes[k]? = s.bytes[k]? := by
  obtain ⟨more, e⟩ := h.bytes
  rw [← Array.getElem?_toList, ← Array.getElem?_toList, ← e, List.getElem?_append_left hk]

/-- One more place, behind what was there. -/
theorem place (h : s.Extends t) {p : Nat × Option Nat} (hp : s.bytes.size ≤ p.1) :
    s.Extends ⟨t.bytes, t.places ++ [p]⟩ where
  bytes := h.bytes
  kept q hq := List.mem_append_left _ (h.kept q hq)
  added q hq := by
    rcases List.mem_append.1 hq with hq | hq
    · exact h.added q hq
    · obtain rfl := List.mem_singleton.1 hq
      exact .inr hp

end Extends

/-- What stands somewhere does so without what was added behind it. -/
theorem Stands.mono {tv : TypeVector} {base start : Nat} (h : t.Stands tv base start)
    (he : s.Extends t) : s.Stands tv base start where
  fits := Nat.le_trans (Nat.add_le_add_left he.size_le base) h.fits
  bytes k h1 h2 hp := by
    rw [h.bytes k h1 (Nat.lt_of_lt_of_le h2 he.size_le) fun p hpt => ?_, he.getElem? h2]
    rcases he.added p hpt with hps | hps
    · exact hp p hps
    · exact .inl (Nat.lt_of_lt_of_le h2 hps)
  places p hp := h.places p (he.kept p hp)

/-- A sheet that is the end of another stands where its bytes and its places do. -/
theorem Stands.behind {tv : TypeVector} {base start header : Nat} {before : Array UInt8}
    (h : t.Stands tv 0 header) (hheader : header ≤ base + start) (hb : t.bytes = before ++ s.bytes)
    (hbase : before.size = base)
    (hfrom : ∀ p ∈ t.places, p.1 + 4 ≤ base + start ∨ ∃ q ∈ s.places, p.1 = base + q.1)
    (hto : ∀ q ∈ s.places, (base + q.1, q.2) ∈ t.places) : s.Stands tv base start where
  fits := by
    have := h.fits
    rwa [hb, Array.size_append, hbase, Nat.zero_add] at this
  bytes k h1 h2 hk := by
    have hlt : base + k < t.bytes.size := by
      rw [hb, Array.size_append, hbase]
      omega
    have hget := h.bytes (base + k) (by omega) hlt fun p hp => by
      rcases hfrom p hp with hp | ⟨q, hq, hp⟩
      · exact .inr (by omega)
      · exact (hk q hq).imp (by omega) (by omega)
    rw [Nat.zero_add] at hget
    rw [hget, hb, ← hbase, Array.getElem?_append_right (Nat.le_add_right _ _),
      Nat.add_sub_cancel_left]
  places q hq hstart := by
    obtain ⟨v, hv, hword⟩ := h.places _ (hto q hq) (by dsimp only; omega)
    rw [Nat.zero_add] at hword
    exact ⟨v, hv, hword⟩

end Sheet

/-! ### Records -/

namespace Record

/-- A record, with what goes into its places by the struct. -/
def sheet (f : StructId → Option Nat) (r : Record) : Sheet :=
  ⟨r.bytes, r.references.map fun p => (p.1, f p.2)⟩

variable {f : StructId → Option Nat} {r r' r'' : Record}

/-- `r'` continues `r`. -/
structure Continues (f : StructId → Option Nat) (r r' : Record) : Prop where
  order : r'.order = r.order
  sheet : (r.sheet f).Extends (r'.sheet f)
  sound : (r.sheet f).Sound → (r'.sheet f).Sound

namespace Continues

theorem refl : Continues f r r := ⟨rfl, .refl, id⟩

theorem trans (h : Continues f r r') (h' : Continues f r' r'') : Continues f r r'' :=
  ⟨h'.order.trans h.order, h.sheet.trans h'.sheet, fun hs => h'.sound (h.sound hs)⟩

theorem size_le (h : Continues f r r') : r.bytes.size ≤ r'.bytes.size := h.sheet.size_le

end Continues

theorem size_fill (bytes : Array UInt8) : (fill bytes).size = bytes.size + padding bytes.size 4 := by
  simp [fill]

theorem size_fill_mod (bytes : Array UInt8) : (fill bytes).size % 4 = 0 := by
  rw [size_fill]
  exact Nat.mod_eq_zero_of_dvd (dvd_add_padding (by decide))

theorem size_byte (r : Record) (b : UInt8) : (r.byte b).bytes.size = r.bytes.size + 1 := by
  simp [byte]

theorem size_word (r : Record) (v : Nat) : (r.word v).bytes.size = (fill r.bytes).size + 4 := by
  simp [word]

theorem size_reference (r : Record) (id : StructId) :
    (r.reference id).bytes.size = (fill r.bytes).size + 4 := by
  simp [reference]

/-- More bytes, and no more places. -/
theorem continues_of_append (bytes : Array UInt8) (h : r'.bytes = r.bytes ++ bytes)
    (ho : r'.order = r.order) (hr : r'.references = r.references) : Continues f r r' where
  order := ho
  sheet := by
    refine ⟨?_, fun p hp => ?_, fun p hp => .inl ?_⟩
    · simp [sheet, h]
    · simpa [sheet, hr] using hp
    · simpa [sheet, hr] using hp
  sound hs := by
    refine ⟨fun p hp => ?_, by simpa [sheet, hr] using hs.nodup⟩
    obtain ⟨h1, h2⟩ := hs.words p (by simpa [sheet, hr] using hp)
    refine ⟨h1, Nat.le_trans h2 ?_⟩
    simp [sheet, h]

theorem continues_byte (b : UInt8) : Continues f r (r.byte b) :=
  continues_of_append #[b] (by simp [byte]) rfl rfl

theorem continues_op (op : Opcode) : Continues f r (r.op op) := continues_byte _

theorem continues_word (v : Nat) : Continues f r (r.word v) :=
  continues_of_append (Array.replicate (padding r.bytes.size 4) filler
    ++ (r.order.encode 4 v).toArray) (by simp [word, fill, Array.append_assoc]) rfl rfl

theorem continues_reference (id : StructId) : Continues f r (r.reference id) where
  order := rfl
  sheet := by
    refine ⟨?_, fun p hp => ?_, fun p hp => ?_⟩
    · simp [sheet, reference, fill]
    · simp only [sheet, reference, List.map_append, List.mem_append]
      exact .inl hp
    · simp only [sheet, reference, List.map_append, List.mem_append] at hp
      rcases hp with hp | hp
      · exact .inl hp
      · right
        obtain rfl := by simpa using hp
        show r.bytes.size ≤ (fill r.bytes).size
        rw [size_fill]
        exact Nat.le_add_right _ _
  sound hs := by
    have hle : r.bytes.size ≤ (fill r.bytes).size := by
      rw [size_fill]
      exact Nat.le_add_right _ _
    refine ⟨fun p hp => ?_, ?_⟩
    · simp only [sheet, reference, List.map_append, List.mem_append] at hp
      show p.1 % 4 = 0 ∧ p.1 + 4 ≤ (r.reference id).bytes.size
      rw [size_reference]
      rcases hp with hp | hp
      · obtain ⟨h1, h2⟩ := hs.words p hp
        change p.1 + 4 ≤ r.bytes.size at h2
        exact ⟨h1, by omega⟩
      · obtain rfl := by simpa using hp
        exact ⟨size_fill_mod _, Nat.le_refl _⟩
    · simp only [sheet, reference, List.map_append, List.map_cons, List.map_nil]
      refine List.nodup_append.2 ⟨hs.nodup, by simp, ?_⟩
      -- the new place is behind all others
      rintro p hp q hq rfl
      obtain ⟨place, hplace, rfl⟩ := List.mem_map.1 hp
      have h2 := (hs.words place hplace).2
      rw [List.mem_singleton.1 hq] at h2
      change (fill r.bytes).size + 4 ≤ r.bytes.size at h2
      omega

theorem continues_bound (b : Bound) : Continues f r (r.bound b) :=
  ((((continues_byte _).trans (continues_byte _)).trans (continues_byte _)).trans
    (continues_byte _)).trans (continues_word _)

theorem continues_boundPair (p : BoundPair) : Continues f r (r.boundPair p) :=
  (continues_bound _).trans (continues_bound _)

/-! ### Reading records -/

/-- A record of which the bytes from `start` on count. -/
structure Begun (f : StructId → Option Nat) (start : Nat) (r : Record) : Prop where
  sound : (r.sheet f).Sound
  within : start ≤ r.bytes.size

/-- A record that stands in a vector from `start` on. -/
structure At (tv : TypeVector) (f : StructId → Option Nat) (base start : Nat) (r : Record) : Prop
    extends Begun f start r where
  aligned : base % 4 = 0
  order : tv.order = r.order
  stands : (r.sheet f).Stands tv base start

section

variable {tv : TypeVector} {base start : Nat}

theorem Begun.mono (h : Begun f start r) (hc : Continues f r r') : Begun f start r' :=
  ⟨hc.sound h.sound, Nat.le_trans h.within hc.size_le⟩

theorem Begun.byte (h : Begun f start r) (b : UInt8) : Begun f start (r.byte b) :=
  h.mono (continues_byte b)

theorem Begun.op (h : Begun f start r) (op : Opcode) : Begun f start (r.op op) :=
  h.mono (continues_op op)

theorem Begun.word (h : Begun f start r) (v : Nat) : Begun f start (r.word v) :=
  h.mono (continues_word v)

theorem Begun.lt_place (h : Begun f start r) {p : Nat × Option Nat} (hp : p ∈ (r.sheet f).places) :
    p.1 + 4 ≤ r.bytes.size := (h.sound.words p hp).2

theorem At.fits (h : At tv f base start r) : base + r.bytes.size ≤ tv.size := h.stands.fits

/-- What a record continues stands where it does. -/
theorem At.back (h : At tv f base start r') (hc : Continues f r r') (hb : Begun f start r) :
    At tv f base start r :=
  ⟨hb, h.aligned, h.order.trans hc.order, h.stands.mono hc.sheet⟩

/-- A byte that was appended is read. -/
theorem getElem?_at {b : UInt8} (h : At tv f base start (r.byte b)) (hb : Begun f start r) :
    tv.bytes[base + r.bytes.size]? = some b := by
  rw [h.stands.bytes r.bytes.size hb.within (by simp [sheet, byte]) fun p hp => .inr (hb.lt_place hp)]
  simp [sheet, byte]

theorem readByte_of_getElem? {here : Nat} {b : UInt8} (h : tv.bytes[here]? = some b) :
    tv.readByte here = .ok b (here + 1) := by
  unfold TypeVector.readByte
  refine bind_eq_ok.2 ⟨_, _, rfl, ?_⟩
  simp only [h]
  rfl

theorem readOpcode_of_getElem? {here : Nat} {op : Opcode} (h : tv.bytes[here]? = some op.toByte) :
    tv.readOpcode here = .ok op (here + 1) := by
  unfold TypeVector.readOpcode
  refine bind_eq_ok.2 ⟨_, _, rfl, bind_eq_ok.2 ⟨_, _, readByte_of_getElem? h, ?_⟩⟩
  simp only [Opcode.ofByte?_toByte]
  rfl

theorem readByte_at {b : UInt8} (h : At tv f base start (r.byte b)) (hb : Begun f start r) :
    tv.readByte (base + r.bytes.size) = .ok b (base + (r.byte b).bytes.size) := by
  rw [readByte_of_getElem? (getElem?_at h hb), size_byte, Nat.add_assoc]

theorem skip_at {n : Nat} (h : At tv f base start r') (hn : r'.bytes.size = r.bytes.size + n) :
    tv.skip n (base + r.bytes.size) = .ok () (base + r'.bytes.size) := by
  have hfits := h.fits
  unfold TypeVector.skip
  refine bind_eq_ok.2 ⟨_, _, rfl, ?_⟩
  rw [if_neg (by omega), hn, ← Nat.add_assoc]
  rfl

theorem readOpcode_at {op : Opcode} (h : At tv f base start (r.op op)) (hb : Begun f start r) :
    tv.readOpcode (base + r.bytes.size) = .ok op (base + (r.op op).bytes.size) := by
  rw [readOpcode_of_getElem? (getElem?_at h hb), Record.op, size_byte, Nat.add_assoc]

/-- Four bytes that stand together are a word. -/
theorem wordAt?_of_getElem? {bytes : Array UInt8} {order : ByteOrder} {offset : Nat} {v : Nat}
    (hv : v < 2 ^ 32) (h : ∀ k < 4, bytes[offset + k]? = (order.encode 4 v)[k]?) :
    TypeVector.wordAt? bytes order offset 4 = some v := by
  have hsize : offset + 4 ≤ bytes.size := by
    have := h 3 (by decide)
    rw [List.getElem?_eq_getElem (by simp)] at this
    exact (Array.getElem?_eq_some_iff.1 this).1
  have hlist : (bytes.extract offset (offset + 4)).toList = order.encode 4 v := by
    refine List.ext_getElem? fun k => ?_
    rw [Array.getElem?_toList, Array.getElem?_extract]
    by_cases hk : k < 4
    · rw [if_pos (by omega), h k hk]
    · rw [if_neg (by omega), List.getElem?_eq_none (by simpa using hk)]
  rw [TypeVector.wordAt?, if_pos hsize, hlist, ByteOrder.decode_encode _ (by simpa using hv)]

theorem padding_add {position : Nat} (h : base % 4 = 0) :
    padding (base + position) 4 = padding position 4 := by
  unfold padding
  rw [if_neg (by decide), if_neg (by decide), Nat.add_mod, h, Nat.zero_add, Nat.mod_mod]

/-- Padding of a record is padding of the vector. -/
theorem add_size_fill (h : base % 4 = 0) (bytes : Array UInt8) :
    base + (fill bytes).size = base + bytes.size + padding (base + bytes.size) 4 := by
  rw [size_fill, padding_add h, Nat.add_assoc]

/-- A word is read where it stands, behind its padding. -/
theorem readWord_of_wordAt? {here v : Nat}
    (h : TypeVector.wordAt? tv.bytes tv.order (here + padding here 4) 4 = some v) :
    tv.readWord here = .ok (UInt32.ofNat v) (here + padding here 4 + 4) := by
  unfold TypeVector.readWord
  refine bind_eq_ok.2 ⟨(), here + padding here 4, rfl, bind_eq_ok.2 ⟨_, _, rfl, ?_⟩⟩
  simp only [h]
  rfl

theorem readNat_of_wordAt? {here v : Nat} (hv : v < 2 ^ 32)
    (h : TypeVector.wordAt? tv.bytes tv.order (here + padding here 4) 4 = some v) :
    tv.readNat here = .ok v (here + padding here 4 + 4) := by
  unfold TypeVector.readNat
  refine bind_eq_ok.2 ⟨_, _, readWord_of_wordAt? h, ?_⟩
  rw [UInt32.toNat_ofNat_of_lt' hv]
  rfl

theorem wordAt?_at {v : Nat} (hv : v < 2 ^ 32) (h : At tv f base start (r.word v))
    (hb : Begun f start r) :
    TypeVector.wordAt? tv.bytes tv.order (base + (fill r.bytes).size) 4 = some v := by
  have hle : r.bytes.size ≤ (fill r.bytes).size := by
    rw [size_fill]
    exact Nat.le_add_right _ _
  refine wordAt?_of_getElem? hv fun k hk => ?_
  have hstart := hb.within
  have hlt : (fill r.bytes).size + k < (r.word v).bytes.size := by
    rw [size_word]
    omega
  rw [Nat.add_assoc, h.stands.bytes _ (by omega) hlt fun p hp => .inr (by
    have := hb.lt_place hp
    omega), h.order]
  show (fill r.bytes ++ (r.order.encode 4 v).toArray)[(fill r.bytes).size + k]? = _
  rw [Array.getElem?_append_right (Nat.le_add_right _ _), Nat.add_sub_cancel_left,
    List.getElem?_toArray]
  rfl

theorem readWord_at {v : UInt32} (h : At tv f base start (r.word v.toNat)) (hb : Begun f start r) :
    tv.readWord (base + r.bytes.size) = .ok v (base + (r.word v.toNat).bytes.size) := by
  have hw := wordAt?_at v.toNat_lt h hb
  rw [add_size_fill h.aligned] at hw
  rw [readWord_of_wordAt? hw, UInt32.ofNat_toNat, size_word, ← Nat.add_assoc,
    add_size_fill h.aligned]

theorem readNat_at {v : Nat} (hv : v < 2 ^ 32) (h : At tv f base start (r.word v))
    (hb : Begun f start r) :
    tv.readNat (base + r.bytes.size) = .ok v (base + (r.word v).bytes.size) := by
  have hw := wordAt?_at hv h hb
  rw [add_size_fill h.aligned] at hw
  rw [readNat_of_wordAt? hv hw, size_word, ← Nat.add_assoc, add_size_fill h.aligned]

/-- The place of a reference holds the offset of its struct. -/
theorem readReference_at {id : StructId} (h : At tv f base start (r.reference id))
    (hb : Begun f start r) :
    ∃ v, f id = some v ∧
      tv.readNat (base + r.bytes.size) = .ok v (base + (r.reference id).bytes.size) := by
  have hle : r.bytes.size ≤ (fill r.bytes).size := by
    rw [size_fill]
    exact Nat.le_add_right _ _
  obtain ⟨v, hv, hw⟩ := h.stands.places ((fill r.bytes).size, f id)
    (by simp [sheet, reference]) (Nat.le_trans hb.within hle)
  refine ⟨v, hv, ?_⟩
  have hlt : v < 2 ^ 32 := by
    unfold TypeVector.wordAt? at hw
    split at hw
    · obtain rfl := Option.some.inj hw
      have hlen : (tv.bytes.extract (base + (fill r.bytes).size)
          (base + (fill r.bytes).size + 4)).toList.length ≤ 4 := by
        rw [Array.length_toList, Array.size_extract]
        omega
      exact Nat.lt_of_lt_of_le (ByteOrder.decode_lt _ _)
        (Nat.pow_le_pow_right (show 0 < 256 by decide) hlen)
    · exact absurd hw (by simp)
  rw [add_size_fill h.aligned] at hw
  rw [readNat_of_wordAt? hlt hw, size_reference, ← Nat.add_assoc, add_size_fill h.aligned]

end

end Record

end Ndr
