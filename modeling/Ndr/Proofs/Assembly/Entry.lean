import Ndr.Proofs.Assembly.Growth

/-!
Vectors apart from their byte order: what goes into a vector is a list of entries, bytes and words
that are aligned, which any byte order turns into the bytes of a vector or of a record.
-/

namespace Ndr

/-! ### Entries -/

/-- What goes into a vector at a time. -/
inductive Entry where
  | byte (b : UInt8)
  | word (v : Nat)
  /-- A word that will hold the offset of a struct. -/
  | reference (id : StructId)
  /-- A word that will hold the offset of the array at the end of a struct. -/
  | tail (id : StructId)
  /-- The padding up to a multiple of four. -/
  | gap
  deriving DecidableEq

namespace Entry

/-- Where an entry is put. Bytes go anywhere, all else goes to multiples of four. -/
def start (position : Nat) : Entry → Nat
  | .byte _ => position
  | .word _ | .reference _ | .tail _ | .gap => position + padding position 4

def width : Entry → Nat
  | .byte _ => 1
  | .word _ | .reference _ | .tail _ => 4
  | .gap => 0

/-- Where an entry ends. -/
def stop (position : Nat) (e : Entry) : Nat := e.start position + e.width

def reference? : Entry → Option StructId
  | .reference id => some id
  | .byte _ | .word _ | .tail _ | .gap => none

def tail? : Entry → Option StructId
  | .tail id => some id
  | .byte _ | .word _ | .reference _ | .gap => none

/-- The bytes of an entry. A word that is filled in later has a stand-in. -/
def ink (order : ByteOrder) : Entry → List UInt8
  | .byte b => [b]
  | .word v => order.encode 4 v
  | .reference _ => order.encode 4 0
  | .tail _ => order.encode 4 TypeVector.noTrailing
  | .gap => []

@[simp] theorem length_ink (order : ByteOrder) (e : Entry) : (e.ink order).length = e.width := by
  cases e <;> simp [ink, width]

theorem le_start (position : Nat) (e : Entry) : position ≤ e.start position := by
  cases e <;> simp [start]

theorem start_add {base : Nat} (h : base % 4 = 0) (position : Nat) (e : Entry) :
    e.start (base + position) = base + e.start position := by
  cases e with
  | byte b => rfl
  | _ => simp only [start, Record.padding_add h, Nat.add_assoc]

theorem stop_add {base : Nat} (h : base % 4 = 0) (position : Nat) (e : Entry) :
    e.stop (base + position) = base + e.stop position := by
  rw [stop, start_add h, Nat.add_assoc, stop]

end Entry

/-! ### Lists of entries -/

namespace Entries

variable {order : ByteOrder} {position base : Nat} {es es' : List Entry}

/-- Where the entries that begin at `position` end. -/
def stop (position : Nat) (es : List Entry) : Nat := es.foldl Entry.stop position

/-- The entries that begin at `position`, each with its place. -/
def spots : Nat → List Entry → List (Nat × Entry)
  | _, [] => []
  | position, e :: es => (e.start position, e) :: spots (e.stop position) es

/-- The bytes of the entries that begin at `position`. -/
def ink (order : ByteOrder) : Nat → List Entry → List UInt8
  | _, [] => []
  | position, e :: es =>
    List.replicate (e.start position - position) filler ++ e.ink order
      ++ ink order (e.stop position) es

/-- The places of the words that will hold the offsets of structs. -/
def references (position : Nat) (es : List Entry) : List (Nat × StructId) :=
  (spots position es).filterMap fun s => s.2.reference?.map (s.1, ·)

/-- The places of the words that will hold the offsets of the arrays at the ends of structs. -/
def tails (position : Nat) (es : List Entry) : List (Nat × StructId) :=
  (spots position es).filterMap fun s => s.2.tail?.map (s.1, ·)

theorem stop_append : stop position (es ++ es') = stop (stop position es) es' :=
  List.foldl_append

theorem spots_append :
    spots position (es ++ es') = spots position es ++ spots (stop position es) es' := by
  induction es generalizing position with
  | nil => rfl
  | cons e es ih => exact congrArg (List.cons _) ih

theorem ink_append :
    ink order position (es ++ es') = ink order position es ++ ink order (stop position es) es' := by
  induction es generalizing position with
  | nil => rfl
  | cons e es ih =>
    simp only [List.cons_append, ink, ih, List.append_assoc]
    rfl

theorem references_append : references position (es ++ es') =
    references position es ++ references (stop position es) es' := by
  rw [references, spots_append, List.filterMap_append]
  rfl

theorem tails_append :
    tails position (es ++ es') = tails position es ++ tails (stop position es) es' := by
  rw [tails, spots_append, List.filterMap_append]
  rfl

theorem le_stop (position : Nat) (es : List Entry) : position ≤ stop position es := by
  induction es generalizing position with
  | nil => exact Nat.le_refl _
  | cons e es ih =>
    exact Nat.le_trans (Nat.le_trans (e.le_start position) (Nat.le_add_right _ _)) (ih _)

theorem length_ink (order : ByteOrder) (position : Nat) (es : List Entry) :
    position + (ink order position es).length = stop position es := by
  induction es generalizing position with
  | nil => rfl
  | cons e es ih =>
    have hstart := e.le_start position
    have hstop : e.stop position = e.start position + e.width := rfl
    have hrest : _ = stop position (e :: es) := ih (e.stop position)
    simp only [ink, List.length_append, List.length_replicate, Entry.length_ink]
    omega

/-! #### Entries elsewhere -/

theorem stop_add (h : base % 4 = 0) (position : Nat) (es : List Entry) :
    stop (base + position) es = base + stop position es := by
  induction es generalizing position with
  | nil => rfl
  | cons e es ih =>
    show stop (e.stop (base + position)) es = _
    rw [Entry.stop_add h, ih]
    rfl

theorem spots_add (h : base % 4 = 0) (position : Nat) (es : List Entry) :
    spots (base + position) es = (spots position es).map fun s => (base + s.1, s.2) := by
  induction es generalizing position with
  | nil => rfl
  | cons e es ih => rw [spots, spots, Entry.stop_add h, ih, Entry.start_add h, List.map_cons]

theorem ink_add (h : base % 4 = 0) (position : Nat) (es : List Entry) :
    ink order (base + position) es = ink order position es := by
  induction es generalizing position with
  | nil => rfl
  | cons e es ih =>
    rw [ink, ink, Entry.stop_add h, ih, Entry.start_add h, Nat.add_sub_add_left]

theorem references_add (h : base % 4 = 0) (position : Nat) (es : List Entry) :
    references (base + position) es = (references position es).map fun p => (base + p.1, p.2) := by
  rw [references, references, spots_add h, List.filterMap_map, List.map_filterMap]
  refine List.filterMap_congr fun s _ => ?_
  obtain ⟨place, e⟩ := s
  cases e <;> rfl

/-! #### Places of entries -/

/-- Entries lie behind one another. -/
theorem pairwise_spots (position : Nat) (es : List Entry) :
    (∀ s ∈ spots position es, position ≤ s.1 ∧ s.1 + s.2.width ≤ stop position es) ∧
      (spots position es).Pairwise fun s t => s.1 + s.2.width ≤ t.1 := by
  induction es generalizing position with
  | nil => exact ⟨fun _ h => absurd h List.not_mem_nil, .nil⟩
  | cons e es ih =>
    obtain ⟨hwithin, hapart⟩ := ih (e.stop position)
    have hstart := e.le_start position
    have hstop : e.stop position = e.start position + e.width := rfl
    have hrest : e.stop position ≤ stop position (e :: es) := le_stop _ es
    refine ⟨List.forall_mem_cons.2 ⟨⟨hstart, hrest⟩, fun s hs => ?_⟩, .cons (fun s hs => ?_) hapart⟩
    · obtain ⟨h1, h2⟩ := hwithin s hs
      exact ⟨by omega, h2⟩
    · exact (hwithin s hs).1

theorem apart {s t : Nat × Entry} (hs : s ∈ spots position es) (ht : t ∈ spots position es) :
    s = t ∨ s.1 + s.2.width ≤ t.1 ∨ t.1 + t.2.width ≤ s.1 := by
  have hpairs := (pairwise_spots position es).2
  induction es generalizing position with
  | nil => exact absurd hs List.not_mem_nil
  | cons e es ih =>
    obtain ⟨hfirst, hrest⟩ := List.pairwise_cons.1 hpairs
    rcases List.mem_cons.1 hs with rfl | hs' <;> rcases List.mem_cons.1 ht with rfl | ht'
    · exact .inl rfl
    · exact .inr (.inl (hfirst t ht'))
    · exact .inr (.inr (hfirst s hs'))
    · exact ih hs' ht' hrest

theorem mem_references {place : Nat} {id : StructId} :
    (place, id) ∈ references position es ↔ (place, .reference id) ∈ spots position es := by
  unfold references
  rw [List.mem_filterMap]
  constructor
  · rintro ⟨⟨q, e⟩, hq, h⟩
    cases e <;> simp_all [Entry.reference?]
  · exact fun h => ⟨_, h, rfl⟩

theorem mem_tails {place : Nat} {id : StructId} :
    (place, id) ∈ tails position es ↔ (place, .tail id) ∈ spots position es := by
  unfold tails
  rw [List.mem_filterMap]
  constructor
  · rintro ⟨⟨q, e⟩, hq, h⟩
    cases e <;> simp_all [Entry.tail?]
  · exact fun h => ⟨_, h, rfl⟩

/-- The words of some entries have different places. -/
theorem nodup_places (f : Entry → Option StructId) (hf : ∀ e id, f e = some id → 0 < e.width) :
    (((spots position es).filterMap fun s => (f s.2).map (s.1, ·)).map Prod.fst).Nodup := by
  refine List.pairwise_map.2 ((pairwise_spots position es).2.filterMap _ ?_)
  rintro ⟨p, e⟩ ⟨q, e'⟩ h _ hp _ hq
  obtain ⟨id, hid, rfl⟩ := Option.map_eq_some_iff.1 hp
  obtain ⟨_, -, rfl⟩ := Option.map_eq_some_iff.1 hq
  have := hf e id hid
  dsimp only at h ⊢
  omega

/-- All but bytes are at multiples of four. -/
theorem aligned_of_mem_spots {s : Nat × Entry} (hs : s ∈ spots position es)
    (h : ∀ b, s.2 ≠ .byte b) : s.1 % 4 = 0 := by
  induction es generalizing position with
  | nil => exact absurd hs List.not_mem_nil
  | cons e es ih =>
    rcases List.mem_cons.1 hs with rfl | hs
    · cases e with
      | byte b => exact absurd rfl (h b)
      | _ => exact Nat.mod_eq_zero_of_dvd (dvd_add_padding (by decide))
    · exact ih hs

/-- The bytes of an entry are where it is put. -/
theorem getElem?_ink {s : Nat × Entry} (hs : s ∈ spots position es) {k : Nat} (hk : k < s.2.width) :
    (ink order position es)[s.1 - position + k]? = (s.2.ink order)[k]? := by
  induction es generalizing position with
  | nil => exact absurd hs List.not_mem_nil
  | cons e es ih =>
    have hstart := e.le_start position
    rcases List.mem_cons.1 hs with rfl | hs
    · rw [ink, List.append_assoc, List.getElem?_append_right (by simp), List.length_replicate,
        Nat.add_sub_cancel_left, List.getElem?_append_left (by rwa [Entry.length_ink])]
    · have hle : e.stop position ≤ s.1 := ((pairwise_spots _ es).1 s hs).1
      have hstop : e.stop position = e.start position + e.width := rfl
      have hlength : (List.replicate (e.start position - position) filler ++ e.ink order).length =
          e.stop position - position := by
        simp only [List.length_append, List.length_replicate, Entry.length_ink]
        omega
      rw [ink, List.getElem?_append_right (by rw [hlength]; omega), hlength, ← ih hs]
      congr 1
      omega

end Entries

/-! ### Records -/

namespace Record

variable {order : ByteOrder} {es : List Entry}

/-- The record of some entries. -/
def ofEntries (order : ByteOrder) (es : List Entry) : Record where
  order
  bytes := (Entries.ink order 0 es).toArray
  references := Entries.references 0 es

@[simp] theorem ofEntries_nil : ofEntries order [] = { order } := rfl

theorem size_ofEntries : (ofEntries order es).bytes.size = Entries.stop 0 es := by
  rw [← Entries.length_ink order 0 es, Nat.zero_add]
  exact List.size_toArray

theorem ofEntries_append (more : List Entry) : ofEntries order (es ++ more) =
    { order
      bytes := (ofEntries order es).bytes ++ (Entries.ink order (Entries.stop 0 es) more).toArray
      references := (ofEntries order es).references
        ++ Entries.references (Entries.stop 0 es) more } := by
  simp only [ofEntries, Entries.ink_append, Entries.references_append, List.append_toArray]

@[simp] theorem ofEntries_byte (b : UInt8) :
    (ofEntries order es).byte b = ofEntries order (es ++ [.byte b]) := by
  rw [ofEntries_append]
  simp [byte, ofEntries, Entries.ink, Entries.references, Entries.spots, Entry.start, Entry.ink,
    Entry.reference?]

@[simp] theorem ofEntries_op (op : Opcode) :
    (ofEntries order es).op op = ofEntries order (es ++ [.byte op.toByte]) := ofEntries_byte _

@[simp] theorem ofEntries_word (v : Nat) :
    (ofEntries order es).word v = ofEntries order (es ++ [.word v]) := by
  rw [ofEntries_append, word, fill, size_ofEntries]
  simp [ofEntries, Entries.ink, Entries.references, Entries.spots, Entry.start, Entry.ink,
    Entry.reference?]

@[simp] theorem ofEntries_reference (id : StructId) :
    (ofEntries order es).reference id = ofEntries order (es ++ [.reference id]) := by
  rw [ofEntries_append, reference, size_fill, fill, size_ofEntries]
  simp [ofEntries, Entries.ink, Entries.references, Entries.spots, Entry.start, Entry.ink,
    Entry.reference?]

end Record

end Ndr
