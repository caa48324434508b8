import Ndr.Proofs.Assembly.Spelling
import Ndr.Proofs.TypeVector.Alignment

/-!
What an assembler has laid down is read back: every descriptor, stream and definition spells the
type it was written for.
-/

namespace Ndr

/-- The offsets in an interface fit words. -/
structure Interface.Small (i : Interface) : Prop where
  vector : i.vector.size < 2 ^ 32
  layout : i.layout.entries.size < 2 ^ 32

namespace Assembler

/-! ### What is laid down -/

/-- What goes into the places for the arrays at the ends of structs. -/
def tail? (a : Assembler) (id : StructId) : Option Nat :=
  (a.trailingOffset (a.structs.size + 1) id).toOption

/-- An assembler that has its header. -/
structure Started (f g : StructId → Option Nat) (b : Assembler) : Prop where
  sound : (b.sheet f g).Sound
  header : TypeVector.headerSize ≤ b.bytes.size

/-- All that `b` holds is found in the interface that `a` becomes in the end. -/
structure Laid (i : Interface) (a b : Assembler) : Prop where
  order : i.vector.order = b.order
  stands : (b.sheet a.offset? a.tail?).Stands i.vector 0 TypeVector.headerSize
  layout : b.layout.toList <+: i.layout.entries.toList
  specs : ∀ id s, b.spec? id = some s → a.spec? id = some s

variable {i : Interface} {a b b' : Assembler} {f g : StructId → Option Nat} {r r' : Record}
  {n : Nat}

theorem Started.mono (h : Started f g b) (hl : Later f g b b') : Started f g b' :=
  ⟨hl.sound h.sound, Nat.le_trans h.header hl.sheet.size_le⟩

theorem Laid.back (h : Laid i a b') (hl : Later a.offset? a.tail? b b') : Laid i a b where
  order := h.order.trans hl.order
  stands := h.stands.mono hl.sheet
  layout := hl.layout.trans h.layout
  specs id s hs := h.specs id s (hl.specs id s hs)

/-- A record that was emitted stands where it was. -/
theorem Laid.at_append (h : Laid i a (b.append r).1) (hb : Started a.offset? a.tail? b)
    (hr : (r.sheet a.offset?).Sound) (ho : r.order = b.order) :
    Record.At i.vector a.offset? (fill b.bytes).size 0 r where
  sound := hr
  within := Nat.zero_le _
  aligned := Record.size_fill_mod _
  order := h.order.trans ho.symm
  stands := by
    have hle := size_le_fill b.bytes
    have hheader := hb.header
    refine h.stands.behind (by omega) rfl rfl (fun p hp => ?_) fun q hq =>
      mem_places_append.2 (.inr ⟨q, hq, rfl⟩)
    rcases mem_places_append.1 hp with hp | ⟨q, hq, rfl⟩
    · have := (hb.sound.words p hp).2
      change p.1 + 4 ≤ b.bytes.size at this
      exact .inl (by omega)
    · exact .inr ⟨q, hq, rfl⟩

/-! ### Steps -/

theorem malformed_ne_ok {α : Type} {reason : Malformation} {x : α} : malformed reason b ≠ .ok x b' := by
  intro e
  obtain ⟨_, _, -, e⟩ := bind_eq_ok.1 e
  exact throw_ne_ok e

/-- What follows a check that was passed. -/
theorem guard_eq_ok {α : Type} {c : Prop} [Decidable c] {reason : Malformation}
    {y : PUnit → Assemble α} {x : α} :
    (if c then malformed reason >>= y else y ⟨⟩) b = .ok x b' ↔ ¬c ∧ y ⟨⟩ b = .ok x b' := by
  split
  · rename_i h
    refine ⟨fun e => ?_, fun e => absurd h e.1⟩
    obtain ⟨_, _, e, -⟩ := bind_eq_ok.1 e
    exact absurd e malformed_ne_ok
  · rename_i h
    simp [h]

theorem sound_record {order : ByteOrder} : (Record.sheet f { order }).Sound :=
  ⟨by simp [Record.sheet], by simp [Record.sheet]⟩

theorem record_eq_ok : record b = .ok r b' ↔ { order := b.order } = r ∧ b = b' := by
  unfold record
  constructor
  · intro e
    obtain ⟨_, _, h, e⟩ := bind_eq_ok.1 e
    obtain ⟨rfl, rfl⟩ := get_eq_ok.1 h
    exact pure_eq_ok.1 e
  · rintro ⟨rfl, rfl⟩
    rfl

/-! ### Measures -/

theorem structSpec_eq_ok {id : StructId} {s : StructSpec} :
    b.structSpec id = .ok s ↔ b.spec? id = some s := by
  unfold structSpec spec?
  split
  · rename_i h
    simp [h]
  · rename_i h
    simp [h]

/-- What is found of the array at the end of a struct does not change later. -/
theorem trailingArray_mono (h : ∀ id s, b.spec? id = some s → a.spec? id = some s) {room : Nat}
    {s : StructSpec} {array : Option ArraySpec} (e : b.trailingArray room s = .ok array) :
    a.trailingArray room s = .ok array := by
  induction room generalizing s with
  | zero => exact absurd e (by simp [trailingArray])
  | succ room ih =>
    unfold trailingArray at e ⊢
    split
    · rename_i last hlast
      simpa only [hlast] using e
    · rename_i id hlast
      simp only [hlast] at e
      obtain ⟨inner, hinner, e⟩ := Except.bind_eq_ok.1 e
      exact Except.bind_eq_ok.2 ⟨inner, structSpec_eq_ok.2 (h id inner (structSpec_eq_ok.1 hinner)),
        ih e⟩
    · rename_i hother1 hother2
      split at e
      · rename_i last hlast
        exact absurd hlast (hother1 last)
      · rename_i id hlast
        exact absurd hlast (hother2 id)
      · exact e

/-- The alignments there are. -/
def IsAlignment (n : Nat) : Prop := n = 1 ∨ n = 2 ∨ n = 4 ∨ n = 8

theorem IsAlignment.max {m n : Nat} (hm : IsAlignment m) (hn : IsAlignment n) :
    IsAlignment (max m n) := by
  unfold IsAlignment at *
  omega

theorem isAlignment_size (kind : Scalar) : IsAlignment kind.size := by
  cases kind <;> simp [IsAlignment, Scalar.size]

theorem isAlignment_largestAlign {align : TypeSpec → Except Fault Nat} {specs : List TypeSpec}
    {n : Nat} (h : ∀ spec n, align spec = .ok n → IsAlignment n)
    (e : largestAlign align specs = .ok n) : IsAlignment n := by
  unfold largestAlign at e
  have hfrom : ∀ first, IsAlignment first → specs.foldlM (fun largest spec =>
      return Max.max largest (← align spec)) first = .ok n → IsAlignment n := by
    clear e
    induction specs with
    | nil => exact fun first hf e => Except.pure_eq_ok.1 e ▸ hf
    | cons spec specs ih =>
      intro first hf e
      rw [List.foldlM_cons] at e
      obtain ⟨m, e1, e⟩ := Except.bind_eq_ok.1 e
      obtain ⟨k, hk, e1⟩ := Except.bind_eq_ok.1 e1
      obtain rfl := Except.pure_eq_ok.1 e1
      exact ih _ (hf.max (h spec k hk)) e
  exact hfrom 1 (.inl rfl) e

theorem isAlignment_alignOf {room : Nat} {spec : TypeSpec} {n : Nat}
    (e : b.alignOf room spec = .ok n) : IsAlignment n := by
  induction room generalizing spec n with
  | zero => exact absurd e (by simp [alignOf])
  | succ room ih =>
    have hih : ∀ spec n, b.alignOf room spec = .ok n → IsAlignment n := fun _ _ h => ih h
    cases spec with
    | scalar kind => exact Except.ok.inj e ▸ isAlignment_size kind
    | range kind lower upper => exact Except.ok.inj e ▸ isAlignment_size kind
    | struct id =>
      obtain ⟨s, -, e⟩ := Except.bind_eq_ok.1 e
      exact isAlignment_largestAlign hih e
    | nested s => exact isAlignment_largestAlign hih e
    | array s =>
      obtain ⟨element, he, e⟩ := Except.bind_eq_ok.1 e
      obtain rfl := Except.pure_eq_ok.1 e
      have hcount : IsAlignment (if s.v1 then 2 else 4) := by
        unfold IsAlignment
        split <;> omega
      split
      · exact (ih he).max hcount
      · exact ih he
    | union u =>
      obtain ⟨arms, harms, e⟩ := Except.bind_eq_ok.1 e
      obtain rfl := Except.pure_eq_ok.1 e
      exact (isAlignment_size _).max (isAlignment_largestAlign hih harms)
    | converted kind routine inner => exact ih e
    | freeRep routine inner => exact ih e
    | pointer | ignore | pipe | context | deletedNodes =>
      exact Except.ok.inj e ▸ .inr (.inr (.inl rfl))
    | align | void | opcode => exact Except.ok.inj e ▸ .inl rfl

/-- An alignment passes as a byte. -/
theorem checkAlign_of_isAlignment {n offset : Nat} (h : IsAlignment n) :
    TypeVector.checkAlign (UInt8.ofNat n) offset = .ok n := by
  rcases h with rfl | rfl | rfl | rfl <;> rfl

/-! ### Layouts -/

theorem emitLayout_eq_ok {s : StructSpec} {index : Nat} (e : emitLayout s b = .ok index b') :
    index = b.layout.size ∧ s.slots.length = s.slotted.length ∧
      (∀ slot ∈ s.slots, s.hostSlots.isSome → slot.toNat < s.slotted.length) ∧
      b' = { b with layout :=
        b.layout.push (UInt32.ofNat s.slotted.length) ++ s.slots.toArray } := by
  unfold emitLayout at e
  obtain ⟨_, _, h1, e⟩ := bind_eq_ok.1 e
  obtain ⟨rfl, rfl⟩ := get_eq_ok.1 h1
  dsimp only at e
  have hset : ∀ slots : List UInt32, (do
      set { b with layout := b.layout.push (UInt32.ofNat s.slotted.length) ++ slots.toArray }
      return b.layout.size : Assemble Nat) b = .ok index b' → index = b.layout.size ∧
        b' = { b with layout := b.layout.push (UInt32.ofNat s.slotted.length) ++ slots.toArray } := by
    intro slots e
    obtain ⟨_, _, h1, e⟩ := bind_eq_ok.1 e
    obtain rfl := set_eq_ok.1 h1
    obtain ⟨rfl, rfl⟩ := pure_eq_ok.1 e
    exact ⟨rfl, rfl⟩
  unfold StructSpec.slots
  cases hslots : s.hostSlots with
  | none =>
    simp only [hslots] at e
    obtain ⟨rfl, rfl⟩ := hset _ e
    exact ⟨rfl, by simp, by simp, rfl⟩
  | some slots =>
    simp only [hslots] at e
    split at e
    · rename_i h
      obtain ⟨rfl, rfl⟩ := hset _ e
      exact ⟨rfl, h.1, fun slot hslot _ => by simpa using List.all_eq_true.1 h.2 slot hslot, rfl⟩
    · exact absurd e fun h => by
        obtain ⟨_, _, h, -⟩ := bind_eq_ok.1 h
        obtain ⟨_, _, -, h⟩ := bind_eq_ok.1 h
        exact throw_ne_ok h

/-- A layout that was emitted is found. -/
theorem Laid.lays {s : StructSpec} {index : Nat} (h : Laid i a b') (hi : i.Small)
    (e : emitLayout s b = .ok index b') : i.layout.Lays index s ∧ index < 2 ^ 32 := by
  obtain ⟨rfl, hlength, hslots, rfl⟩ := emitLayout_eq_ok e
  obtain ⟨more, hmore⟩ := h.layout
  have hsize := congrArg List.length hmore
  simp only [Array.toList_append, Array.toList_push, List.append_assoc, List.length_append,
    List.length_cons, List.length_nil, Array.length_toList] at hsize
  have hsmall := hi.layout
  have hget : ∀ k, i.layout.entries[b.layout.size + k]? =
      (UInt32.ofNat s.slotted.length :: (s.slots ++ more))[k]? := fun k => by
    rw [← Array.getElem?_toList, ← hmore]
    simp [List.getElem?_append_right, ← Array.length_toList]
  have hcount : i.layout.slotCount b.layout.size = .ok s.slotted.length :=
    Layout.slotCount_eq_ok_iff.2 ⟨_, hget 0, UInt32.toNat_ofNat_of_lt' (by
      show s.slotted.length < 2 ^ 32
      omega)⟩
  refine ⟨⟨hcount, hlength, fun k slot hk => ?_⟩, by omega⟩
  have hlt : k < s.slots.length := (List.getElem?_eq_some_iff.1 hk).1
  have hslot : slot.toNat < s.slotted.length := by
    cases hhost : s.hostSlots with
    | some slots => exact hslots slot (List.mem_of_getElem? hk) (by rw [hhost]; rfl)
    | none =>
      simp only [StructSpec.slots, hhost, Option.getD_none, List.getElem?_map,
        List.getElem?_range (hlength ▸ hlt), Option.map_some, Option.some.injEq] at hk
      rw [← hk, UInt32.toNat_ofNat_of_lt' (by show k < 2 ^ 32; omega)]
      omega
  unfold Layout.slot
  refine Except.bind_eq_ok.2 ⟨_, hcount, ?_⟩
  rw [if_neg (by omega), Nat.add_assoc, Nat.add_comm 1 k, hget (k + 1), List.getElem?_cons_succ,
    List.getElem?_append_left hlt, hk]
  simp only [if_neg (show ¬s.slotted.length ≤ slot.toNat by omega)]
  rfl

/-! ### Bounds and ends of lists -/

/-- A kind and flags in one byte are told apart. -/
theorem byte_of_kind_and_flags {kind flags : UInt8} (hk : kind < 16)
    (hf : flags &&& BoundFlag.kindMask = 0) :
    (kind ||| flags) &&& BoundFlag.kindMask = kind ∧
      (kind ||| flags) &&& ~~~BoundFlag.kindMask = flags := by
  have hall : ∀ n < 16, UInt8.ofNat n &&& BoundFlag.kindMask = UInt8.ofNat n := by decide
  have hk : kind &&& BoundFlag.kindMask = kind := by
    simpa using hall kind.toNat hk
  have hbits : ∀ {x y : UInt8}, x = y → ∀ n, x.toBitVec.getLsbD n = y.toBitVec.getLsbD n :=
    fun h n => by rw [h]
  constructor
  all_goals
    refine UInt8.toBitVec_inj.1 (BitVec.eq_of_getLsbD_eq fun n hn => ?_)
    have h1 := hbits hk n
    have h2 := hbits hf n
    simp only [UInt8.toBitVec_and, UInt8.toBitVec_or, UInt8.toBitVec_not, BitVec.getLsbD_and,
      BitVec.getLsbD_or, BitVec.getLsbD_not, UInt8.toBitVec_ofNat, BitVec.getLsbD_zero] at h1 h2 ⊢
    grind

section

variable {tv : TypeVector} {base start : Nat}

theorem readBound_at {x : Bound} (hx : x.Fits) (h : Record.At tv f base start (r.bound x))
    (hb : Record.Begun f start r) :
    tv.readBound (base + r.bytes.size) = .ok x (base + (r.bound x).bytes.size) := by
  obtain ⟨hkind, hflags⟩ := byte_of_kind_and_flags hx.kind hx.flags
  have b1 := hb.byte (x.kind ||| x.flags)
  have b2 := b1.byte x.fieldType
  have b3 := b2.byte x.operator
  have b4 := b3.byte filler
  have h4 := h.back (Record.continues_word _) b4
  have h3 := h4.back (Record.continues_byte _) b3
  have h2 := h3.back (Record.continues_byte _) b2
  have h1 := h2.back (Record.continues_byte _) b1
  exact bind_eq_ok.2 ⟨_, _, Record.readByte_at h1 hb, bind_eq_ok.2 ⟨_, _, Record.readByte_at h2 b1,
    bind_eq_ok.2 ⟨_, _, Record.readByte_at h3 b2, bind_eq_ok.2 ⟨_, _,
      Record.skip_at h4 (Record.size_byte _ _), bind_eq_ok.2 ⟨_, _, Record.readWord_at h b4, by
        rw [hkind, hflags]
        rfl⟩⟩⟩⟩⟩

theorem readBoundPair_at {p : BoundPair} (hp : p.lower.Fits ∧ p.upper.Fits) (h : Record.At tv f base start (r.boundPair p))
    (hb : Record.Begun f start r) :
    tv.readBoundPair (base + r.bytes.size) = .ok p (base + (r.boundPair p).bytes.size) := by
  have b1 := hb.mono (Record.continues_bound p.lower)
  have h1 := h.back (Record.continues_bound _) b1
  exact bind_eq_ok.2 ⟨_, _, readBound_at hp.1 h1 hb, bind_eq_ok.2 ⟨_, _, readBound_at hp.2 h b1, rfl⟩⟩

theorem readBoundPairs_at {pairs : List BoundPair} (hn : n = pairs.length)
    (hp : ∀ p ∈ pairs, p.lower.Fits ∧ p.upper.Fits)
    (h : Record.At tv f base start (pairs.foldl Record.boundPair r)) (hb : Record.Begun f start r) :
    repeatM n tv.readBoundPair (base + r.bytes.size) =
      .ok pairs (base + (pairs.foldl Record.boundPair r).bytes.size) := by
  subst hn
  induction pairs generalizing r with
  | nil => rfl
  | cons p pairs ih =>
    have b1 := hb.mono (Record.continues_boundPair p)
    have h1 := h.back (continues_boundPairs pairs _) b1
    rw [List.length_cons, repeatM_succ]
    exact bind_eq_ok.2 ⟨_, _, readBoundPair_at (hp p List.mem_cons_self) h1 hb,
      map_eq_ok.2 ⟨_, ih (fun q hq => hp q (List.mem_cons_of_mem _ hq)) h b1, rfl⟩⟩

theorem expectEnd_at (h : Record.At tv f base start (r.op .endOfList))
    (hb : Record.Begun f start r) :
    tv.expectEnd (base + r.bytes.size) = .ok () (base + (r.op .endOfList).bytes.size) :=
  bind_eq_ok.2 ⟨_, _, rfl, bind_eq_ok.2 ⟨_, _, Record.readOpcode_at h hb, rfl⟩⟩

end

/-! ### Descriptors -/

/-- How a type that was written behind `r` is read. -/
structure Reads (i : Interface) (a : Assembler) (base : Nat) (spec : TypeSpec) (r r' : Record)
    (definition : Option Nat) : Prop where
  first : ∃ op : Opcode, Record.Continues a.offset? (r.op op) r' ∧ op ≠ .noArm ∧ op ≠ .endNested ∧
    (op = .void ↔ spec = .void)
  reads : ∀ m o fuel, r'.bytes.size ≤ r.bytes.size + fuel →
    ∃ d, Spells i a m spec d ∧ d.form.arrayAt? = definition ∧
      i.vector.readDescriptorFrom fuel o m (base + r.bytes.size) =
        .ok (some d) (base + r'.bytes.size)

/-- What is written in such a way is read, where it is found in the vector. -/
def ReadsBack (i : Interface) (a : Assembler) (write : Write) : Prop :=
  ∀ {spec r r' definition b b' base start}, write spec r b = .ok (r', definition) b' →
    spec.Plain → Started a.offset? a.tail? b → Laid i a b' →
    Record.At i.vector a.offset? base start r' → Record.Begun a.offset? start r →
    Reads i a base spec r r' definition

section

variable {base start : Nat} {spec : TypeSpec} {definition : Option Nat} {op : Opcode}

theorem Reads.size_lt (h : Reads i a base spec r r' definition) : r.bytes.size < r'.bytes.size := by
  obtain ⟨op, hc, -⟩ := h.first
  have := hc.size_le
  rwa [Record.op, Record.size_byte] at this

/-- A descriptor is read from its opcode on. -/
theorem reads_of_op (h : Record.At i.vector a.offset? base start r')
    (hb : Record.Begun a.offset? start r) (hc : Record.Continues a.offset? (r.op op) r')
    (hop : op ≠ .noArm ∧ op ≠ .endNested ∧ (op = .void ↔ spec = .void))
    (hrest : ∀ m o fuel, r'.bytes.size ≤ (r.op op).bytes.size + fuel →
      i.vector.readOpcode (base + r.bytes.size) = .ok op (base + (r.op op).bytes.size) →
      ∃ d, Spells i a m spec d ∧ d.form.arrayAt? = definition ∧
        i.vector.readDescriptorFrom (fuel + 1) o m (base + r.bytes.size) =
          .ok (some d) (base + r'.bytes.size)) :
    Reads i a base spec r r' definition := by
  refine ⟨⟨op, hc, hop⟩, fun m o fuel hfuel => ?_⟩
  have hsize := hc.size_le
  have hop1 : (r.op op).bytes.size = r.bytes.size + 1 := Record.size_byte _ _
  obtain ⟨fuel, rfl⟩ : ∃ k, fuel = k + 1 := ⟨fuel - 1, by omega⟩
  exact hrest m o fuel (by omega) (Record.readOpcode_at (h.back hc (hb.op op)) hb)

/-- The descriptor that follows in a list. -/
theorem Reads.descriptor (h : Reads i a base spec r r' definition)
    (hat : Record.At i.vector a.offset? base start r') :
    ∃ d, Spells i a {} spec d ∧ d.form.arrayAt? = definition ∧
      i.vector.readDescriptor (base + r.bytes.size) = .ok (some d) (base + r'.bytes.size) := by
  have hfits := hat.fits
  obtain ⟨d, hd, hdef, hread⟩ := h.reads {} (base + r.bytes.size) (i.vector.size + 1) (by omega)
  exact ⟨d, hd, hdef, bind_eq_ok.2 ⟨_, _, rfl, hread⟩⟩

end

/-! ### Streams -/

section

variable {write : Write} (hw : ReadsBack i a write) (hgrow : WriteAdds a.offset? a.tail? write)
  (hi : i.Small)
include hw hgrow

/-- A list of one descriptor that was emitted. -/
theorem emitted_reads {spec : TypeSpec} {definition : Option Nat} {b1 : Assembler}
    (e : write spec r b = .ok (r', definition) b1)
    (e' : emit (r'.op .endOfList) b1 = .ok n b') (hp : spec.Plain)
    (hb : Started a.offset? a.tail? b) (hl : Laid i a b') (hr : (r.sheet a.offset?).Sound)
    (ho : r.order = b.order) :
    Record.At i.vector a.offset? n 0 (r'.op .endOfList) ∧ Reads i a n spec r r' definition ∧
      b'.bytes = fill b1.bytes ++ (r'.op .endOfList).bytes ∧ n = (fill b1.bytes).size := by
  obtain ⟨hg, hc⟩ := (hgrow spec r hr).ok e
  obtain ⟨rfl, rfl⟩ := emit_eq_ok.1 e'
  have hs := (Record.continues_op .endOfList).sound (hc.sound hr)
  have hat := hl.at_append (hb.mono hg.toLater) hs (hc.order.trans (ho.trans hg.order.symm))
  have hbegun : Record.Begun a.offset? 0 r := ⟨hr, Nat.zero_le _⟩
  have hat' := hat.back (Record.continues_op _) (hbegun.mono hc)
  exact ⟨hat, hw e hp hb (hl.back (grown_append hs).toLater) hat' hbegun, rfl, rfl⟩

include hi in
/-- A stream that was emitted spells its type, and begins with its first opcode. -/
theorem emitStream_reads {spec : TypeSpec} (e : emitStream write spec b = .ok n b')
    (hp : spec.Plain) (hb : Started a.offset? a.tail? b) (hl : Laid i a b') :
    n < 2 ^ 32 ∧ (∃ d, i.vector.stream n = .ok d ∧ Spells i a {} spec d) ∧
      ∃ op : Opcode, b'.bytes[n]? = some op.toByte ∧ i.vector.bytes[n]? = some op.toByte ∧
        op ≠ .noArm ∧ (op = .void ↔ spec = .void) := by
  obtain ⟨_, _, e0, e⟩ := bind_eq_ok.1 e
  obtain ⟨rfl, rfl⟩ := record_eq_ok.1 e0
  obtain ⟨⟨r1, definition⟩, b1, e1, e2⟩ := bind_eq_ok.1 e
  have hr : (Record.sheet a.offset? { order := b.order }).Sound := sound_record
  obtain ⟨hat, hreads, hbytes, hn⟩ := emitted_reads hw hgrow e1 e2 hp hb hl hr rfl
  obtain ⟨op, hc, hno, -, hvoid⟩ := hreads.first
  have hbegun : Record.Begun a.offset? 0 { order := b.order } := ⟨hr, Nat.zero_le _⟩
  have hbegun1 : Record.Begun a.offset? 0 r1 := (hbegun.op op).mono hc
  have hat1 := hat.back (Record.continues_op _) hbegun1
  have hsize := hreads.size_lt
  have hfits := hat.fits
  have hsmall := hi.vector
  rw [Record.op, Record.size_byte] at hfits
  refine ⟨by omega, ?_, op, ?_, ?_, hno, hvoid⟩
  · obtain ⟨d, hd, -, hread⟩ := hreads.descriptor hat1
    refine ⟨d, ?_, hd⟩
    exact TypeVector.readAt_eq_ok.2 ⟨_, bind_eq_ok.2 ⟨_, _, hread, bind_eq_ok.2 ⟨_, _,
      expectEnd_at hat hbegun1, rfl⟩⟩⟩
  · rw [hbytes, hn, Array.getElem?_append_right (Nat.le_refl _), Nat.sub_self]
    have := (hc.trans (Record.continues_op .endOfList)).sheet.getElem? (k := 0) (by
      show 0 < (Record.op _ op).bytes.size
      rw [Record.op, Record.size_byte]
      omega)
    exact this.trans (by simp [Record.sheet, Record.op, Record.byte])
  · exact Record.getElem?_at (hat1.back hc (hbegun.op op)) hbegun

include hi in
/-- The definition of an array that was emitted. -/
theorem emitArray_reads {s : ArraySpec} (e : emitArray write s b = .ok n b')
    (hp : (TypeSpec.array s).Plain) (hb : Started a.offset? a.tail? b) (hl : Laid i a b') :
    n < 2 ^ 32 ∧ s.bounds.length < 256 ∧ ∃ d, i.vector.arrayDefinition n s.kind.isVarying =
      .ok ⟨n, s.dimensions, d⟩ ∧ Spells i a {} s.element d := by
  unfold emitArray at e
  obtain ⟨hdims, e⟩ := guard_eq_ok.1 e
  obtain ⟨hlimits, e⟩ := guard_eq_ok.1 e
  obtain ⟨_, _, e0, e⟩ := bind_eq_ok.1 e
  obtain ⟨rfl, rfl⟩ := record_eq_ok.1 e0
  obtain ⟨⟨r1, definition⟩, b1, e1, e2⟩ := bind_eq_ok.1 e
  have hlt : s.bounds.length < 256 := by omega
  obtain ⟨-, -, hfit, hparts⟩ := hp
  have hpairs := fun p (hp : p ∈ s.bounds) => hfit s rfl p (List.mem_append_left _ hp)
  have helement := hparts s.element (List.mem_singleton.2 rfl)
  have b0 : Record.Begun a.offset? 0 { order := b.order } := ⟨sound_record, Nat.zero_le _⟩
  have b1 := b0.byte (UInt8.ofNat s.bounds.length)
  have b4 := ((b1.byte filler).byte filler).byte filler
  have b5 := b4.mono (continues_boundPairs s.bounds _)
  have hlist := continues_boundPairs (f := a.offset?) (if s.kind.isVarying then s.limits else [])
  have b6 := b5.mono (hlist _)
  simp only [List.foldl_append] at e1
  obtain ⟨hat, hreads, -, -⟩ := emitted_reads hw hgrow e1 e2 helement hb hl b6.sound
    ((hlist _).order.trans (continues_boundPairs (f := a.offset?) s.bounds _).order)
  obtain ⟨op, hc, -⟩ := hreads.first
  have b7 := (b6.op op).mono hc
  have h7 := hat.back (Record.continues_op _) b7
  have h6 := h7.back ((Record.continues_op op).trans hc) b6
  have h5 := h6.back (hlist _) b5
  have h4 := h5.back (continues_boundPairs _ _) b4
  have h1 := h4.back (((Record.continues_byte _).trans (Record.continues_byte _)).trans
    (Record.continues_byte _)) b1
  have hfits := h7.fits
  have hsize := hreads.size_lt
  have hsmall := hi.vector
  obtain ⟨d, hd, -, hread⟩ := hreads.descriptor h7
  have hdims' : (UInt8.ofNat s.bounds.length).toNat = s.bounds.length :=
    UInt8.toNat_ofNat_of_lt' hlt
  have hbounds := readBoundPairs_at hdims' hpairs h5 b4
  have hrest : ∀ limits, TypeVector.dimensionsOf s.bounds limits = s.dimensions →
      i.vector.readElement n (TypeVector.dimensionsOf s.bounds limits)
        (n + (List.foldl Record.boundPair (List.foldl Record.boundPair
          (((({ order := b.order : Record }.byte (UInt8.ofNat s.bounds.length)).byte filler).byte
            filler).byte filler) s.bounds) (if s.kind.isVarying then s.limits else [])).bytes.size) =
        .ok ⟨n, s.dimensions, d⟩ (n + (r1.op .endOfList).bytes.size) := by
    intro limits hl
    rw [hl]
    exact bind_eq_ok.2 ⟨_, _, rfl, bind_eq_ok.2 ⟨_, _, hread, bind_eq_ok.2 ⟨_, _,
      expectEnd_at hat b7, rfl⟩⟩⟩
  refine ⟨by omega, hlt, d, TypeVector.readAt_eq_ok.2 ⟨n + (r1.op .endOfList).bytes.size,
    bind_eq_ok.2 ⟨_, _, Record.readByte_at h1 b0, ?_⟩⟩, hd⟩
  rw [if_neg fun h => by
    rw [h] at hdims'
    exact hdims (.inl hdims'.symm)]
  refine bind_eq_ok.2 ⟨(), _, Record.skip_at h4 rfl, bind_eq_ok.2 ⟨_, _, hbounds, ?_⟩⟩
  cases hvarying : s.kind.isVarying with
  | false =>
    have := hrest none (by simp [ArraySpec.dimensions, hvarying])
    simp only [hvarying, Bool.false_eq_true, if_false, List.foldl_nil] at this
    rw [if_neg (by decide)]
    exact bind_eq_ok.2 ⟨none, _, rfl, this⟩
  | true =>
    have := hrest (some s.limits) (by simp [ArraySpec.dimensions, hvarying])
    have hlength : s.limits.length = s.bounds.length := Decidable.byContradiction fun h =>
      hlimits ⟨hvarying, h⟩
    simp only [hvarying, if_true] at this h6
    have hread := readBoundPairs_at (hdims'.trans hlength.symm)
      (fun p hp => hfit s rfl p (List.mem_append_right _ hp)) h6 b5
    rw [if_pos rfl]
    exact bind_eq_ok.2 ⟨_, _, map_eq_ok.2 ⟨_, hread, rfl⟩, this⟩

end

/-! ### Arms -/

theorem ArmBody.of_stream {op : Opcode} {stream : Nat} (h1 : op ≠ .void) (h2 : op ≠ .noArm) :
    ArmBody.of op stream = .stream stream := by
  unfold ArmBody.of
  split
  · exact absurd rfl h1
  · exact absurd rfl h2
  · rfl

section

variable {tv : TypeVector} {base start : Nat}

theorem size_word_of_aligned {r : Record} (h : r.bytes.size % 4 = 0) (v : Nat) :
    (r.word v).bytes.size = r.bytes.size + 4 := by
  rw [Record.size_word, Record.size_fill, padding, if_neg (by decide), h]

theorem size_arm (h : r.bytes.size % 4 = 0) (label : UInt32) (arm : ArmRecord) :
    (arm.write label r).bytes.size = r.bytes.size + TypeVector.armWidth := by
  have h1 := size_word_of_aligned h label.toNat
  have h2 := size_word_of_aligned
    (r := ((((r.word label.toNat).byte arm.kind).byte arm.props).byte filler).byte filler)
    (by simp only [Record.size_byte]; omega) arm.stream
  have h3 := size_word_of_aligned
    (r := (((((r.word label.toNat).byte arm.kind).byte arm.props).byte filler).byte filler).word
      arm.stream) (by rw [h2]; simp only [Record.size_byte]; omega) 0
  unfold ArmRecord.write TypeVector.armWidth
  rw [h3, h2]
  simp only [Record.size_byte]
  omega

theorem armAt_at {label : UInt32} {arm : ArmRecord} {op : Opcode} (hop : arm.kind = op.toByte)
    (hstream : arm.stream < 2 ^ 32) (h : Record.At tv f base start (arm.write label r))
    (hb : Record.Begun f start r) :
    tv.armAt (base + r.bytes.size) = .ok ⟨label, arm.props, .of op arm.stream⟩ := by
  have b1 := hb.word label.toNat
  have b2 := b1.op op
  have b3 := b2.byte arm.props
  have b5 := (b3.byte filler).byte filler
  have b6 := b5.word arm.stream
  unfold ArmRecord.write at h
  rw [hop, show (0 : Nat) = (0 : UInt32).toNat from rfl] at h
  have h6 := h.back (Record.continues_word _) b6
  have h5 := h6.back (Record.continues_word _) b5
  have h3 := h5.back ((Record.continues_byte _).trans (Record.continues_byte _)) b3
  have h2 := h3.back (Record.continues_byte _) b2
  have h1 := h2.back (Record.continues_op _) b1
  refine TypeVector.readAt_eq_ok.2 ⟨_, bind_eq_ok.2 ⟨_, _, Record.readWord_at h1 hb,
    bind_eq_ok.2 ⟨_, _, Record.readOpcode_at h2 b1, bind_eq_ok.2 ⟨_, _, Record.readByte_at h3 b2,
    bind_eq_ok.2 ⟨_, _, Record.skip_at h5 (by rw [Record.size_byte, Record.size_byte]; rfl), bind_eq_ok.2 ⟨_, _,
    Record.readNat_at hstream h6 b5, bind_eq_ok.2 ⟨_, _, Record.readWord_at h b6, rfl⟩⟩⟩⟩⟩⟩⟩

/-- The records of arms, one behind the other. -/
theorem arms_at {arms : List (UInt32 × ArmRecord)} (hr : r.bytes.size % 4 = 0)
    (h : Record.At tv f base start (writeArms arms r)) (hb : Record.Begun f start r) :
    (writeArms arms r).bytes.size = r.bytes.size + arms.length * TypeVector.armWidth ∧
    ∀ k label arm op, arms[k]? = some (label, arm) → arm.kind = Opcode.toByte op →
      arm.stream < 2 ^ 32 → tv.armAt (base + r.bytes.size + k * TypeVector.armWidth) =
        .ok ⟨label, arm.props, .of op arm.stream⟩ := by
  induction arms generalizing r with
  | nil => exact ⟨by simp [writeArms], fun k _ _ _ hk => absurd hk (by simp)⟩
  | cons first arms ih =>
    obtain ⟨label, arm⟩ := first
    have hb1 := hb.mono (continues_arm label arm r)
    have h1 := h.back (continues_arms arms _) hb1
    have hsize := size_arm hr label arm
    have hr1 : (arm.write label r).bytes.size % 4 = 0 := by
      rw [hsize, TypeVector.armWidth]
      omega
    obtain ⟨ih1, ih2⟩ := ih hr1 h hb1
    rw [hsize] at ih1 ih2
    refine ⟨?_, fun k label' arm' op hk hop hstream => ?_⟩
    · rw [writeArms, List.foldl_cons, ← writeArms, ih1, List.length_cons, Nat.add_mul]
      omega
    · cases k with
      | zero =>
        obtain ⟨rfl, rfl⟩ := Prod.mk.inj (Option.some.inj hk)
        rw [Nat.zero_mul]
        exact armAt_at hop hstream h1 hb
      | succ k =>
        have := ih2 k label' arm' op hk hop hstream
        rw [Nat.add_mul, Nat.one_mul]
        rw [show base + (r.bytes.size + TypeVector.armWidth) + k * TypeVector.armWidth =
          base + r.bytes.size + (k * TypeVector.armWidth + TypeVector.armWidth) by omega] at this
        exact this

end

/-- The record of an arm stands for its type. -/
def ArmStands (i : Interface) (a : Assembler) (t : Option TypeSpec) (arm : ArmRecord) : Prop :=
  arm.stream < 2 ^ 32 ∧ ∃ op : Opcode, arm.kind = op.toByte ∧ SpellsArm i a t (.of op arm.stream)

/-- The record of a default stands for it. -/
def DefaultStands (i : Interface) (a : Assembler) (default : DefaultArm) (arm : ArmRecord) : Prop :=
  arm.stream < 2 ^ 32 ∧ ∃ op : Opcode, arm.kind = op.toByte ∧
    SpellsDefault i a default (.of op arm.stream)

theorem size_unionHead {u : UnionSpec} {align : Nat} {order : ByteOrder} :
    (unionHead u align { order }).bytes.size = 8 := by
  have hsize : (((({ order : Record }.op (.scalar u.switch)).byte
      (if u.optional then 1 else 0)).byte (UInt8.ofNat align)).byte filler).bytes.size = 4 := by
    simp only [Record.op, Record.size_byte]
    rfl
  rw [unionHead, size_word_of_aligned (by rw [hsize]), hsize]

/-- The definition of a union is read from its head, where its arms fit behind it. -/
theorem unionHead_reads {u : UnionSpec} {align : Nat} {order : ByteOrder}
    (hu : u.switch.isIntegral) (halign : IsAlignment align) (hcount : u.arms.length < 2 ^ 32)
    (h : Record.At i.vector a.offset? n 0 (unionHead u align { order }))
    (hfits : n + 8 + (u.arms.length + 1) * TypeVector.armWidth ≤ i.vector.size) :
    i.vector.unionDefinition n =
      .ok ⟨n, u.switch, u.optional, align, u.arms.length, n + 8⟩ := by
  have hb : Record.Begun a.offset? 0 { order } := ⟨sound_record, Nat.zero_le _⟩
  have b1 := hb.op (.scalar u.switch)
  have b2 := b1.byte (if u.optional then 1 else 0)
  have b3 := b2.byte (UInt8.ofNat align)
  have b4 := b3.byte filler
  have h4 := h.back (Record.continues_word _) b4
  have h3 := h4.back (Record.continues_byte _) b3
  have h2 := h3.back (Record.continues_byte _) b2
  have h1 := h2.back (Record.continues_byte _) b1
  have hopt : ((if u.optional then (1 : UInt8) else 0) &&& TypeVector.optionalFlag ≠ 0 : Bool) =
      u.optional := by
    cases u.optional <;> rfl
  have hsize : (unionHead u align { order }).bytes.size = 8 := size_unionHead
  rw [← hsize] at hfits ⊢
  refine TypeVector.readAt_eq_ok.2 ⟨n + (unionHead u align { order }).bytes.size,
    bind_eq_ok.2 ⟨_, _, Record.readOpcode_at h1 hb, ?_⟩⟩
  dsimp only
  rw [hu]
  refine bind_eq_ok.2 ⟨_, _, Record.readByte_at h2 b1, bind_eq_ok.2 ⟨_, _,
    Record.readByte_at h3 b2, bind_eq_ok.2 ⟨_, _, Record.skip_at h4 (Record.size_byte _ _),
    bind_eq_ok.2 ⟨_, _, Record.readNat_at hcount h b4, bind_eq_ok.2 ⟨_, _, rfl, ?_⟩⟩⟩⟩⟩
  change (if i.vector.size < n + (unionHead u align { order }).bytes.size +
    (u.arms.length + 1) * TypeVector.armWidth then _ else _ : Scan UnionDefinition) _ = _
  rw [if_neg (Nat.not_lt.2 hfits), hopt]
  exact bind_eq_ok.2 ⟨_, _, lift_eq_ok.2 ⟨checkAlign_of_isAlignment halign, rfl⟩, rfl⟩

/-- The definition of a union that was emitted, its arms behind its head. -/
theorem unionDefinition_reads (hi : i.Small) {u : UnionSpec} {align : Nat} {cases : List (UInt32 × ArmRecord)}
    {default : ArmRecord} (hu : u.switch.isIntegral) (halign : IsAlignment align)
    (hcases : List.Forall₂ (fun p q => q.1 = p.1 ∧ ArmStands i a p.2 q.2) u.arms cases)
    (hdefault : DefaultStands i a u.default default)
    (h : Record.At i.vector a.offset? n 0 (writeArms (cases ++ [(0, default)])
      (unionHead u align { order := b.order }))) : n < 2 ^ 32 ∧ SpellsUnion i a u n := by
  have hb : Record.Begun a.offset? 0 (unionHead u align { order := b.order }) :=
    ((((Record.Begun.op ⟨sound_record, Nat.zero_le _⟩ (.scalar u.switch)).byte _).byte _).byte
      filler).word u.arms.length
  have hlength := hcases.length_eq
  obtain ⟨hsize, hat⟩ := arms_at (by rw [size_unionHead]) h hb
  have hfits := h.fits
  have hsmall := hi.vector
  rw [hsize, size_unionHead, List.length_append, List.length_singleton, ← hlength,
    ← Nat.add_assoc] at hfits
  rw [size_unionHead] at hat
  have hcount : u.arms.length < 2 ^ 32 := by
    rw [TypeVector.armWidth] at hfits
    omega
  have hdefinition := unionHead_reads hu halign hcount (h.back (continues_arms _ _) hb) hfits
  -- the records of the arms, wherever there are any
  let arms : Nat → Arm := fun k =>
    (i.vector.armAt (n + 8 + k * TypeVector.armWidth)).toOption.getD ⟨0, 0, .empty⟩
  have harms : ∀ {k : Nat} {x : Arm}, i.vector.armAt (n + 8 + k * TypeVector.armWidth) = .ok x →
      arms k = x := fun h => by simp only [arms, h]; rfl
  have hcase : ∀ k label t, u.arms[k]? = some (label, t) → ∃ (op : Opcode) (arm : ArmRecord),
      SpellsArm i a t (.of op arm.stream) ∧ i.vector.armAt (n + 8 + k * TypeVector.armWidth) =
        .ok ⟨label, arm.props, .of op arm.stream⟩ := by
    intro k label t hk
    obtain ⟨hlt, hk⟩ := List.getElem?_eq_some_iff.1 hk
    have hk' : k < cases.length := hlength ▸ hlt
    obtain ⟨hlabel, hs, op, hop, hspells⟩ := hcases.get hlt hk'
    simp only [List.get_eq_getElem, hk] at hlabel hs hop hspells
    refine ⟨op, cases[k].2, hspells, hat k label cases[k].2 op ?_ hop hs⟩
    rw [List.getElem?_append_left hk', List.getElem?_eq_getElem hk', ← hlabel]
  obtain ⟨hs, op, hop, hspells⟩ := hdefault
  have hlast := hat u.arms.length 0 default op (by rw [hlength]; simp) hop hs
  have hrest : SpellsDefault i a u.default (arms u.arms.length).body := by
    rw [harms hlast]
    exact hspells
  refine ⟨by omega, .intro hu hdefinition ⟨rfl, rfl, rfl⟩ (fun k hk => ?_)
    (fun k label t hk => ?_) (fun k label t hk => ?_) hrest⟩
  · rcases Nat.lt_or_eq_of_le hk with hk | rfl
    · obtain ⟨op, arm, -, harm⟩ := hcase k _ _ (List.getElem?_eq_getElem hk)
      exact harm.trans (congrArg _ (harms harm).symm)
    · exact hlast.trans (congrArg _ (harms hlast).symm)
  · obtain ⟨op, arm, -, harm⟩ := hcase k label t hk
    rw [harms harm]
  · obtain ⟨op, arm, hspells, harm⟩ := hcase k label t hk
    rw [harms harm]
    exact hspells

section

variable {room : Nat} {write : Write} (hw : ReadsBack i a write)
  (hgrow : WriteAdds a.offset? a.tail? write) (hi : i.Small)
include hw hgrow hi

theorem emitArm_reads {spec : TypeSpec} {arm : ArmRecord}
    (e : emitArm room write spec b = .ok arm b') (hp : spec.Plain)
    (hb : Started a.offset? a.tail? b) (hl : Laid i a b') : ArmStands i a (some spec) arm := by
  unfold emitArm at e
  obtain ⟨_, _, e0, e⟩ := bind_eq_ok.1 e
  obtain ⟨rfl, rfl⟩ := get_eq_ok.1 e0
  obtain ⟨props, _, e1, e⟩ := bind_eq_ok.1 e
  obtain ⟨-, rfl⟩ := lift_eq_ok.1 e1
  obtain ⟨stream, b1, e2, e⟩ := bind_eq_ok.1 e
  obtain ⟨_, _, e3, e⟩ := bind_eq_ok.1 e
  obtain ⟨rfl, rfl⟩ := get_eq_ok.1 e3
  obtain ⟨rfl, rfl⟩ := pure_eq_ok.1 e
  obtain ⟨hlt, ⟨d, hd, hspells⟩, op, hbyte, -, hno, hvoid⟩ := emitStream_reads hw hgrow hi e2 hp hb hl
  refine ⟨hlt, op, by rw [hbyte]; rfl, ?_⟩
  by_cases h : spec = .void
  · subst h
    obtain rfl := hvoid.2 rfl
    exact .void
  · rw [ArmBody.of_stream (fun ho => h (hvoid.1 ho)) hno]
    exact .stream h hd hspells

theorem emitCases_reads {arms : List (UInt32 × Option TypeSpec)} {cases : List (UInt32 × ArmRecord)}
    (e : emitCases room write arms b = .ok cases b') (hp : ∀ p ∈ arms, ∀ t, p.2 = some t → t.Plain)
    (hb : Started a.offset? a.tail? b) (hl : Laid i a b') :
    List.Forall₂ (fun p q => q.1 = p.1 ∧ ArmStands i a p.2 q.2) arms cases := by
  induction arms generalizing b cases with
  | nil =>
    obtain ⟨rfl, -⟩ := pure_eq_ok.1 e
    exact .nil
  | cons first arms ih =>
    obtain ⟨label, arm⟩ := first
    unfold emitCases at e
    have hrest : ∀ {b1 : Assembler} (r : ArmRecord), (do
        return (label, r) :: (← emitCases room write arms) : Assemble _) b1 = .ok cases b' →
        Started a.offset? a.tail? b1 → (Laid i a b1 → ArmStands i a arm r) →
        List.Forall₂ (fun p q => q.1 = p.1 ∧ ArmStands i a p.2 q.2) ((label, arm) :: arms) cases := by
      intro b1 r e hb1 harm
      obtain ⟨rest, _, e2, e⟩ := bind_eq_ok.1 e
      obtain ⟨rfl, rfl⟩ := pure_eq_ok.1 e
      obtain ⟨hg, -⟩ := (adds_emitCases hgrow room arms).ok e2
      exact .cons ⟨rfl, harm (hl.back hg.toLater)⟩
        (ih e2 (fun p hp' => hp p (List.mem_cons_of_mem _ hp')) hb1)
    cases arm with
    | none => exact hrest _ e hb fun _ => ⟨by decide, .void, rfl, .empty⟩
    | some spec =>
      obtain ⟨r, b1, e1, e⟩ := bind_eq_ok.1 e
      obtain ⟨hg, -⟩ := (adds_emitArm hgrow room spec).ok e1
      exact hrest r e (hb.mono hg.toLater) fun hl1 =>
        emitArm_reads hw hgrow hi e1 (hp _ List.mem_cons_self spec rfl) hb hl1

/-- The definition of a union that was emitted. -/
theorem emitUnion_reads {u : UnionSpec} (e : emitUnion room write u b = .ok n b')
    (hp : ∀ t ∈ u.armTypes, t.Plain) (hb : Started a.offset? a.tail? b) (hl : Laid i a b') :
    n < 2 ^ 32 ∧ SpellsUnion i a u n := by
  unfold emitUnion at e
  obtain ⟨hu, e⟩ := guard_eq_ok.1 e
  obtain ⟨_, _, e0, e⟩ := bind_eq_ok.1 e
  obtain ⟨rfl, rfl⟩ := get_eq_ok.1 e0
  obtain ⟨align, _, e1, e⟩ := bind_eq_ok.1 e
  obtain ⟨halign, rfl⟩ := lift_eq_ok.1 e1
  obtain ⟨cases, b1, e2, e⟩ := bind_eq_ok.1 e
  obtain ⟨hg1, -⟩ := (adds_emitCases hgrow room u.arms).ok e2
  have hb1 := hb.mono hg1.toLater
  have hrest : ∀ {b2 : Assembler} (default : ArmRecord), (do
      emit (writeArms (cases ++ [(0, default)]) (unionHead u align (← record))) : Assemble Nat)
        b2 = .ok n b' →
      Grown a.offset? a.tail? b1 b2 → (Laid i a b2 → DefaultStands i a u.default default) →
      n < 2 ^ 32 ∧ SpellsUnion i a u n := by
    intro b2 default e hg2 hdefault
    obtain ⟨_, _, e0, e⟩ := bind_eq_ok.1 e
    obtain ⟨rfl, rfl⟩ := record_eq_ok.1 e0
    obtain ⟨rfl, rfl⟩ := emit_eq_ok.1 e
    have hc := (continues_unionHead (f := a.offset?) u align { order := b2.order }).trans
      (continues_arms (cases ++ [(0, default)]) _)
    have hl2 := hl.back (grown_append (hc.sound sound_record)).toLater
    have hcases := emitCases_reads hw hgrow hi e2 (fun p hp' t ht => hp t (List.mem_append_left _
      (List.mem_filterMap.2 ⟨p, hp', ht⟩))) hb (hl2.back hg2.toLater)
    exact unionDefinition_reads hi (by simpa using hu) (isAlignment_largestAlign
      (fun _ _ h => isAlignment_alignOf h) halign) hcases (hdefault hl2)
      (hl.at_append (hb1.mono hg2.toLater) (hc.sound sound_record) hc.order)
  cases hd : u.default with
  | missing =>
    simp only [hd] at e
    refine hrest _ e .refl fun _ => ?_
    rw [hd]
    exact ⟨by decide, .noArm, rfl, .missing⟩
  | empty =>
    simp only [hd] at e
    refine hrest _ e .refl fun _ => ?_
    rw [hd]
    exact ⟨by decide, .void, rfl, .empty⟩
  | arm spec =>
    simp only [hd] at e
    obtain ⟨arm, b2, e3, e⟩ := bind_eq_ok.1 e
    obtain ⟨hg2, -⟩ := (adds_emitArm hgrow room spec).ok e3
    refine hrest _ e hg2 fun hl2 => ?_
    have hspec : spec ∈ u.armTypes := by
      unfold UnionSpec.armTypes
      rw [hd]
      exact List.mem_append_right _ (List.mem_singleton.2 rfl)
    obtain ⟨hs, op, hop, hspells⟩ := emitArm_reads hw hgrow hi e3 (hp spec hspec) hb1 hl2
    rw [hd]
    exact ⟨hs, op, hop, .arm hspells⟩

end

end Assembler

end Ndr
