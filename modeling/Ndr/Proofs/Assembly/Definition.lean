import Ndr.Proofs.Assembly.Struct

/-!
Every struct that is laid down is read back: its fields spell those of its type, and its operand
leads to the array at its end.
-/

namespace Ndr

namespace Assembler

variable {i : Interface} {a b b' : Assembler} {f g : StructId → Option Nat} {r r' : Record}
  {base start n : Nat} {id : StructId}

/-! ### Where the record of a struct stands -/

theorem overwrite_append (x y z : Array UInt8) {more : List UInt8} (h : y.size = more.length) :
    overwrite (x ++ y ++ z) x.size more = x ++ more.toArray ++ z := by
  refine Array.ext_getElem? fun k => ?_
  by_cases hx : k < x.size
  · rw [getElem?_overwrite_of_outside (.inl hx), Array.append_assoc, Array.append_assoc,
      Array.getElem?_append_left hx, Array.getElem?_append_left hx]
  · obtain ⟨k, rfl⟩ : ∃ j, k = x.size + j := ⟨k - x.size, by omega⟩
    have hbehind : ∀ u : Array UInt8, (x ++ u ++ z)[x.size + k]? = (u ++ z)[k]? := fun u => by
      rw [Array.append_assoc, Array.getElem?_append_right (Nat.le_add_right _ _),
        Nat.add_sub_cancel_left]
    rw [hbehind]
    by_cases hy : k < more.length
    · rw [getElem?_overwrite hy (by simp only [Array.size_append]; omega),
        Array.getElem?_append_left (by simpa using hy), List.getElem?_toArray]
    · rw [getElem?_overwrite_of_outside (.inr (by omega)), hbehind,
        Array.getElem?_append_right (by omega), Array.getElem?_append_right (by simpa using hy)]
      simp [h]

section

variable {order : ByteOrder} {align layout w : Nat} {props : UInt8}

theorem bytes_structHead_word (v : Nat) :
    ((structHead order align props layout).word v).bytes =
      (structHead order align props layout).bytes ++ (order.encode 4 v).toArray := by
  have hfill : fill (structHead order align props layout).bytes =
      (structHead order align props layout).bytes := by
    simp [fill, size_structHead, padding]
  show fill (structHead order align props layout).bytes ++ _ = _
  rw [hfill]
  rfl

/-- A record in which the operand was replaced continues the head with that operand. -/
theorem continues_patched (t : Nat)
    (hc : Record.Continues f ((structHead order align props layout).word w) r) :
    Record.Continues f ((structHead order align props layout).word t) (patched r t) := by
  have hplaces := place_of_struct hc
  have horder : r.order = order := hc.order
  have hbytes : ∃ more, (patched r t).bytes =
      ((structHead order align props layout).word t).bytes ++ more := by
    obtain ⟨more, hmore⟩ := hc.sheet.bytes
    change ((structHead order align props layout).word w).bytes.toList ++ more = r.bytes.toList at hmore
    have hr : r.bytes = (structHead order align props layout).bytes ++ (order.encode 4 w).toArray ++
        more.toArray := by
      rw [← bytes_structHead_word]
      exact Array.toList_inj.1 (by rw [← hmore]; simp)
    refine ⟨more.toArray, ?_⟩
    unfold patched
    have hhead : (structHead order align props layout).bytes.size = 8 := size_structHead
    rw [bytes_structHead_word, hr, horder, trailingPlace, ← hhead]
    exact overwrite_append _ _ _ (by simp)
  refine ⟨hc.order, ⟨?_, ?_, fun p hp => .inr ?_⟩, fun _ => sound_patched (hc.sound ?_)⟩
  · obtain ⟨more, h⟩ := hbytes
    exact ⟨more.toList, by simp [Record.sheet, h]⟩
  · exact fun p hp => absurd hp (by simp [Record.sheet, structHead, Record.byte, Record.word])
  · change ((structHead order align props layout).word t).bytes.size ≤ p.1
    rw [size_structHead_word]
    exact hplaces p hp
  · exact (Record.continues_word _).sound sound_structHead

end

/-- The bytes from `start'` on stand where all do. -/
theorem stands_from {tv : TypeVector} {s t : Sheet} {start' : Nat} (h : s.Stands tv base start)
    (hle : start ≤ start') (hsize : t.bytes.size = s.bytes.size)
    (hbytes : ∀ k, start' ≤ k → t.bytes[k]? = s.bytes[k]?)
    (hkept : ∀ p ∈ t.places, p ∈ s.places)
    (hmore : ∀ p ∈ s.places, p ∈ t.places ∨ p.1 + 4 ≤ start') : t.Stands tv base start' where
  fits := hsize ▸ h.fits
  bytes k h1 h2 hp := by
    rw [hbytes k h1]
    refine h.bytes k (Nat.le_trans hle h1) (hsize ▸ h2) fun p hps => ?_
    rcases hmore p hps with hp' | hp'
    · exact hp p hp'
    · exact .inr (Nat.le_trans hp' h1)
  places p hp hstart := h.places p (hkept p hp) (Nat.le_trans hle hstart)

/-- A record that was emitted, with the place that was noted in it for the operand of a struct,
stands where it was. -/
theorem stands_through {c : Assembler} {inner : StructId} (e : emit r b = .ok n c)
    (hb : Started a.offset? a.tail? b)
    (h : (({ c with trailingReferences := c.trailingReferences ++
      [(n + trailingPlace, inner)] } : Assembler).sheet a.offset? a.tail?).Stands i.vector 0
        TypeVector.headerSize) :
    Sheet.Stands i.vector n 0
      ⟨r.bytes, (r.sheet a.offset?).places ++ [(trailingPlace, a.tail? inner)]⟩ := by
  obtain ⟨rfl, rfl⟩ := emit_eq_ok.1 e
  have hheader := hb.header
  have hle := size_le_fill b.bytes
  refine h.behind (by omega) rfl rfl (fun p hp => ?_) fun q hq => ?_
  · rcases mem_places_through.1 hp with hp | rfl
    · rcases mem_places_append.1 hp with hp | ⟨q, hq, rfl⟩
      · have := (hb.sound.words p hp).2
        change p.1 + 4 ≤ b.bytes.size at this
        exact .inl (by omega)
      · exact .inr ⟨q, List.mem_append_left _ hq, rfl⟩
    · exact .inr ⟨_, List.mem_append_right _ (List.mem_singleton_self _), rfl⟩
  · refine mem_places_through.2 ?_
    rcases List.mem_append.1 hq with hq | hq
    · exact .inl (mem_places_append.2 (.inr ⟨q, hq, rfl⟩))
    · obtain rfl := List.mem_singleton.1 hq
      exact .inr rfl

/-! ### Reading the definition of a struct -/

/-- A definition spells the fields of a struct. -/
structure DefinedAs (i : Interface) (a : Assembler) (s : StructSpec) (n : Nat)
    (d : StructDefinition) : Prop where
  read : i.vector.structDefinition n = .ok d
  layout : i.layout.Lays d.layout s
  fields : List.Forall₂ (Spells i a {}) s.fields d.fields

/-- The definition of a struct at `n` spells it, and its operand is known once it is known where
the array at its end is defined. -/
inductive Defines (i : Interface) (a : Assembler) (s : StructSpec) (n : Nat) :
    Option TrailingArray → Prop where
  | fixed {d : StructDefinition} (hd : DefinedAs i a s n d) (hends : ∀ array, ¬s.EndsWith a array)
      (ht : d.trailing = none) : Defines i a s n none
  | laid {d : StructDefinition} {array : ArraySpec} {t : Nat} (hd : DefinedAs i a s n d)
      (hlast : s.lastField? = some (.array array)) (hkind : array.kind.isConformant)
      (ht : d.trailing = some t) (harray : lastArray none d.fields = some t) :
      Defines i a s n (some (.laid t))
  | through {d : StructDefinition} {array : ArraySpec} {inner : StructId} {v : Nat}
      (hd : DefinedAs i a s n d) (hlast : s.lastField? = some (.struct inner))
      (hends : s.EndsWith a array) (hv : a.tail? inner = some v) (ht : d.trailing = some v) :
      Defines i a s n (some (.through inner))

theorem Defines.definedAs {s : StructSpec} {t : Option TrailingArray} (h : Defines i a s n t) :
    ∃ d, DefinedAs i a s n d := by
  cases h with
  | fixed hd | laid hd | through hd => exact ⟨_, hd⟩

section

variable {order : ByteOrder} {align layout v w : Nat} {props : UInt8} {s : StructSpec}
  {last : Option Nat}

/-- The definition of a struct is read from its head, its operand and its fields. -/
theorem structDefinition_at (hi : i.Small) (halign : IsAlignment align) (hlayout : layout < 2 ^ 32)
    (hlays : i.layout.Lays layout s)
    (hhead : Record.At i.vector a.offset? n 0 (structHead order align props layout))
    (hv : v < 2 ^ 32)
    (hword : TypeVector.wordAt? i.vector.bytes i.vector.order (n + trailingPlace) 4 = some v)
    (e : writeFields (write maxNesting) s.fields ((structHead order align props layout).word w) none b =
      .ok (r, last) b') (hp : ∀ t ∈ s.fields, t.Plain) (hb : Started a.offset? a.tail? b)
    (hl : Laid i a b') (hat : Record.At i.vector a.offset? n 12 (r.op .endOfList)) :
    ∃ d, DefinedAs i a s n d ∧ d.trailing = (if v = TypeVector.noTrailing then none else some v) ∧
      last = lastArray none d.fields := by
  have b0 : Record.Begun a.offset? 0 ({ order } : Record) := ⟨sound_record, Nat.zero_le _⟩
  have b1 := b0.byte (UInt8.ofNat align)
  have b2 := b1.byte props
  have b4 := (b2.byte filler).byte filler
  have h4 := hhead.back (Record.continues_word _) b4
  have h2 := h4.back ((Record.continues_byte _).trans (Record.continues_byte _)) b2
  have h1 := h2.back (Record.continues_byte _) b1
  have c0 : Record.Begun a.offset? 12 ((structHead order align props layout).word w) :=
    ⟨(Record.continues_word _).sound sound_structHead, Nat.le_of_eq (size_structHead_word _).symm⟩
  obtain ⟨-, hc⟩ := (adds_writeFields (g := a.tail?) (writeAdds_write maxNesting) s.fields _ none
    c0.sound).ok e
  have c1 := c0.mono hc
  have hat1 := hat.back (Record.continues_op _) c1
  have hfits := hat.fits
  rw [Record.op, Record.size_byte] at hfits
  obtain ⟨ds, hds, hlast, hcount, hfields⟩ := writeFields_reads (readsBack_write hi maxNesting)
    (writeAdds_write maxNesting) (i.vector.size + 1) e hp hb hl hat1 c0 (by omega)
  obtain ⟨k, hk⟩ : ∃ k, i.vector.size + 1 = k + 1 + ds.length :=
    ⟨i.vector.size - ds.length, by omega⟩
  have hend : i.vector.readFields i.vector.readDescriptor false (i.vector.size + 1) [] (n + 12) =
      .ok ds (n + (r.op .endOfList).bytes.size) := by
    rw [hk, show n + 12 = n + ((structHead order align props layout).word w).bytes.size by
      rw [size_structHead_word]]
    refine (hfields false (k + 1) []).trans ?_
    have hbyte := Record.getElem?_at hat c1
    have hnext : nextDescriptor i.vector (i.vector.size + 1) (n + r.bytes.size) =
        .ok none (n + (r.op .endOfList).bytes.size) :=
      bind_eq_ok.2 ⟨_, _, rfl, bind_eq_ok.2 ⟨_, _, rfl, bind_eq_ok.2 ⟨_, _,
        Record.readOpcode_at hat c1, rfl⟩⟩⟩
    conv_lhs => unfold TypeVector.readFields
    refine (bind_of_ok rfl _).trans ?_
    have hne : Opcode.endOfList.toByte ≠ Opcode.endNested.toByte := by decide
    simp only [hbyte, if_neg hne]
    show EStateM.bind (nextDescriptor i.vector (i.vector.size + 1)) _ _ = _
    rw [EStateM.bind, hnext, List.append_nil, List.reverse_reverse]
    rfl
  have hpad : padding (n + 8) 4 = 0 := by
    have := hhead.aligned
    exact padding_of_dvd (by omega)
  have htrailing : i.vector.readNat (n + 8) = .ok v (n + 12) := by
    have hplace : TypeVector.wordAt? i.vector.bytes i.vector.order (n + 8 + padding (n + 8) 4) 4 =
        some v := by
      rw [hpad]
      exact hword
    have := Record.readNat_of_wordAt? hv hplace
    rwa [hpad] at this
  have hsize4 : (((({ order : Record }.byte (UInt8.ofNat align)).byte props).byte filler).byte
      filler).bytes.size = ((({ order : Record }.byte (UInt8.ofNat align)).byte props)).bytes.size + 2 := by
    simp only [Record.size_byte]
  refine ⟨⟨n, align, props, layout, if v = TypeVector.noTrailing then none else some v, ds⟩,
    ⟨TypeVector.readAt_eq_ok.2 ⟨n + (r.op .endOfList).bytes.size, ?_⟩, hlays, hds⟩, rfl, hlast⟩
  refine bind_eq_ok.2 ⟨_, _, Record.readByte_at h1 b0, bind_eq_ok.2 ⟨_, _, Record.readByte_at h2 b1,
    bind_eq_ok.2 ⟨_, _, Record.skip_at h4 hsize4, bind_eq_ok.2 ⟨_, _,
      Record.readNat_at hlayout hhead b4, ?_⟩⟩⟩⟩
  show EStateM.bind i.vector.readNat _ (n + (structHead order align props layout).bytes.size) = _
  rw [size_structHead]
  exact bind_eq_ok.2 ⟨_, _, htrailing, bind_eq_ok.2 ⟨_, _, hend, bind_eq_ok.2 ⟨_, _,
    lift_eq_ok.2 ⟨checkAlign_of_isAlignment halign, rfl⟩, rfl⟩⟩⟩

end

/-! ### Laying down a struct -/

/-- What laying down the fields of a struct does. -/
theorem grown_fields {s : StructSpec} {align layout w : Nat} {props : UInt8} {b1 b2 : Assembler}
    {last : Option Nat} (elayout : emitLayout s b = .ok layout b1)
    (efields : writeFields (write maxNesting) s.fields
      ((structHead b1.order align props layout).word w) none b1 = .ok (r, last) b2) :
    Grown f g b b1 ∧ Grown f g b1 b2 ∧
      Record.Continues f ((structHead b1.order align props layout).word w) r := by
  obtain ⟨hg1, -⟩ := (adds_emitLayout (g := g) s).ok elayout
  obtain ⟨hg2, hc⟩ := (adds_writeFields (g := g) (writeAdds_write maxNesting) s.fields _ none
    ((Record.continues_word _).sound sound_structHead)).ok efields
  exact ⟨hg1, hg2, hc⟩

theorem laying_emitStruct (e : emitStruct id b = .ok n b') : Laying f g id n b b' := by
  obtain ⟨s, align, props, layout, array, b1, r, last, b2, -, -, -, -, elayout, efields, hend⟩ :=
    emitStruct_eq_ok e
  obtain ⟨hg1, hg2, hc⟩ := grown_fields (f := f) (g := g) elayout efields
  have hg := hg1.trans hg2
  have hsize := hc.size_le
  rw [size_structHead_word] at hsize
  obtain ⟨hlater, hwithin, hspecs, hoffsets, hothers⟩ := laying_ending (g := g) hend
    (hc.sound ((Record.continues_word _).sound sound_structHead)) (place_of_struct hc) hsize
  exact ⟨hg.toLater.trans hlater, hwithin,
    fun j => (hspecs j).trans (by rw [spec?_eq_known, spec?_eq_known, hg.known]),
    fun j => (hoffsets j).trans hg.offset?_eq, fun j hj => (hothers j hj).trans hg.trailing?_eq⟩

section

variable {order : ByteOrder} {align layout w : Nat} {props : UInt8} {s : StructSpec}
  {last : Option Nat} {array : Option ArraySpec}

/-- The operand of a struct for the array at its end, `last` the definition of the last array among
its fields. -/
inductive Operand (a b' : Assembler) (id : StructId) (s : StructSpec) :
    Option ArraySpec → Option Nat → Nat → Prop where
  | fixed {last : Option Nat} : Operand a b' id s none last TypeVector.noTrailing
  | through {array : ArraySpec} {last : Option Nat} {inner : StructId} {v : Nat}
      (hlast : s.lastField? = some (.struct inner)) (hv : a.tail? inner = some v)
      (ht : b'.trailing? id = some (.through inner)) : Operand a b' id s (some array) last v
  | laid {array : ArraySpec} {t : Nat} (hlast : ∀ inner, s.lastField? ≠ some (.struct inner))
      (ht : b'.trailing? id = some (.laid t)) : Operand a b' id s (some array) (some t) t

/-- The head, the operand and the fields of a struct that was laid down stand in the vector. -/
theorem stands_ending (h : Ending id s b n b' array last r)
    (hc : Record.Continues a.offset?
      ((structHead order align props layout).word TypeVector.noTrailing) r)
    (ho : b.order = order) (hb : Started a.offset? a.tail? b) (hl : Laid i a b')
    (hrange : ∀ inner v, a.tail? inner = some v → v < 2 ^ 32)
    (hlast : ∀ t, last = some t → t < 2 ^ 32) (hid : (b.spec? id).isSome) :
    Record.At i.vector a.offset? n 0 (structHead order align props layout) ∧
      Record.At i.vector a.offset? n 12 (r.op .endOfList) ∧ Laid i a b ∧
      ∃ v, v < 2 ^ 32 ∧
        TypeVector.wordAt? i.vector.bytes i.vector.order (n + trailingPlace) 4 = some v ∧
        Operand a b' id s array last v := by
  have hhead : Record.Begun a.offset? 0 (structHead order align props layout) :=
    ⟨sound_structHead, Nat.zero_le _⟩
  have hsound := hc.sound ((Record.continues_word _).sound sound_structHead)
  have hplaces := place_of_struct hc
  have hsize := hc.size_le
  rw [size_structHead_word] at hsize
  have hend := Record.continues_op (f := a.offset?) (r := r) .endOfList
  have horder : r.order = b.order := hc.order.trans ho.symm
  have hbegun : Record.Begun a.offset? 12 (r.op .endOfList) :=
    ⟨hend.sound hsound, Nat.le_trans hsize hend.size_le⟩
  have hfill : (fill (structHead order align props layout).bytes).size = trailingPlace := by
    rw [Record.size_fill, size_structHead]
    rfl
  have hback := hl.back (laying_ending (g := a.tail?) h hsound hplaces hsize).later
  have hfrom : ∀ {t : Sheet}, t.Stands i.vector n 0 → t.bytes = (r.op .endOfList).bytes →
      (∀ p ∈ ((r.op .endOfList).sheet a.offset?).places, p ∈ t.places) →
      (∀ p ∈ t.places, p ∈ ((r.op .endOfList).sheet a.offset?).places ∨ p.1 + 4 ≤ 12) →
      ((r.op .endOfList).sheet a.offset?).Stands i.vector n 12 := fun ht hbytes hkept hmore =>
    stands_from ht (Nat.zero_le _) (by rw [hbytes]; rfl) (fun k _ => by rw [hbytes]; rfl) hkept hmore
  suffices hall : Record.At i.vector a.offset? n 0 (structHead order align props layout) ∧
      Record.At i.vector a.offset? n 12 (r.op .endOfList) ∧ ∃ v, v < 2 ^ 32 ∧
        TypeVector.wordAt? i.vector.bytes i.vector.order (n + trailingPlace) 4 = some v ∧
        Operand a b' id s array last v from ⟨hall.1, hall.2.1, hback, hall.2.2⟩
  cases h with
  | fixed e =>
    obtain ⟨rfl, rfl⟩ := emit_eq_ok.1 e
    have hat := hl.at_append hb (hend.sound hsound) horder
    have hword := hat.back (hc.trans hend) (hhead.word _)
    refine ⟨hword.back (Record.continues_word _) hhead, ⟨hbegun, hat.aligned, hat.order,
      hfrom hat.stands rfl (fun _ h => h) fun _ h => .inl h⟩, _, by decide, ?_, .fixed⟩
    rw [← hfill]
    exact Record.wordAt?_at (by decide) hword hhead
  | @laid _ t r hnot e =>
    have hb1 := hb.mono (later_modify (b := b) (F := fun e => { e with trailing := some (.laid t) })
      id fun _ => rfl)
    obtain ⟨-, -, -, hself⟩ := laying_modify id (.laid t) b
    obtain ⟨rfl, rfl⟩ := emit_eq_ok.1 e
    have hend1 := Record.continues_op (f := a.offset?) (r := patched r t) .endOfList
    have hat := hl.at_append hb1 (hend1.sound (sound_patched hsound)) horder
    have hword := hat.back ((continues_patched t hc).trans hend1) (hhead.word _)
    have hsame : (r.op .endOfList).bytes.size = ((patched r t).op .endOfList).bytes.size := by
      rw [Record.op, Record.op, Record.size_byte, Record.size_byte, size_patched]
    refine ⟨hword.back (Record.continues_word _) hhead, ⟨hbegun, hat.aligned, hat.order,
      stands_from hat.stands (Nat.zero_le _) hsame (fun k hk => ?_) (fun _ h => h) fun _ h => .inl h⟩,
      t, hlast t rfl, ?_, .laid hnot (hself hid)⟩
    · show (r.bytes.push _)[k]? = ((patched r t).bytes.push _)[k]?
      rw [Array.getElem?_push, Array.getElem?_push, size_patched, patched,
        getElem?_overwrite_of_outside (.inr (by
          rw [ByteOrder.length_encode, trailingPlace]
          omega))]
    · rw [← hfill]
      exact Record.wordAt?_at (hlast t rfl) hword hhead
  | @through _ last r inner c hinner e hb' =>
    obtain ⟨-, -, -, hself⟩ := laying_modify id (.through inner) { c with
      trailingReferences := c.trailingReferences ++ [(n + trailingPlace, inner)] }
    subst hb'
    have hstands := stands_through e hb hl.stands
    obtain ⟨rfl, rfl⟩ := emit_eq_ok.1 e
    have hextends := ((Record.continues_word (f := a.offset?)
      (r := structHead order align props layout) TypeVector.noTrailing).trans
        (hc.trans hend)).sheet.place (p := (trailingPlace, a.tail? inner))
          (Nat.le_of_eq size_structHead)
    obtain ⟨v, hv, hword⟩ := hstands.places (trailingPlace, a.tail? inner)
      (List.mem_append_right _ (List.mem_singleton_self _)) (Nat.zero_le _)
    have horder' : i.vector.order = order := hl.order.trans ho
    refine ⟨⟨hhead, Record.size_fill_mod _, horder', hstands.mono hextends⟩,
      ⟨hbegun, Record.size_fill_mod _, hl.order.trans horder.symm,
        hfrom hstands rfl (fun p hp => List.mem_append_left _ hp) fun p hp => ?_⟩,
      v, hrange inner v hv, hword, .through hinner hv (hself hid)⟩
    rcases List.mem_append.1 hp with hp | hp
    · exact .inl hp
    · obtain rfl := List.mem_singleton.1 hp
      exact .inr (show trailingPlace + 4 ≤ 12 by decide)

end

/-- A struct that was laid down is defined where it was. -/
theorem defines_of_emitStruct (hi : i.Small)
    (hrange : ∀ inner v, a.tail? inner = some v → v < i.vector.size)
    (e : emitStruct id b = .ok n b') (hb : Started a.offset? a.tail? b) (hl : Laid i a b') :
    ∃ s, a.spec? id = some s ∧
      (s.Plain → ∃ t, Defines i a s n t ∧ (t = none ∨ b'.trailing? id = t)) := by
  obtain ⟨s, align, props, layout, array, b1, r, last, b2, hs, halign, -, harray, elayout,
    efields, hend⟩ := emitStruct_eq_ok e
  obtain ⟨hg1, hg2, hc⟩ := grown_fields (f := a.offset?) (g := a.tail?) elayout efields
  have hsmall := hi.vector
  have hsound := hc.sound ((Record.continues_word _).sound sound_structHead)
  have hsize := hc.size_le
  rw [size_structHead_word] at hsize
  have hl2 := hl.back (laying_ending (g := a.tail?) hend hsound (place_of_struct hc) hsize).later
  have hfits := hl2.stands.fits
  change 0 + b2.bytes.size ≤ i.vector.size at hfits
  have hlast : ∀ t, last = some t → t < i.vector.size := by
    rintro t rfl
    have := last_lt (f := a.offset?) (by simp)
      ((Record.continues_word _).sound sound_structHead) efields
    omega
  have hb1 := hb.mono hg1.toLater
  have hspecs := hl2.back (hg1.trans hg2).toLater |>.specs
  have hs' := hspecs id s hs
  have hends := endsWith_of_trailingArray (trailingArray_mono hspecs harray)
  obtain ⟨hhead, hat, -, v, hv, hword, hoperand⟩ := stands_ending hend hc
    (hg2.toLater.order.trans rfl) (hb1.mono hg2.toLater) hl
    (fun inner v h => Nat.lt_trans (hrange inner v h) hsmall)
    (fun t h => Nat.lt_trans (hlast t h) hsmall)
    (by rw [spec?_eq_known, (hg1.trans hg2).known, ← spec?_eq_known, hs]; rfl)
  obtain ⟨hlays, hlt⟩ := (hl2.back hg2.toLater).lays hi elayout
  refine ⟨s, hs', fun hplain => ?_⟩
  obtain ⟨d, hd, ht, hfields⟩ := structDefinition_at hi (isAlignment_alignOf halign) hlt hlays hhead
    hv hword efields hplain hb1 hl2 hat
  -- an offset of the vector is not the operand of a struct without an array at its end
  have hnot : v < i.vector.size → v ≠ TypeVector.noTrailing := by
    have : TypeVector.noTrailing = 2 ^ 32 - 1 := rfl
    omega
  cases hoperand with
  | fixed =>
    rw [if_pos rfl] at ht
    exact ⟨none, .fixed hd (fun array h => absurd ((hends array).1 h) (by simp)) ht, .inl rfl⟩
  | @through array last inner v hinner htail hself =>
    rw [if_neg (hnot (hrange inner v htail))] at ht
    exact ⟨_, .through hd hinner ((hends array).2 rfl) htail ht, .inr hself⟩
  | @laid array t hstruct hself =>
    rw [if_neg (hnot (hlast _ rfl))] at ht
    rcases (hends array).2 rfl with ⟨hfield, hkind⟩ | ⟨hfield, -, -⟩
    · exact ⟨_, .laid hd hfield hkind ht hfields.symm, .inr hself⟩
    · exact absurd hfield (hstruct _)

end Assembler

end Ndr
