import Ndr.Proofs.Assembly.Drafting

/-!
The end of an assembly is the same in either byte order: the structs are laid down, and the words
that were left open are filled in, each with the same number in the order of its vector.
-/

namespace Ndr

open Entries Assembler

/-! ### Structs -/

namespace Draft

variable {d : Draft} {order : ByteOrder} {id : StructId}

/-- A draft that knows something else of one struct, but not its type. -/
def modifyStruct (d : Draft) (id : StructId) (f : StructEntry → StructEntry)
    (hspec : ∀ e, (f e).spec = e.spec)
    (hoffset : ∀ e n, (f e).offset = some n → e.offset = some n ∨ ∃ s, d.records (.struct s) n) :
    Draft :=
  d.withStructs (d.structs.modify id f) d.pending
    (fun j n hn => by
      rw [Array.getElem?_modify] at hn
      split at hn
      · rw [Option.bind_map, Option.bind_eq_some_iff] at hn
        obtain ⟨e, he, hn⟩ := hn
        rcases hoffset e n hn with hn | hn
        · exact d.offsets j n (Option.bind_eq_some_iff.2 ⟨e, he, hn⟩)
        · exact hn
      · exact d.offsets j n hn)
    (fun j s hs => d.free j s ((getElem?_modify_bind (b := d.inked .little)
      fun _ => hspec).symm.trans hs))

/-- A draft that knows where the array at the end of a struct is defined. -/
def trail (d : Draft) (id : StructId) (t : TrailingArray) : Draft :=
  d.modifyStruct id (fun e => { e with trailing := some t }) (fun _ => rfl) fun _ _ h => .inl h

/-- A draft that knows where a struct is defined. -/
def place (d : Draft) (id : StructId) (n : Nat) (h : ∃ s, d.records (.struct s) n) : Draft :=
  d.modifyStruct id (fun e => { e with offset := some n }) (fun _ => rfl)
    fun _ _ hn => .inr (Option.some.inj hn ▸ h)

/-- The structs that have an offset stand there, as they are defined now. -/
def Settled (d : Draft) : Prop :=
  ∀ id n, d.offset? id = some n → ∃ s, d.spec? id = some s ∧ d.records (.struct s) n

/-- A draft that has fewer structs to lay down. -/
def pop (d : Draft) (rest : List StructId) : Draft :=
  d.withStructs d.structs rest d.offsets d.free

theorem grows_withStructs {structs : Array StructEntry} {pending : List StructId}
    {hoffsets : ∀ (id : StructId) (n : Nat), (structs[id]?).bind StructEntry.offset = some n →
      ∃ s, d.records (.struct s) n}
    {hfree : ∀ (id : StructId) (s : StructSpec), (structs[id]?).bind StructEntry.spec = some s →
      s.OpcodeFree} : d.Grows (d.withStructs structs pending hoffsets hfree) :=
  ⟨rfl, List.prefix_rfl, fun _ _ h => h⟩

end Draft

namespace Draws

variable {d : Draft} {id : StructId} {s : StructSpec} {code : List Entry}

/-- The head of the definition of a struct. -/
def headEntries (align props : UInt8) (layout : Nat) : List Entry :=
  [.byte align, .byte props, .byte filler, .byte filler, .word layout]

/-- The operand of a record for the array at its end is replaced. -/
theorem patched_ofEntries (order : ByteOrder) (align props : UInt8) (layout v t : Nat) :
    patched (.ofEntries order (headEntries align props layout ++ (.word v :: code))) t
      = .ofEntries order (headEntries align props layout ++ (.word t :: code)) := by
  have hstop : Entries.stop 0 (headEntries align props layout) = trailingPlace := by
    simp [Entries.stop, headEntries, Entry.stop, Entry.start, Entry.width, padding, trailingPlace]
  have hhead : (Entries.ink order 0 (headEntries align props layout)).length = trailingPlace := by
    have := Entries.length_ink order 0 (headEntries align props layout)
    omega
  have hpad : padding trailingPlace 4 = 0 := rfl
  have hbytes : ∀ w, Entries.ink order 0 (headEntries align props layout ++ (.word w :: code))
      = Entries.ink order 0 (headEntries align props layout) ++ order.encode 4 w
        ++ Entries.ink order (trailingPlace + 4) code := fun w => by
    rw [Entries.ink_append, hstop, Entries.ink, List.append_assoc, Entry.stop, Entry.start, hpad]
    simp [Entry.ink, Entry.width]
  have hplaces : ∀ w, Entries.references 0 (headEntries align props layout ++ (.word w :: code))
      = Entries.references (trailingPlace + 4) code := fun w => by
    rw [Entries.references_append, hstop]
    rfl
  unfold patched Record.ofEntries
  rw [hplaces, hplaces, hbytes, hbytes]
  congr 1
  have hlength : (order.encode 4 v).toArray.size = (order.encode 4 t).length := by simp
  have hpatch := overwrite_append (Entries.ink order 0 (headEntries align props layout)).toArray
    (order.encode 4 v).toArray (Entries.ink order (trailingPlace + 4) code).toArray hlength
  rw [List.size_toArray, hhead] at hpatch
  simpa using hpatch

/-- A record that leaves the operand for the array at its end open reads as one without. -/
theorem ofEntries_tail (order : ByteOrder) (align props : UInt8) (layout : Nat) (inner : StructId) :
    Record.ofEntries order (headEntries align props layout ++ (.tail inner :: code))
      = .ofEntries order (headEntries align props layout ++ (.word TypeVector.noTrailing :: code)) := by
  unfold Record.ofEntries
  rw [Entries.ink_append, Entries.ink_append, Entries.references_append, Entries.references_append]
  rfl

section

variable {align props : UInt8} {layout : Nat}

theorem forms_struct {operand : Entry}
    (hoperand : (∃ v, operand = .word v) ∨ ∃ id, operand = .tail id)
    (hcode : Code d.records (s.fields.map .type) code) : Forms d.records (.struct s)
      (headEntries align props layout ++ (operand :: (code ++ [eol]))) :=
  .struct hoperand hcode

/-- A struct that ends with no array, or with one that is defined already. -/
theorem emit_struct (hcode : Code d.records (s.fields.map .type) code) (v : Nat) :
    Draws d (fun order => Assembler.emit (.ofEntries order
      (headEntries align props layout ++ (.word v :: (code ++ [eol]))))) (Gives (.struct s)) := by
  refine emit_of_tails (forms_struct (.inl ⟨v, rfl⟩) hcode) (tails_eq_nil fun e he => ?_)
  simp only [headEntries, List.cons_append, List.nil_append, List.mem_cons, List.mem_append,
    List.not_mem_nil, or_false] at he
  rcases he with rfl | rfl | rfl | rfl | rfl | rfl | he | rfl
  all_goals first | rfl | exact hcode.tail?_eq_none e he

/-- A struct that ends with a struct: the operand for the array at its end is left open. -/
theorem emit_through (hcode : Code d.records (s.fields.map .type) code) (id inner : StructId) :
    Draws d (fun order => do
      let offset ← Assembler.emit (.ofEntries order
        (headEntries align props layout ++ (.word TypeVector.noTrailing :: (code ++ [eol]))))
      modifyStruct id fun e => { e with trailing := some (.through inner) }
      modify fun a => { a with
        trailingReferences := a.trailingReferences ++ [(offset + trailingPlace, inner)] }
      return offset) (Gives (.struct s)) := by
  have hforms : Forms d.records (.struct s)
      (headEntries align props layout ++ (.tail inner :: (code ++ [eol]))) :=
    forms_struct (.inr ⟨inner, rfl⟩) hcode
  have hstop : Entries.stop d.next (headEntries align props layout) = d.next + trailingPlace := by
    rw [← Nat.add_zero d.next, Entries.stop_add d.next_mod]
    simp [Entries.stop, headEntries, Entry.stop, Entry.start, Entry.width, padding, trailingPlace]
  have htails : Entries.tails d.next
      (headEntries align props layout ++ (.tail inner :: (code ++ [eol])))
        = [(d.next + trailingPlace, inner)] := by
    have hhead : Entries.tails d.next (headEntries align props layout) = [] :=
      tails_eq_nil (by simp [headEntries, Entry.tail?])
    have hcode : ∀ position, Entries.tails position (code ++ [eol]) = [] := fun _ =>
      tails_eq_nil (by simpa [Entry.tail?, or_imp, forall_and] using hcode.tail?_eq_none)
    have hpad : padding (d.next + trailingPlace) 4 = 0 := by
      have := d.next_mod
      unfold trailingPlace
      exact padding_of_dvd (by omega)
    rw [Entries.tails_append, hhead, hstop]
    show (Entry.start (d.next + trailingPlace) (.tail inner), inner) :: Entries.tails _ _ = _
    rw [hcode, Entry.start, hpad]
    rfl
  refine .ok (v := fun _ => d.next)
    ((Draft.grows_append hforms).trans Draft.grows_withStructs : d.Grows
      ((d.append (.struct s) _ hforms).trail id (.through inner)))
    ⟨_, rfl, Draft.records_append hforms⟩ fun order => ?_
  have hemit : Assembler.emit (.ofEntries order (headEntries align props layout ++
      (.word TypeVector.noTrailing :: (code ++ [eol])))) (d.inked order) = .ok d.next
        ((d.inked order).append (.ofEntries order (headEntries align props layout ++
          (.word TypeVector.noTrailing :: (code ++ [eol]))))).1 :=
    emit_eq_ok.2 ⟨by rw [Record.size_fill, Draft.size_inked]; rfl, rfl⟩
  have hinked : (d.append (.struct s) _ hforms).inked order = _ := Draft.inked_append hforms
  rw [htails, ofEntries_tail] at hinked
  refine (bind_of_ok hemit _).trans (congrArg (EStateM.Result.ok d.next) ?_)
  show _ = { (d.append (.struct s) _ hforms).inked order with
    structs := d.structs.modify id fun e => { e with trailing := some (.through inner) } }
  rw [hinked]
  rfl

end

/-- A struct that does not end with a struct ends with the last array among its fields. -/
theorem emit_last {s : StructSpec} {code : List Entry} {align props : UInt8} {layout : Nat}
    (hcode : Code d.records (s.fields.map .type) code) (id : StructId) (last : Option Nat) :
    Draws d (fun order => match last with
      | none => Assembler.malformed .trailingArrayMissing
      | some definition => do
        modifyStruct id fun e => { e with trailing := some (.laid definition) }
        Assembler.emit ((patched (.ofEntries order (headEntries align props layout ++
          (.word TypeVector.noTrailing :: code))) definition).op .endOfList)) (Gives (.struct s)) := by
  have hop : ∀ order v, (Record.ofEntries order (headEntries align props layout ++
      (.word v :: code))).op .endOfList = .ofEntries order
        (headEntries align props layout ++ (.word v :: (code ++ [eol]))) :=
    fun order v => by simp
  cases last with
  | none => exact malformed _
  | some definition =>
    refine (modified (d.trail id (.laid definition)) Draft.grows_withStructs fun _ => rfl).bind ?_
    rintro _ _ - rfl
    simp only [patched_ofEntries, hop]
    exact emit_struct (d := d.trail id (.laid definition)) hcode _

/-- **A struct is laid down in the same way in either order**, as it is defined then. -/
theorem emitStruct (id : StructId) : Draws d (fun _ => emitStruct id)
    fun v d' => ∃ s, d.spec? id = some s ∧ Gives (.struct s) v d' := by
  have habreast := d.abreast_inked .little
  refine see (lift (fun order => congrFun (habreast order).structSpec_eq id) fun s hs => ?_)
  refine Draws.mono (P := Gives (.struct s)) ?_ fun v d' _ hv => ⟨s, structSpec_eq_ok.1 hs, hv⟩
  have hfree : s.OpcodeFree := d.free id s (structSpec_eq_ok.1 hs)
  refine lift (fun order => congrFun ((habreast order).alignOf_eq _) (.struct id)) fun align _ =>
    lift (fun order => congrFun ((habreast order).propsOf_eq _) (.struct id)) fun props _ => ?_
  refine (emitLayout s).bind ?_
  rintro _ d1 - ⟨layout, rfl⟩
  refine record ?_
  refine lift (fun order => congrFun ((habreast order).trailingArray_eq maxNesting) s)
    fun array _ => ?_
  simp only [Record.ofEntries_byte, Record.ofEntries_word]
  refine (writeFields (drafts_write maxNesting) hfree none).bind ?_
  rintro _ d2 - ⟨code, last, hcode, rfl⟩
  have hentries : ∀ more, [] ++ [Entry.byte (UInt8.ofNat align)] ++ [.byte props] ++ [.byte filler]
      ++ [.byte filler] ++ [.word layout] ++ [.word TypeVector.noTrailing] ++ more
        = headEntries (UInt8.ofNat align) props layout ++ (.word TypeVector.noTrailing :: more) :=
    fun more => by simp [headEntries]
  have hop : ∀ order v, (Record.ofEntries order (headEntries (UInt8.ofNat align) props layout ++
      (.word v :: code))).op .endOfList = .ofEntries order
        (headEntries (UInt8.ofNat align) props layout ++ (.word v :: (code ++ [eol]))) :=
    fun order v => by simp
  simp only [hentries, hop]
  cases array with
  | none => exact emit_struct hcode _
  | some array =>
    cases hfield : s.lastField? with
    | none => exact emit_last hcode id last
    | some t =>
      cases t with
      | struct inner => exact emit_through hcode id inner
      | _ => exact emit_last hcode id last

/-- A struct that was laid down keeps what is known of the others. -/
theorem settled_place {d1 : Draft} {n : Nat} (hspec : d.spec? id = some s)
    (hn : d1.records (.struct s) n) (hrecords : ∀ k m, d.records k m → d1.records k m)
    (hspecs : ∀ j, d1.spec? j = d.spec? j) (hoffsets : ∀ j, d1.offset? j = d.offset? j)
    (h : d.Settled) : (d1.place id n ⟨s, hn⟩).Settled := by
  intro j m hm
  have hsame : (d1.place id n ⟨s, hn⟩).spec? j = d1.spec? j :=
    spec?_placed (b := d1.inked .little) (n := n)
  rw [hsame, hspecs]
  rcases offset?_placed (b := d1.inked .little) hm with ⟨rfl, rfl⟩ | ⟨-, hm⟩
  · exact ⟨s, hspec, hn⟩
  · obtain ⟨t, ht, hm⟩ := h j m ((hoffsets j).symm.trans hm)
    exact ⟨t, ht, hrecords _ _ hm⟩

/-- The structs that are queued are laid down in the same way in either order, each as it is defined
then. -/
theorem emitPending (fuel : Nat) :
    Draws d (fun _ => emitPending fuel) fun _ d' => d.Settled → d'.Settled := by
  induction fuel generalizing d with
  | zero => exact pure fun h => h
  | succ fuel ih =>
    refine see ?_
    have hpending : ∀ order, (d.inked order).pending = d.pending := fun _ => rfl
    simp only [hpending]
    cases d.pending with
    | nil => exact pure fun h => h
    | cons id rest =>
      refine (modified (d.pop rest) Draft.grows_withStructs fun _ => rfl).bind ?_
      rintro _ _ - rfl
      have hstruct := (emitStruct (d := d.pop rest) id).also fun v d1 run =>
        laying_emitStruct (f := fun _ => none) (g := fun _ => none) (run .little)
      refine hstruct.bind ?_
      rintro _ d1 hg ⟨⟨s, hspec, n, rfl, hn⟩, hlaying⟩
      refine (modified (d1.place id n ⟨s, hn⟩) Draft.grows_withStructs fun _ => rfl).bind ?_
      rintro _ _ - rfl
      exact ih.mono fun _ _ _ hd' h => hd' (settled_place hspec hn hg.records
        (fun j => hlaying.specs j) (fun j => hlaying.offsets j) h)

end Draws

/-! ### Open words -/

namespace Draft

variable {d : Draft} {order : ByteOrder}

/-- The words that are filled in later are entries. -/
theorem mem_places {f g : StructId → Option Nat} {p : Nat × Option Nat}
    (hp : p ∈ ((d.inked order).sheet f g).places) : ∃ id,
      (p.1, .reference id) ∈ spots TypeVector.headerSize d.entries ∨
        (p.1, .tail id) ∈ spots TypeVector.headerSize d.entries := by
  rcases List.mem_append.1 hp with hp | hp
  · obtain ⟨⟨place, id⟩, hq, rfl⟩ := List.mem_map.1 hp
    exact ⟨id, .inl (mem_references.1 hq)⟩
  · obtain ⟨⟨place, id⟩, hq, rfl⟩ := List.mem_map.1 hp
    exact ⟨id, .inr (mem_tails.1 hq)⟩

theorem sound_inked (f g : StructId → Option Nat) : ((d.inked order).sheet f g).Sound := by
  have hword : ∀ {place e}, (place, e) ∈ spots TypeVector.headerSize d.entries → e.width = 4 →
      (∀ b, e ≠ .byte b) → place % 4 = 0 ∧ place + 4 ≤ (d.inked order).bytes.size := by
    intro place e hs hwidth hbyte
    have hend := ((pairwise_spots _ d.entries).1 _ hs).2
    rw [hwidth] at hend
    rw [size_inked]
    exact ⟨aligned_of_mem_spots hs hbyte, hend⟩
  refine ⟨fun p hp => ?_, ?_⟩
  · obtain ⟨id, hs | hs⟩ := mem_places hp
    · exact hword hs rfl (by simp)
    · exact hword hs rfl (by simp)
  · have hreferences : ((d.inked order).references.map Prod.fst).Nodup :=
      nodup_places Entry.reference? fun e id h => by cases e <;> simp_all [Entry.reference?, Entry.width]
    have htails : ((d.inked order).trailingReferences.map Prod.fst).Nodup :=
      nodup_places Entry.tail? fun e id h => by cases e <;> simp_all [Entry.tail?, Entry.width]
    simp only [sheet, List.map_append, List.map_map, Function.comp_def]
    refine List.nodup_append.2 ⟨hreferences, htails, ?_⟩
    -- a word is left open for one thing only
    rintro _ h1 _ h2 rfl
    obtain ⟨⟨p, id⟩, hp, rfl⟩ := List.mem_map.1 h1
    obtain ⟨⟨q, id'⟩, hq, hpq⟩ := List.mem_map.1 h2
    obtain rfl : q = p := hpq
    rcases apart (mem_references.1 hp) (mem_tails.1 hq) with h | h | h
    · exact absurd (Prod.mk.inj h).2 (by simp)
    · exact absurd h (by simp [Entry.width])
    · exact absurd h (by simp [Entry.width])

end Draft

/-! ### The end -/

section

variable {a b : Assembler}

theorem Assembler.Abreast.structOffset_eq (h : Abreast a b) : b.structOffset = a.structOffset := by
  funext id
  unfold structOffset
  rw [h.structs, h.fault_eq]

theorem Assembler.Abreast.trailingOffset_eq (h : Abreast a b) (fuel : Nat) :
    b.trailingOffset fuel = a.trailingOffset fuel := by
  induction fuel with
  | zero =>
    funext id
    rw [trailingOffset, trailingOffset, h.fault_eq]
  | succ fuel ih =>
    funext id
    rw [trailingOffset, trailingOffset, h.structs, h.fault_eq, ih]

/-- Words are filled in in either order, or in neither. -/
theorem resolve_alike (target : StructId → Except Fault Nat) (references : List (Nat × StructId))
    (bytes : ByteOrder → Array UInt8) :
    (∃ e, ∀ order, resolve order target references (bytes order) = .error e) ∨
      ∃ bytes' : ByteOrder → Array UInt8, ∀ order,
        resolve order target references (bytes order) = .ok (bytes' order) := by
  induction references generalizing bytes with
  | nil => exact .inr ⟨bytes, fun _ => rfl⟩
  | cons p references ih =>
    obtain ⟨place, id⟩ := p
    cases ht : target id with
    | error e => exact .inl ⟨e, fun order => by rw [resolve, ht]; rfl⟩
    | ok n =>
      rcases ih fun order => overwrite (bytes order) place (order.encode 4 n) with ⟨e, h⟩ | ⟨bytes', h⟩
      · exact .inl ⟨e, fun order => by rw [resolve, ht]; exact h order⟩
      · exact .inr ⟨bytes', fun order => by rw [resolve, ht]; exact h order⟩

/-- Of a number that does not fit a word its low bytes are written. -/
theorem encode_mod (order : ByteOrder) (v : Nat) : order.encode 4 (v % 2 ^ 32) = order.encode 4 v := by
  have hdecode : order.decode (order.encode 4 v) = v % 2 ^ 32 := by
    cases order <;> simp [ByteOrder.encode, ByteOrder.decode, ofLeastFirst_leastFirst]
  have hencode := order.encode_decode (order.encode 4 v)
  rwa [hdecode, ByteOrder.length_encode] at hencode

/-- Four bytes that were written are read as a word. -/
theorem wordAt?_of_encode {bytes : Array UInt8} {order : ByteOrder} {place v : Nat}
    (h : ∀ k < 4, bytes[place + k]? = (order.encode 4 v)[k]?) :
    TypeVector.wordAt? bytes order place 4 = some (v % 2 ^ 32) :=
  Record.wordAt?_of_getElem? (Nat.mod_lt _ (by decide)) fun k hk => by rw [h k hk, encode_mod]

/-- The header of a vector is accepted, unless it has flags. -/
theorem parse_of_header {bytes : Array UInt8} {order : ByteOrder} {flags : UInt32}
    (hheader : ∀ k < 8, bytes[k]? = (new order flags).bytes[k]?)
    (hflags : ∀ k < 4, bytes[8 + k]? = (order.encode 4 flags.toNat)[k]?) :
    TypeVector.parse bytes = if flags ≠ 0 then .error (.unsupportedFlags flags)
      else .ok { bytes, order, minor := TypeVector.minorVersion } := by
  have hsize : 12 ≤ bytes.size := by
    have hlast := hflags 3 (by decide)
    rw [List.getElem?_eq_getElem (by simp)] at hlast
    exact (Array.getElem?_eq_some_iff.1 hlast).1
  have hget : ∀ k (hk : k < bytes.size), bytes[k]? = some bytes[k] := fun k hk =>
    Array.getElem?_eq_getElem hk
  have hbyte : ∀ k b, k < 8 → (new order flags).bytes[k]? = some b → ∀ hk : k < bytes.size,
      bytes[k] = b := fun k b h8 hb hk =>
    Option.some.inj ((hget k hk).symm.trans ((hheader k h8).trans hb))
  have hword : [bytes[8], bytes[9], bytes[10], bytes[11]] = order.encode 4 flags.toNat := by
    refine List.ext_getElem? fun k => ?_
    by_cases hk : k < 4
    · rw [← hflags k hk]
      obtain rfl | rfl | rfl | rfl : k = 0 ∨ k = 1 ∨ k = 2 ∨ k = 3 := by omega
      all_goals exact (hget _ (by omega)).symm
    · rw [List.getElem?_eq_none (by simpa using hk), List.getElem?_eq_none (by simpa using hk)]
  have hdecode : UInt32.ofNat (order.decode [bytes[8], bytes[9], bytes[10], bytes[11]]) = flags := by
    rw [hword, ByteOrder.decode_encode _ (by simpa using flags.toNat_lt), UInt32.ofNat_toNat]
  unfold TypeVector.parse
  rw [dif_neg (by simpa [TypeVector.headerSize] using hsize)]
  cases order with
  | big =>
    simp only [hbyte 0 0 (by decide) rfl, hbyte 1 8 (by decide) rfl, hbyte 2 0 (by decide) rfl,
      hbyte 3 10 (by decide) rfl, hbyte 4 0 (by decide) rfl]
    rw [show TypeVector.orderOf 0 = .ok .big from rfl]
    show (if _ then _ else _) = _
    rw [hdecode]
    rfl
  | little =>
    simp only [hbyte 0 8 (by decide) rfl, hbyte 1 0 (by decide) rfl, hbyte 2 10 (by decide) rfl,
      hbyte 3 0 (by decide) rfl, hbyte 4 1 (by decide) rfl]
    rw [show TypeVector.orderOf 1 = .ok .little from rfl]
    show (if _ then _ else _) = _
    rw [hdecode]
    rfl

end

/-- What a vector in either order holds for an entry, where `T` tells the offsets of structs. -/
def Entry.Shown (V : ByteOrder → TypeVector) (T : StructId → Nat → Prop) (place : Nat) : Entry → Prop
  | .byte b => ∀ order, (V order).bytes[place]? = some b
  | .word v => ∀ order,
      TypeVector.wordAt? (V order).bytes (V order).order place 4 = some (v % 2 ^ 32)
  | .reference id => ∃ n, T id n ∧ ∀ order,
      TypeVector.wordAt? (V order).bytes (V order).order place 4 = some (n % 2 ^ 32)
  | .tail _ => ∃ n, ∀ order,
      TypeVector.wordAt? (V order).bytes (V order).order place 4 = some (n % 2 ^ 32)
  | .gap => True

namespace Draft

variable {d : Draft} {bytes : ByteOrder → Array UInt8}

/-- The vector of a draft in some order. -/
def vector (bytes : ByteOrder → Array UInt8) (order : ByteOrder) : TypeVector :=
  { bytes := bytes order, order, minor := TypeVector.minorVersion }

/-- The bytes of a draft in either order, all words filled in. -/
structure Finished (d : Draft) (bytes : ByteOrder → Array UInt8) : Prop where
  size : ∀ order, (bytes order).size = d.size
  header : ∀ order, ∀ k < 8, (bytes order)[k]? = (new order d.flags).bytes[k]?
  flags : ∀ order, ∀ k < 4, (bytes order)[8 + k]? = (order.encode 4 d.flags.toNat)[k]?
  entries : ∀ s ∈ spots TypeVector.headerSize d.entries,
    s.2.Shown (vector bytes) (fun id n => d.offset? id = some n) s.1

/-- The bytes of an entry in an assembler. -/
theorem getElem?_inked {order : ByteOrder} {s : Nat × Entry}
    (hs : s ∈ spots TypeVector.headerSize d.entries) {k : Nat} (hk : k < s.2.width) :
    (d.inked order).bytes[s.1 + k]? = (s.2.ink order)[k]? := by
  have hle := ((pairwise_spots _ d.entries).1 s hs).1
  rw [inked, Array.getElem?_append_right (by rw [size_new]; omega), size_new, List.getElem?_toArray,
    ← getElem?_ink hs hk]
  congr 1
  omega

/-- Bytes and words that are not open stay as they were written. -/
theorem apart_of_places {f g : StructId → Option Nat} {order : ByteOrder} {s : Nat × Entry}
    (hs : s ∈ spots TypeVector.headerSize d.entries) (hreference : ∀ id, s.2 ≠ .reference id)
    (htail : ∀ id, s.2 ≠ .tail id) {k : Nat} (hk : k < s.2.width) :
    ∀ p ∈ ((d.inked order).sheet f g).places, s.1 + k < p.1 ∨ p.1 + 4 ≤ s.1 + k := by
  have hcases : ∀ {place e}, (place, e) ∈ spots TypeVector.headerSize d.entries → e.width = 4 →
      s.2 ≠ e → s.1 + k < place ∨ place + 4 ≤ s.1 + k := by
    intro place e he hwidth hne
    rcases apart hs he with rfl | h | h
    · exact absurd rfl hne
    · exact .inl (Nat.lt_of_lt_of_le (Nat.add_lt_add_left hk _) h)
    · exact .inr (Nat.le_trans (Nat.le_of_eq (by rw [hwidth])) (Nat.le_trans h (Nat.le_add_right _ _)))
  intro p hp
  obtain ⟨id, he | he⟩ := mem_places hp
  · exact hcases he rfl (hreference id)
  · exact hcases he rfl (htail id)

/-- All words are filled in with the same numbers in either order. -/
theorem finished {bytes₁ bytes₂ : ByteOrder → Array UInt8}
    (h1 : ∀ order, resolve order (d.inked .little).structOffset (d.inked .little).references
      (d.inked order).bytes = .ok (bytes₁ order))
    (h2 : ∀ order, resolve order ((d.inked .little).trailingOffset (d.structs.size + 1))
      (d.inked .little).trailingReferences (bytes₁ order) = .ok (bytes₂ order)) :
    d.Finished fun order => overwrite (bytes₂ order) 8 (order.encode 4 d.flags.toNat) := by
  have habreast := d.abreast_inked .little
  have hfilled := fun order => filled (a := d.inked order) (sound_inked _ _)
    (by rw [(habreast order).structOffset_eq]; exact h1 order)
    (by rw [(habreast order).trailingOffset_eq]; exact h2 order)
  have hflags : ∀ order : ByteOrder, (order.encode 4 d.flags.toNat).length = 4 := fun _ => by simp
  have hsize : ∀ order, (bytes₂ order).size = d.size := fun order =>
    (hfilled order).1.trans (size_inked d order)
  -- the entries are behind the header
  have hbehind : ∀ order k, TypeVector.headerSize ≤ k →
      (overwrite (bytes₂ order) 8 (order.encode 4 d.flags.toNat))[k]? = (bytes₂ order)[k]? :=
    fun order k hk => getElem?_overwrite_of_outside (.inr (by rw [hflags]; exact hk))
  have hle : ∀ s ∈ spots TypeVector.headerSize d.entries, TypeVector.headerSize ≤ s.1 :=
    fun s hs => ((pairwise_spots _ d.entries).1 s hs).1
  have hplain : ∀ s ∈ spots TypeVector.headerSize d.entries, (∀ id, s.2 ≠ .reference id) →
      (∀ id, s.2 ≠ .tail id) → ∀ order, ∀ k < s.2.width,
        (overwrite (bytes₂ order) 8 (order.encode 4 d.flags.toNat))[s.1 + k]?
          = (s.2.ink order)[k]? := by
    intro s hs hreference htail order k hk
    rw [hbehind order _ (Nat.le_trans (hle s hs) (Nat.le_add_right _ _)),
      (hfilled order).2.1 _ (apart_of_places hs hreference htail hk), getElem?_inked hs hk]
  have hopen : ∀ place e v, (place, e) ∈ spots TypeVector.headerSize d.entries → (∀ order,
      ∃ w, (place, w) ∈ ((d.inked order).sheet (d.inked order).offset? (d.inked order).tail?).places ∧
        ∀ n, w = some n → n = v) → ∀ order, TypeVector.wordAt?
          (overwrite (bytes₂ order) 8 (order.encode 4 d.flags.toNat)) order place 4
            = some (v % 2 ^ 32) := by
    intro place e v hs hv order
    obtain ⟨w, hw, hn⟩ := hv order
    obtain ⟨n, rfl, hbytes⟩ := (hfilled order).2.2 _ hw
    obtain rfl := hn n rfl
    refine wordAt?_of_encode fun k hk => ?_
    rw [hbehind order _ (Nat.le_trans (hle _ hs) (Nat.le_add_right _ _))]
    exact hbytes k hk
  refine ⟨fun order => by rw [size_overwrite, hsize], fun order k hk => ?_, fun order k hk => ?_, ?_⟩
  · rw [getElem?_overwrite_of_outside (.inl hk), (hfilled order).2.1 k fun p hp => ?_, inked,
      Array.getElem?_append_left (by rw [size_new]; exact Nat.lt_trans hk (by decide))]
    obtain ⟨id, hs | hs⟩ := mem_places hp
    all_goals exact .inl (Nat.lt_of_lt_of_le hk (Nat.le_trans (by decide) (hle _ hs)))
  · refine getElem?_overwrite (by rw [hflags]; exact hk) ?_
    rw [hflags, hsize]
    exact Entries.le_stop TypeVector.headerSize d.entries
  · rintro ⟨place, e⟩ hs
    cases e with
    | byte b => exact fun order => hplain _ hs (by simp) (by simp) order 0 Nat.one_pos
    | word v => exact fun order => wordAt?_of_encode (hplain _ hs (by simp) (by simp) order)
    | reference id =>
      have hplace : ∀ order, (place, d.structs[id]?.bind StructEntry.offset) ∈
          ((d.inked order).sheet (d.inked order).offset? (d.inked order).tail?).places := fun order =>
        List.mem_append_left _ (List.mem_map.2 ⟨_, mem_references.2 hs, rfl⟩)
      obtain ⟨n, hn, -⟩ := (hfilled .little).2.2 _ (hplace .little)
      refine ⟨n, hn, hopen place _ n hs fun order => ⟨_, hplace order, fun m hm => ?_⟩⟩
      exact Option.some.inj (hm.symm.trans hn)
    | tail id =>
      have hplace : ∀ order, (place, (d.inked .little).tail? id) ∈
          ((d.inked order).sheet (d.inked order).offset? (d.inked order).tail?).places := by
        intro order
        refine List.mem_append_right _ (List.mem_map.2 ⟨_, mem_tails.2 hs, ?_⟩)
        show (place, (d.inked order).tail? id) = _
        unfold tail?
        rw [(habreast order).trailingOffset_eq]
        rfl
      obtain ⟨n, hn, -⟩ := (hfilled .little).2.2 _ (hplace .little)
      refine ⟨n, hopen place _ n hs fun order => ⟨_, hplace order, fun m hm => ?_⟩⟩
      exact Option.some.inj (hm.symm.trans hn)
    | gap => trivial

/-- `c` is `d` with the structs laid down that are queued. -/
structure LaysDown (d c : Draft) : Prop extends d.Grows c where
  run : ∀ order, emitPending d.structs.size (d.inked order) = .ok ⟨⟩ (c.inked order)
  settled : d.Settled → c.Settled

/-- **Words are filled in alike.** A draft is finished in either order, and its vectors have the same
numbers in the same places; or it comes to the same fault in either order. -/
theorem finish_alike (d : Draft) : (∃ e, ∀ order, (d.inked order).finish = .error e) ∨
    ∃ (c : Draft) (bytes : ByteOrder → Array UInt8), d.LaysDown c ∧ c.Finished bytes ∧
      ∀ order, (d.inked order).finish = .ok (bytes order, ⟨c.layout⟩) := by
  have hsize : ∀ order, (d.inked order).structs.size = d.structs.size := fun _ => rfl
  cases Draws.emitPending (d := d) d.structs.size with
  | @error e c _ run =>
    refine .inl ⟨e, fun order => ?_⟩
    unfold finish
    rw [hsize, EStateM.run, run]
    rfl
  | @ok v c grows settled run =>
    have habreast := c.abreast_inked .little
    have hfinish : ∀ order, (d.inked order).finish = do
        let bytes ← resolve order (c.inked .little).structOffset (c.inked .little).references
          (c.inked order).bytes
        let bytes ← resolve order ((c.inked .little).trailingOffset (c.structs.size + 1))
          (c.inked .little).trailingReferences bytes
        return (overwrite bytes 8 (order.encode 4 c.flags.toNat), ⟨c.layout⟩) := by
      intro order
      unfold finish
      rw [hsize, EStateM.run, run, ← (habreast order).structOffset_eq,
        ← (habreast order).trailingOffset_eq]
      rfl
    rcases resolve_alike (c.inked .little).structOffset (c.inked .little).references
      fun order => (c.inked order).bytes with ⟨e, h1⟩ | ⟨bytes₁, h1⟩
    · exact .inl ⟨e, fun order => by rw [hfinish, h1]; rfl⟩
    rcases resolve_alike ((c.inked .little).trailingOffset (c.structs.size + 1))
      (c.inked .little).trailingReferences bytes₁ with ⟨e, h2⟩ | ⟨bytes₂, h2⟩
    · refine .inl ⟨e, fun order => ?_⟩
      rw [hfinish, h1]
      show (resolve order _ _ (bytes₁ order) >>= _) = _
      rw [h2]
      rfl
    · exact .inr ⟨c, _, ⟨grows, run, settled⟩, finished h1 h2, fun order => by
        rw [hfinish]
        exact Except.bind_eq_ok.2 ⟨_, h1 order, Except.bind_eq_ok.2 ⟨_, h2 order, rfl⟩⟩⟩

/-- An interface comes of a draft in either order, or in neither. -/
theorem ofAssembler_alike (d : Draft) :
    (∃ e, ∀ order, Interface.ofAssembler (d.inked order) = .error e) ∨
      ∃ (c : Draft) (bytes : ByteOrder → Array UInt8), d.LaysDown c ∧ c.Finished bytes ∧
        ∀ order, Interface.ofAssembler (d.inked order)
          = .ok { vector := vector bytes order, layout := ⟨c.layout⟩ } := by
  rcases d.finish_alike with ⟨e, h⟩ | ⟨c, bytes, hlays, hbytes, h⟩
  · exact .inl ⟨e, fun order => by rw [Interface.ofAssembler, h]; rfl⟩
  · have hparse := fun order => parse_of_header (hbytes.header order) (hbytes.flags order)
    by_cases hflags : c.flags = 0
    · refine .inr ⟨c, bytes, hlays, hbytes, fun order => Except.bind_eq_ok.2 ⟨_, h order, ?_⟩⟩
      refine Except.bind_eq_ok.2 ⟨vector bytes order, ?_, rfl⟩
      rw [hparse, if_neg (by simpa using hflags)]
      rfl
    · refine .inl ⟨.unsupportedFlags c.flags, fun order => ?_⟩
      rw [Interface.ofAssembler, h]
      show (TypeVector.parse (bytes order) >>= _) = _
      rw [hparse, if_pos hflags]
      rfl

end Draft

end Ndr
