import Ndr.Proofs.Assembly.Draft

/-!
Laying down types does the same in either byte order: it looks at the structs, at how much there is
already, and at single bytes, never at words. What it lays down is of the grammar of records, and
spells the types.
-/

namespace Ndr

open Entries

namespace Assembler

/-! ### Measures -/

/-- Assemblers that know the same of their structs, and hold as much. -/
structure Abreast (a b : Assembler) : Prop where
  structs : b.structs = a.structs
  size : b.bytes.size = a.bytes.size

namespace Abreast

variable {a b : Assembler} (h : Abreast a b)

include h

theorem fault_eq : b.fault = a.fault := by
  funext reason
  unfold fault
  rw [h.size]

theorem structSpec_eq : b.structSpec = a.structSpec := by
  funext id
  unfold structSpec
  rw [h.structs, h.fault_eq]

theorem alignOf_eq (room : Nat) : b.alignOf room = a.alignOf room := by
  induction room with
  | zero =>
    funext t
    rw [alignOf, alignOf, h.fault_eq]
  | succ room ih =>
    funext t
    cases t <;> simp only [alignOf, ih, h.structSpec_eq]

theorem propsOf_eq (room : Nat) : b.propsOf room = a.propsOf room := by
  induction room with
  | zero =>
    funext t
    rw [propsOf, propsOf, h.fault_eq]
  | succ room ih =>
    funext t
    cases t <;> simp only [propsOf, ih, h.structSpec_eq]

theorem trailingArray_eq (room : Nat) : b.trailingArray room = a.trailingArray room := by
  induction room with
  | zero =>
    funext s
    rw [trailingArray, trailingArray, h.fault_eq]
  | succ room ih =>
    funext s
    simp only [trailingArray, ih, h.structSpec_eq]

end Abreast

end Assembler

open Assembler

namespace Draft

theorem abreast_inked (d : Draft) (order order' : ByteOrder) :
    Abreast (d.inked order) (d.inked order') :=
  ⟨rfl, by rw [size_inked, size_inked]⟩

/-- A record begins with the same byte in either order. -/
theorem firstByte {d : Draft} {t : TypeSpec} {n : Nat} (h : d.records (.stream t) n) :
    ∃ b, ∀ order, (d.inked order).bytes[n]? = some b := by
  obtain ⟨-, before, record, after, hsplit, hn, hforms⟩ := d.kept _ _ h
  obtain ⟨b, rest, hrecord⟩ : ∃ b rest, record = .byte b :: rest := by
    cases hforms with
    | stream hcode =>
      cases hcode with
      | cons => exact ⟨_, _, rfl⟩
  refine ⟨b, fun order => ?_⟩
  have hle := Entries.le_stop TypeVector.headerSize before
  have hspot : (n, .byte b) ∈ Entries.spots TypeVector.headerSize d.entries := by
    rw [hsplit, Entries.spots_append, hn, hrecord]
    exact List.mem_append_right _ List.mem_cons_self
  have hink : (Entries.ink order _ d.entries)[n - TypeVector.headerSize + 0]? = _ :=
    Entries.getElem?_ink hspot Nat.one_pos
  rw [inked, Array.getElem?_append_right (by rw [size_new]; omega), size_new,
    List.getElem?_toArray]
  exact hink

end Draft

namespace Draws

variable {α β : Type} {d d' : Draft} {es : List Entry} {P : (ByteOrder → α) → Draft → Prop}
  {kind : Kind} {t : TypeSpec} {room : Nat}

/-! ### Steps -/

theorem malformed (reason : Malformation) : Draws d (fun _ => malformed reason) P :=
  .error (.refl d) fun order => by
    show EStateM.Result.error ((d.inked order).fault reason) _ = .error ((d.inked .little).fault reason) _
    rw [(d.abreast_inked .little order).fault_eq]

theorem guard {c : Prop} [Decidable c] {reason : Malformation} {y : ByteOrder → PUnit → Assemble α}
    (h : ¬c → Draws d (fun order => y order ⟨⟩) P) :
    Draws d (fun order => if c then Assembler.malformed reason >>= y order else y order ⟨⟩) P := by
  by_cases hc : c
  · simp only [if_pos hc]
    exact (malformed reason (P := fun _ _ => False)).bind fun _ _ _ h => h.elim
  · simp only [if_neg hc]
    exact h hc

/-- A new record. -/
theorem record {f : ByteOrder → Record → Assemble α}
    (h : Draws d (fun order => f order (.ofEntries order [])) P) :
    Draws d (fun order => record >>= f order) P := by
  cases h with
  | ok grows holds run => exact .ok grows holds run
  | error grows run => exact .error grows run

/-- The offset of a record of some kind is given. -/
def Gives (kind : Kind) (v : ByteOrder → Nat) (d : Draft) : Prop :=
  ∃ n, v = (fun _ => n) ∧ d.records kind n

/-- A record without words for arrays at the ends of structs is laid down. -/
theorem emit_of_tails (h : Forms d.records kind es) (ht : tails d.next es = []) :
    Draws d (fun order => emit (.ofEntries order es)) (Gives kind) := by
  refine .ok (v := fun _ => d.next) (Draft.grows_append h) ⟨_, rfl, Draft.records_append h⟩
    fun order => emit_eq_ok.2 ⟨?_, ?_⟩
  · rw [Record.size_fill, Draft.size_inked]
    rfl
  · rw [Draft.inked_append, ht, List.append_nil]
    rfl

theorem emit (h : Forms d.records kind es) (hkind : ∀ s, kind ≠ .struct s) :
    Draws d (fun order => emit (.ofEntries order es)) (Gives kind) :=
  emit_of_tails h (h.tails_eq_nil hkind)

theorem emitLayout (s : StructSpec) :
    Draws d (fun _ => emitLayout s) fun v _ => ∃ n, v = fun _ => n := by
  have hset : ∀ slots : List UInt32, Draws d (fun order => do
      set { d.inked order with
        layout := d.layout.push (UInt32.ofNat s.slotted.length) ++ slots.toArray }
      return d.layout.size : ByteOrder → Assemble Nat)
        fun v _ => ∃ n, v = fun _ => n := fun slots =>
    .ok (v := fun _ => d.layout.size) (Draft.grows_withLayout
      (d.layout.push (UInt32.ofNat s.slotted.length) ++ slots.toArray)) ⟨_, rfl⟩ fun _ => rfl
  unfold Assembler.emitLayout
  refine see ?_
  cases hslots : s.hostSlots with
  | none => exact hset _
  | some slots =>
    dsimp only
    by_cases hc : slots.length = s.slotted.length ∧ slots.all (·.toNat < s.slotted.length)
    · simp only [if_pos hc]
      exact hset slots
    · simp only [if_neg hc]
      exact (malformed _ (P := fun _ _ => False)).bind fun _ _ _ h => h.elim

/-! ### Streams, arrays and unions -/

/-- Opcodes that spell some items are written behind some entries. -/
def Written (items : List Item) (es : List Entry) (v : ByteOrder → Record × Option Nat) (d : Draft) :
    Prop :=
  ∃ code definition, Code d.records items code ∧
    v = fun order => (.ofEntries order (es ++ code), definition)

/-- A way to write types that does the same in either order, and spells them. -/
def Drafts (write : Write) : Prop :=
  ∀ ⦃t : TypeSpec⦄, t.OpcodeFree → ∀ (d : Draft) (es : List Entry),
    Draws d (fun order => write t (.ofEntries order es)) (Written [.type t] es)

section

variable {write : Write} (hw : Drafts write)

include hw

theorem emitStream (ht : t.OpcodeFree) :
    Draws d (fun _ => emitStream write t) (Gives (.stream t)) := by
  refine record (f := fun _ r => write t r >>= fun p => Assembler.emit (p.1.op .endOfList)) ?_
  refine (hw ht d []).bind ?_
  rintro _ d1 - ⟨code, definition, hcode, rfl⟩
  simp only [List.nil_append, Record.ofEntries_op]
  exact emit (.stream hcode) (by simp)

theorem emitArray {s : ArraySpec} (ht : s.element.OpcodeFree) :
    Draws d (fun _ => emitArray write s) (Gives (.array s)) := by
  unfold Assembler.emitArray
  refine guard fun hdims => guard fun hlimits => record ?_
  dsimp only
  simp only [Record.ofEntries_byte, boundPairs_ofEntries]
  refine (hw ht d _).bind ?_
  rintro _ d1 - ⟨code, definition, hcode, rfl⟩
  have hforms : Forms d1.records (.array s)
      (.byte (UInt8.ofNat s.bounds.length) :: .byte filler :: .byte filler :: .byte filler ::
        (ofPairs s.bounds ++ (ofPairs (limitsOf s) ++ (code ++ [eol])))) := by
    have hlength : (UInt8.ofNat s.bounds.length).toNat = s.bounds.length := by
      rw [UInt8.toNat_ofNat_of_lt']
      show s.bounds.length < 256
      omega
    refine .array hlength.symm (fun hvarying => ?_) hcode
    rw [hlength]
    exact Decidable.byContradiction fun h => hlimits ⟨hvarying, h⟩
  have hentries := emit hforms (by simp)
  simpa [ofPairs, limitsOf, List.append_assoc] using hentries

theorem emitArm {ts : List TypeSpec} (hmem : t ∈ ts) (ht : t.OpcodeFree) :
    Draws d (fun _ => emitArm room write t)
      fun v d' => ∃ arm, v = (fun _ => arm) ∧ ArmLeads d'.records ts arm := by
  refine see (lift (fun order => congrFun ((d.abreast_inked .little order).propsOf_eq room) t)
    fun props _ => ?_)
  refine (emitStream hw ht).bind ?_
  rintro _ d1 - ⟨n, rfl, hn⟩
  obtain ⟨b, hb⟩ := d1.firstByte hn
  refine see ?_
  simp only [hb]
  exact pure ⟨_, rfl, .inr (.inr ⟨t, hmem, hn⟩)⟩

theorem emitCases {ts : List TypeSpec} {arms : List (UInt32 × Option TypeSpec)}
    (hmem : ∀ p ∈ arms, ∀ t, p.2 = some t → t ∈ ts) (ht : ∀ t ∈ ts, t.OpcodeFree) :
    Draws d (fun _ => emitCases room write arms) fun v d' => ∃ cases, v = (fun _ => cases) ∧
      cases.length = arms.length ∧ ∀ p ∈ cases, ArmLeads d'.records ts p.2 := by
  induction arms generalizing d with
  | nil => exact pure ⟨[], rfl, rfl, fun _ h => absurd h List.not_mem_nil⟩
  | cons first arms ih =>
    obtain ⟨label, arm⟩ := first
    have hrest : ∀ (r : ArmRecord) (d1 : Draft), ArmLeads d1.records ts r →
        Draws d1 (fun _ => do return (label, r) :: (← Assembler.emitCases room write arms))
          fun v d' => ∃ cases, v = (fun _ => cases) ∧
            cases.length = ((label, arm) :: arms).length ∧
            ∀ p ∈ cases, ArmLeads d'.records ts p.2 := by
      intro r d1 hr
      refine (ih fun p hp => hmem p (List.mem_cons_of_mem _ hp)).bind ?_
      rintro _ d2 hg ⟨cases, rfl, hlength, hcases⟩
      exact pure ⟨_, rfl, congrArg (· + 1) hlength,
        List.forall_mem_cons.2 ⟨hr.mono hg.records, hcases⟩⟩
    unfold Assembler.emitCases
    cases arm with
    | none => exact hrest _ d (.inl rfl)
    | some t =>
      have hmem := hmem _ List.mem_cons_self t rfl
      refine (emitArm hw hmem (ht t hmem)).bind ?_
      rintro _ d1 - ⟨r, rfl, hr⟩
      exact hrest r d1 hr

theorem emitUnion {u : UnionSpec} (ht : ∀ t ∈ u.armTypes, t.OpcodeFree) :
    Draws d (fun _ => emitUnion room write u) (Gives (.union u)) := by
  unfold Assembler.emitUnion
  refine guard fun _ => see (lift (fun order => by
    rw [(d.abreast_inked .little order).alignOf_eq room]) fun align _ => ?_)
  have harms : ∀ p ∈ u.arms, ∀ t, p.2 = some t → t ∈ u.armTypes := fun p hp t h =>
    List.mem_append_left _ (List.mem_filterMap.2 ⟨p, hp, h⟩)
  refine (emitCases hw harms ht).bind ?_
  rintro _ d1 - ⟨cases, rfl, hlength, hcases⟩
  have hrest : ∀ (default : ArmRecord) (d2 : Draft), d1.Grows d2 →
      ArmLeads d2.records u.armTypes default →
      Draws d2 (fun _ => do
        Assembler.emit (writeArms (cases ++ [(0, default)]) (unionHead u align (← Assembler.record))))
        (Gives (.union u)) := by
    intro default d2 hg hdefault
    refine record ?_
    simp only [unionHead, Record.ofEntries_op, Record.ofEntries_byte, Record.ofEntries_word,
      writeArms_ofEntries, List.nil_append, List.cons_append]
    exact emit (.union (by simp [hlength]) (List.forall_mem_append.2
      ⟨fun p hp => (hcases p hp).mono hg.records, by simpa using hdefault⟩)) (by simp)
  cases hd : u.default with
  | missing => exact hrest _ d1 (.refl _) (.inr (.inl rfl))
  | empty => exact hrest _ d1 (.refl _) (.inl rfl)
  | arm t =>
    have hmem : t ∈ u.armTypes := List.mem_append_right _ (by simp [hd])
    refine (emitArm hw hmem (ht t hmem)).bind ?_
    rintro _ d2 hg ⟨r, rfl, hr⟩
    exact hrest r d2 hg hr

/-! ### Descriptors -/

omit hw in
/-- One opcode with its operands. -/
theorem written {op : Opcode} {operands : List Entry} {v : ByteOrder → Record × Option Nat}
    (h : Operands d.records t op operands [])
    (hv : ∀ order, v order = (.ofEntries order (es ++ .byte op.toByte :: operands), none)) :
    Written [.type t] es v d := ⟨_, none, .single h, funext hv⟩

theorem writeFields {specs : List TypeSpec} (ht : ∀ t ∈ specs, t.OpcodeFree)
    (last : Option Nat) : Draws d (fun order => writeFields write specs (.ofEntries order es) last)
      (Written (specs.map .type) es) := by
  induction specs generalizing d es last with
  | nil => exact pure ⟨[], last, .nil, by simp⟩
  | cons t specs ih =>
    refine (hw (ht t List.mem_cons_self) d es).bind ?_
    rintro _ d1 - ⟨code, definition, hcode, rfl⟩
    refine (ih (fun t h => ht t (List.mem_cons_of_mem _ h)) _).mono ?_
    rintro _ d2 hg ⟨more, definition', hmore, rfl⟩
    exact ⟨code ++ more, definition', (hcode.mono hg.records).append hmore,
      by simp only [List.append_assoc]⟩

/-- A level of writing types does the same in either order where the levels below do. -/
theorem drafts_step (room : Nat) : Drafts (writeStep room write) := by
  intro t ht d es
  cases t with
  | scalar kind => exact pure (written (.bare (.scalar kind)) fun _ => by rw [Record.ofEntries_op])
  | range kind lower upper =>
    have hcode : Code d.records [.type (.range kind lower upper)] (.byte Opcode.range.toByte ::
        ([.word lower.toNat, .word upper.toNat] ++ [.byte (Opcode.scalar kind).toByte])) :=
      .cons .range (.single (.bare (.scalar kind)))
    refine pure ⟨_, none, hcode, funext fun order => ?_⟩
    simp [List.append_assoc]
  | struct id =>
    have habreast := d.abreast_inked .little
    refine see (lift (fun order => congrFun (habreast order).structSpec_eq id) fun s _ => ?_)
    refine lift (fun order => congrFun ((habreast order).trailingArray_eq maxNesting) s)
      fun array _ => lift (fun order => congrFun ((habreast order).propsOf_eq (room + 1)) (.struct id))
        fun props _ => ?_
    refine (replace (d.queue id) Draft.grows_queue fun order => Draft.inked_queue).bind ?_
    rintro _ _ - rfl
    have hstruct : ∀ k, Operands d.records (.struct id) (.struct k) [.byte props, .reference id] [] :=
      fun _ => .struct
    exact pure (written (hstruct _) fun order => by
      simp only [Record.ofEntries_op, Record.ofEntries_byte, Record.ofEntries_reference,
        List.append_assoc]
      rfl)
  | nested s =>
    refine see (lift (fun order => congrFun ((d.abreast_inked .little order).alignOf_eq (room + 1))
      (.nested s)) fun align _ => ?_)
    refine (emitLayout s).bind ?_
    rintro _ d1 - ⟨layout, rfl⟩
    simp only [Record.ofEntries_op, Record.ofEntries_byte, Record.ofEntries_word]
    refine (writeFields hw (fun t h => ht.part h) none).bind ?_
    rintro _ d2 - ⟨code, definition, hcode, rfl⟩
    have hfields : Code d2.records (s.fields.map .type ++ [.close] ++ [])
        (code ++ [.byte Opcode.endNested.toByte]) := by
      rw [List.append_nil]
      exact hcode.append (.close .nil)
    have hall : Code d2.records [.type (.nested s)] (.byte Opcode.beginNested.toByte ::
        ([.byte (UInt8.ofNat align), .word layout] ++ (code ++ [.byte Opcode.endNested.toByte]))) :=
      .cons .beginNested hfields
    exact pure ⟨_, none, hall, funext fun order => by simp⟩
  | array s =>
    refine see (lift (fun order => congrFun ((d.abreast_inked .little order).propsOf_eq (room + 1))
      (.array s)) fun props _ => ?_)
    refine (emitArray hw (ht.part (List.mem_singleton_self _))).bind ?_
    rintro _ d1 - ⟨n, rfl, hn⟩
    have hall : Code d1.records [.type (.array s)] (.byte (Opcode.array s.kind).toByte ::
        [.byte props, .byte (UInt8.ofNat s.bounds.length), .word n]) := .single (.array hn)
    cases hmark : markOf s.string s.v1 with
    | none => exact pure ⟨_, some n, hall, funext fun order => by simp⟩
    | some mark =>
      have hmarked : Code d1.records [.type (.array s)] (.byte (Opcode.mark mark).toByte :: ([] ++ _)) :=
        .cons .mark hall
      exact pure ⟨_, some n, hmarked, funext fun order => by simp⟩
  | union u =>
    refine see (lift (fun order => congrFun ((d.abreast_inked .little order).propsOf_eq (room + 1))
      (.union u)) fun props _ => ?_)
    refine (emitUnion hw fun t h => ht.part h).bind ?_
    rintro _ d1 - ⟨n, rfl, hn⟩
    cases hfield : u.switchField with
    | none =>
      have hop : Operands d1.records (.union u) .encapsulatedUnion [.byte props, .word n] [] :=
        .encapsulatedUnion hn
      exact pure (written hop fun order => by simp)
    | some field =>
      have hop : Operands d1.records (.union u) .switchedUnion
          [.byte props, .word field.toNat, .word n] [] := .switchedUnion hn
      exact pure (written hop fun order => by simp)
  | pointer kind pointee =>
    refine see (lift (fun order => congrFun ((d.abreast_inked .little order).propsOf_eq room) pointee)
      fun props _ => ?_)
    refine (emitStream hw (ht.part (List.mem_singleton_self _))).bind ?_
    rintro _ d1 - ⟨n, rfl, hn⟩
    have hop : Operands d1.records (.pointer kind pointee) (.pointer kind) [.byte props, .word n] [] :=
      .pointer hn
    exact pure (written hop fun order => by simp)
  | converted kind routine wire =>
    refine see (lift (fun order => congrFun ((d.abreast_inked .little order).propsOf_eq room) wire)
      fun props _ => ?_)
    refine (emitStream hw (ht.part (List.mem_singleton_self _))).bind ?_
    rintro _ d1 - ⟨n, rfl, hn⟩
    have hop : Operands d1.records (.converted kind routine wire) (.conversion kind)
        [.byte props, .word routine.toNat, .word n] [] := .conversion hn
    exact pure (written hop fun order => by simp)
  | freeRep routine inner =>
    have hrest := hw (ht.part (List.mem_singleton_self _)) d
      (es ++ (.byte Opcode.freeRep.toByte :: [.word routine.toNat]))
    simp only [writeStep, Record.ofEntries_op, Record.ofEntries_word, List.append_assoc,
      List.singleton_append]
    refine hrest.mono ?_
    rintro _ d1 - ⟨code, definition, hcode, rfl⟩
    exact ⟨.byte Opcode.freeRep.toByte :: ([.word routine.toNat] ++ code), definition,
      .cons .freeRep hcode, by simp only [List.append_assoc]; rfl⟩
  | pipe element =>
    refine see (lift (fun order => congrFun ((d.abreast_inked .little order).propsOf_eq room) element)
      fun props _ => ?_)
    refine (emitStream hw (ht.part (List.mem_singleton_self _))).bind ?_
    rintro _ d1 - ⟨n, rfl, hn⟩
    have hop : Operands d1.records (.pipe element) .pipe [.byte props, .word n] [] := .pipe hn
    exact pure (written hop fun order => by simp)
  | align boundary =>
    by_cases h : ∃ b : Boundary, b.toNat = boundary
    · obtain ⟨b, rfl⟩ := h
      cases b <;> exact pure (written (.bare (.align _)) fun _ => by rw [Record.ofEntries_op])
    · have hbad : ∀ order, writeStep room write (.align boundary) (.ofEntries order es)
          = Assembler.malformed .badMarker := fun order =>
        (writeStep_align room (Record.ofEntries order es) boundary).resolve_left
          fun ⟨b, hb, _⟩ => h ⟨b, hb⟩
      simp only [hbad]
      exact malformed _
  | ignore => exact pure (written (.bare .ignore) fun _ => by rw [Record.ofEntries_op])
  | context => exact pure (written (.bare (.context _)) fun _ => by rw [Record.ofEntries_op])
  | deletedNodes => exact pure (written (.bare .deletedNodes) fun _ => by rw [Record.ofEntries_op])
  | void => exact pure (written (.bare .void) fun _ => by rw [Record.ofEntries_op])
  | opcode op => exact absurd rfl (ht.ne op)

end

theorem drafts_write (room : Nat) : Drafts (write room) := by
  induction room with
  | zero => exact fun _ _ _ _ => malformed _
  | succ room ih => exact drafts_step ih room

/-! ### Lists -/

theorem writeParameters {ps : List (UInt32 × TypeSpec)} (ht : ∀ p ∈ ps, p.2.OpcodeFree) :
    Draws d (fun order => writeParameters ps (.ofEntries order es)) fun v d' =>
      ∃ qs : List (UInt32 × List Entry),
        List.Forall₂ (fun p q => Code d'.records [.type p.2] q.2) ps qs ∧
          v = fun order => .ofEntries order (es ++ ofParameters qs) := by
  induction ps generalizing d es with
  | nil => exact pure ⟨[], .nil, by simp [ofParameters]⟩
  | cons p ps ih =>
    obtain ⟨index, t⟩ := p
    unfold Assembler.writeParameters
    simp only [Record.ofEntries_word]
    refine (drafts_write (maxNesting + 1) (ht _ List.mem_cons_self) d _).bind ?_
    rintro _ d1 - ⟨code, definition, hcode, rfl⟩
    simp only [Record.ofEntries_op]
    refine (ih fun p h => ht p (List.mem_cons_of_mem _ h)).mono ?_
    rintro _ d2 hg ⟨qs, hqs, rfl⟩
    exact ⟨(index, code) :: qs, .cons (hcode.mono hg.records) hqs, by simp [ofParameters]⟩

theorem parameters {ps : List (UInt32 × TypeSpec)} (ht : ∀ p ∈ ps, p.2.OpcodeFree) :
    Draws d (fun _ => parameters ps) (Gives (.parameters ps)) := by
  refine record ?_
  simp only [Record.ofEntries_word]
  refine (writeParameters ht).bind ?_
  rintro _ d1 - ⟨qs, hqs, rfl⟩
  rw [hqs.length_eq]
  exact emit (.parameters hqs) (by simp)

theorem stream (ht : t.OpcodeFree) : Draws d (fun _ => stream t) (Gives (.stream t)) :=
  emitStream (drafts_write _) ht

end Draws

end Ndr
