import Ndr.Proofs.Assembly.Queue
import Ndr.Proofs.Assembly.Upkeep
import Ndr.Proofs.Conformance.Chain

/-!
What references tell of their structs. A reference is laid down with the kind and the properties that are
told of its struct at that time, and the definition of the struct in the end with what is told then. The
two agree where what is known of the struct stays, and not always where it is defined again.
-/

namespace Ndr

/-! ### Bytes that stay -/

/-- The byte at `k` is `b`, and no word that is filled in is there. -/
structure Sheet.Shows (s : Sheet) (k : Nat) (b : UInt8) : Prop where
  byte : s.bytes[k]? = some b
  apart : ∀ q ∈ s.places, k < q.1 ∨ q.1 + 4 ≤ k

namespace Sheet.Shows

variable {s t : Sheet} {k : Nat} {b : UInt8}

theorem lt (h : s.Shows k b) : k < s.bytes.size := (Array.getElem?_eq_some_iff.1 h.byte).1

theorem mono (h : s.Shows k b) (he : s.Extends t) : t.Shows k b where
  byte := (he.getElem? h.lt).trans h.byte
  apart q hq := by
    rcases he.added q hq with hq | hq
    · exact h.apart q hq
    · exact .inl (Nat.lt_of_lt_of_le h.lt hq)

/-- So it is in a vector where the bytes stand. -/
theorem stands {tv : TypeVector} {start : Nat} (h : s.Shows k b) (hs : s.Stands tv 0 start)
    (hk : start ≤ k) : tv.bytes[k]? = some b := by
  have := hs.bytes k hk h.lt h.apart
  rw [Nat.zero_add] at this
  exact this.trans h.byte

end Sheet.Shows

namespace Assembler

variable {f g : StructId → Option Nat} {R : StructId → StructKind → UInt8 → Prop} {a b c : Assembler}
  {r : Record} {id : StructId} {least start n k : Nat} {kind : StructKind} {props : UInt8} {v : UInt8}

theorem shows_append (ha : (a.sheet f g).Sound) (h : (r.sheet f).Shows k v) :
    ((a.append r).1.sheet f g).Shows ((fill a.bytes).size + k) v where
  byte := by
    show (fill a.bytes ++ r.bytes)[(fill a.bytes).size + k]? = _
    rw [Array.getElem?_append_right (Nat.le_add_right _ _), Nat.add_sub_cancel_left]
    exact h.byte
  apart q hq := by
    rcases mem_places_append.1 hq with hq | ⟨q, hword, rfl⟩
    · have hword : q.1 + 4 ≤ a.bytes.size := (ha.words q hq).2
      have := size_le_fill a.bytes
      omega
    · have := h.apart q hword
      dsimp only
      omega

/-- The operand for the array at the end of a struct is replaced. -/
theorem shows_patched (definition : Nat) (hk : k < trailingPlace ∨ trailingPlace + 4 ≤ k)
    (h : (r.sheet f).Shows k v) : ((patched r definition).sheet f).Shows k v where
  byte := (getElem?_overwrite_of_outside (by rwa [ByteOrder.length_encode])).trans h.byte
  apart := h.apart

/-- The operand for the array at the end of a struct is left open. -/
theorem shows_through {place : Nat} {inner : StructId} (hk : k < place ∨ place + 4 ≤ k)
    (h : (c.sheet f g).Shows k v) : (({ c with
      trailingReferences := c.trailingReferences ++ [(place, inner)] } : Assembler).sheet f g).Shows k v where
  byte := h.byte
  apart q hq := by
    rcases mem_places_through.1 hq with hq | rfl
    · exact h.apart q hq
    · exact hk

/-! ### Heads of references -/

variable {s t : Sheet} {p : Nat × StructId} {refs : List (Nat × StructId)}

/-- At `start` stand the opcode and the properties of a reference, ahead of its word, which is at the place
`p.1`; they are what `R` has for its struct. -/
structure Head (R : StructId → StructKind → UInt8 → Prop) (s : Sheet) (p : Nat × StructId) (start : Nat)
    (kind : StructKind) (props : UInt8) : Prop where
  place : start + 2 + padding (start + 2) 4 = p.1
  first : s.Shows start (Opcode.struct kind).toByte
  second : s.Shows (start + 1) props
  told : R p.2 kind props

/-- The references have heads from `least` on. -/
def Headed (R : StructId → StructKind → UInt8 → Prop) (least : Nat) (s : Sheet)
    (refs : List (Nat × StructId)) : Prop :=
  ∀ p ∈ refs, ∃ start kind props, least ≤ start ∧ Head R s p start kind props

theorem Headed.mono (h : Headed R least s refs) (he : s.Extends t) : Headed R least t refs := by
  intro p hp
  obtain ⟨start, kind, props, hle, hhead⟩ := h p hp
  exact ⟨start, kind, props, hle, hhead.place, hhead.first.mono he, hhead.second.mono he, hhead.told⟩

/-! ### Records -/

/-- A record with heads of its references from `least` on. -/
structure HeadedRecord (f : StructId → Option Nat) (R : StructId → StructKind → UInt8 → Prop)
    (least : Nat) (r : Record) : Prop where
  sound : (r.sheet f).Sound
  heads : Headed R least (r.sheet f) r.references
  within : least ≤ r.bytes.size

namespace HeadedRecord

variable {r' : Record}

/-- More that is no reference. -/
theorem continues (h : HeadedRecord f R least r) (hc : Record.Continues f r r')
    (hr : r'.references = r.references) : HeadedRecord f R least r' where
  sound := hc.sound h.sound
  heads := hr ▸ h.heads.mono hc.sheet
  within := Nat.le_trans h.within hc.size_le

/-- A byte that is appended stays. -/
theorem shows_byte (h : (r.sheet f).Sound) (v : UInt8) : ((r.byte v).sheet f).Shows r.bytes.size v where
  byte := Array.getElem?_push_size
  apart q hq := .inr (h.words q hq).2

/-- One more reference, with its head. -/
theorem reference (h : HeadedRecord f R least r) (hR : R id kind props) :
    HeadedRecord f R least (((r.op (.struct kind)).byte props).reference id) := by
  have hop := Record.continues_op (f := f) (r := r) (.struct kind)
  have hbyte := Record.continues_byte (f := f) (r := r.op (.struct kind)) props
  have hword := Record.continues_reference (f := f) (r := (r.op (.struct kind)).byte props) id
  have hall := hop.trans (hbyte.trans hword)
  refine ⟨hall.sound h.sound, ?_, Nat.le_trans h.within hall.size_le⟩
  intro p hp
  rcases List.mem_append.1 hp with hp | hp
  · exact h.heads.mono hall.sheet p hp
  · obtain rfl := List.mem_singleton.1 hp
    have hsize : (r.op (.struct kind)).bytes.size = r.bytes.size + 1 := Record.size_byte _ _
    refine ⟨r.bytes.size, kind, props, h.within, ?_, ?_, ?_, hR⟩
    · rw [Record.size_fill, Record.size_byte, hsize]
    · exact (shows_byte h.sound _).mono (hbyte.trans hword).sheet
    · rw [← hsize]
      exact (shows_byte (hop.sound h.sound) _).mono hword.sheet

/-- The words of the references stand behind their heads. -/
theorem le_place (h : HeadedRecord f R least r) : ∀ p ∈ (r.sheet f).places, least ≤ p.1 := by
  intro p hp
  obtain ⟨q, hq, rfl⟩ := List.mem_map.1 hp
  obtain ⟨start, kind, props, hle, hhead⟩ := h.heads q hq
  have hplace := hhead.place
  dsimp only
  omega

/-- The operand of a struct for the array at its end is ahead of all its references. -/
theorem patched (h : HeadedRecord f R (trailingPlace + 4) r) (definition : Nat) :
    HeadedRecord f R (trailingPlace + 4) (Assembler.patched r definition) := by
  refine ⟨sound_patched h.sound, ?_, (size_patched definition).symm ▸ h.within⟩
  intro p hp
  obtain ⟨start, kind, props, hle, hhead⟩ := h.heads p hp
  exact ⟨start, kind, props, hle, hhead.place, shows_patched definition (.inr hle) hhead.first,
    shows_patched definition (.inr (Nat.le_succ_of_le hle)) hhead.second, hhead.told⟩

end HeadedRecord

/-! ### Assemblers -/

/-- An assembler with heads of all references behind its header. -/
structure Heads (f g : StructId → Option Nat) (R : StructId → StructKind → UInt8 → Prop)
    (a : Assembler) : Prop where
  started : Started f g a
  heads : Headed R TypeVector.headerSize (a.sheet f g) a.references

/-- An assembler that tells no more of its structs than `R` has. -/
def Allows (R : StructId → StructKind → UInt8 → Prop) (a : Assembler) : Prop :=
  ∀ id kind props, a.Tells id kind props → R id kind props

theorem Allows.back (h : Allows R b) (hspecs : ∀ id s, a.spec? id = some s → b.spec? id = some s) :
    Allows R a := fun id kind props ht => h id kind props (ht.mono hspecs)

theorem heads_new (order : ByteOrder) (flags : UInt32) : Heads f g R (new order flags) :=
  ⟨started_new, fun _ hp => absurd hp List.not_mem_nil⟩

/-- What leaves the bytes and the references leaves the heads. -/
theorem Heads.congr (h : Heads f g R a) (hs : b.sheet f g = a.sheet f g)
    (hr : b.references = a.references) : Heads f g R b :=
  ⟨⟨hs ▸ h.started.sound, (congrArg (·.bytes.size) hs).symm ▸ h.started.header⟩, hr ▸ hs ▸ h.heads⟩

/-- Behind a record that is added all references have heads: those that were there, and those of the record
from `least` on in it. -/
theorem headed_append (ha : Heads f g R a) (hr : HeadedRecord f R least r) :
    ∀ p ∈ (a.append r).1.references, ∃ start kind props, TypeVector.headerSize ≤ start ∧
      (start + 2 ≤ a.bytes.size ∨ (fill a.bytes).size + least ≤ start) ∧
      Head R ((a.append r).1.sheet f g) p start kind props := by
  intro p hp
  rcases List.mem_append.1 hp with hp | hp
  · obtain ⟨start, kind, props, hstart, hhead⟩ := ha.heads p hp
    have he := (grown_append (g := g) (a := a) hr.sound).sheet
    exact ⟨start, kind, props, hstart, .inl hhead.second.lt, hhead.place, hhead.first.mono he,
      hhead.second.mono he, hhead.told⟩
  · obtain ⟨⟨place, id⟩, hq, rfl⟩ := List.mem_map.1 hp
    obtain ⟨start, kind, props, hstart, hhead⟩ := hr.heads _ hq
    have hheader := ha.started.header
    have hle := size_le_fill a.bytes
    refine ⟨(fill a.bytes).size + start, kind, props, by omega, .inr (by omega), ?_,
      shows_append ha.started.sound hhead.first, shows_append ha.started.sound hhead.second, hhead.told⟩
    -- the record is aligned, so that the word has the same padding ahead of it
    have hpadding : padding ((fill a.bytes).size + (start + 2)) 4 = padding (start + 2) 4 :=
      Record.padding_add (Record.size_fill_mod a.bytes)
    have hplace : start + 2 + padding (start + 2) 4 = place := hhead.place
    show (fill a.bytes).size + start + 2 + _ = (fill a.bytes).size + place
    rw [Nat.add_assoc (fill a.bytes).size, hpadding, Nat.add_assoc, hplace]

theorem heads_append (ha : Heads f g R a) (hr : HeadedRecord f R least r) :
    Heads f g R (a.append r).1 := by
  refine ⟨ha.started.mono (grown_append hr.sound).toLater, ?_⟩
  intro p hp
  obtain ⟨start, kind, props, hle, -, hhead⟩ := headed_append ha hr p hp
  exact ⟨start, kind, props, hle, hhead⟩

theorem carries_headed (least : Nat) :
    Carries (fun a => Heads f g R a ∧ Allows R a) (HeadedRecord f R least) where
  byte b h := h.continues (Record.continues_byte b) rfl
  word v h := h.continues (Record.continues_word v) rfl
  reference ha ht h := h.reference (ha.2 _ _ _ ht)

/-- **References tell what is known.** Whatever is laid down, each reference has a head with what is told of
its struct then. -/
theorem upkeep_heads : Upkeep (fun a => Heads f g R a ∧ Allows R a) (HeadedRecord f R 0) where
  toCarries := carries_headed 0
  empty order := ⟨sound_record, fun _ hp => absurd hp List.not_mem_nil, Nat.zero_le _⟩
  append ha hr := ⟨heads_append ha.1 hr, ha.2.back fun _ _ h => h⟩
  layout _ ha := ⟨ha.1.congr rfl rfl, ha.2.back fun _ _ h => h⟩
  queue {a} id ha := by
    have hsame : (a.queue id).sheet f g = a.sheet f g ∧ (a.queue id).references = a.references := by
      unfold queue
      split
      · split
        · exact ⟨rfl, rfl⟩
        · exact ⟨rfl, rfl⟩
      · exact ⟨rfl, rfl⟩
    refine ⟨ha.1.congr hsame.1 hsame.2, ha.2.back ?_⟩
    exact fun j s hs => ((queues_queue id).specs j).symm.trans hs

/-! ### Structs -/

/-- A change of other things that are known of a struct than its type. -/
theorem heads_modify (id : StructId) {F : StructEntry → StructEntry} (hF : ∀ e, (F e).spec = e.spec)
    (h : Heads f g R b ∧ Allows R b) : Heads f g R { b with structs := b.structs.modify id F } ∧
      Allows R { b with structs := b.structs.modify id F } :=
  ⟨h.1.congr rfl rfl, h.2.back fun _ _ hs => (getElem?_modify_bind fun _ => hF).symm.trans hs⟩

theorem headed_structHead {order : ByteOrder} {align layout v : Nat} {props : UInt8} :
    HeadedRecord f R (trailingPlace + 4) ((structHead order align props layout).word v) :=
  ⟨(Record.continues_word v).sound sound_structHead, fun _ hp => absurd hp List.not_mem_nil,
    (size_structHead_word v).ge⟩

/-- So it is where a struct is laid down, also where the word for the array at its end is left open. -/
theorem heads_emitStruct (h : Heads f g R b ∧ Allows R b) (e : emitStruct id b = .ok n c) :
    Heads f g R c ∧ Allows R c := by
  obtain ⟨s, align, props, layout, array, b1, r, last, b2, -, -, -, -, elayout, efields, hend⟩ :=
    emitStruct_eq_ok e
  have h1 := ((upkeep_heads.emitLayout s).ok h elayout).1
  obtain ⟨h2, hr⟩ := (keeps_writeFields (upkeep_heads.keeps_write maxNesting)
    (carries_headed (trailingPlace + 4)) s.fields none headed_structHead).ok h1 efields
  cases hend with
  | fixed e =>
    obtain ⟨-, rfl⟩ := emit_eq_ok.1 e
    exact ⟨heads_append h2.1 (hr.continues (Record.continues_op _) rfl), h2.2.back fun _ _ h => h⟩
  | @laid _ definition _ _ e =>
    obtain ⟨-, rfl⟩ := emit_eq_ok.1 e
    have h3 := heads_modify id (F := fun e => { e with trailing := some (.laid definition) })
      (fun _ => rfl) h2
    exact ⟨heads_append h3.1 ((hr.patched definition).continues (Record.continues_op _) rfl),
      h3.2.back fun _ _ h => h⟩
  | @through _ _ _ inner c' _ e' hc =>
    subst hc
    have hend : HeadedRecord f R (trailingPlace + 4) (r.op .endOfList) :=
      hr.continues (Record.continues_op _) rfl
    have hlater : Later f g b2 { c' with
        trailingReferences := c'.trailingReferences ++ [(n + trailingPlace, inner)] } :=
      later_through e' hend.sound hend.le_place hend.within
    obtain ⟨rfl, rfl⟩ := emit_eq_ok.1 e'
    refine heads_modify id (F := fun e => { e with trailing := some (.through inner) }) (fun _ => rfl)
      ⟨⟨h2.1.started.mono hlater, ?_⟩, h2.2.back fun _ _ h => h⟩
    intro p hp
    obtain ⟨start, kind, props, hle, hstart, hhead⟩ := headed_append h2.1 hend p hp
    have hfill := size_le_fill b2.bytes
    -- the open word is behind the heads that were there, and ahead of those in the record
    exact ⟨start, kind, props, hle, hhead.place, shows_through (by omega) hhead.first,
      shows_through (by omega) hhead.second, hhead.told⟩

theorem heads_settles (h : Settles b c) (hb : Heads f g R b ∧ Allows R b) :
    Heads f g R c ∧ Allows R c := by
  induction h with
  | done => exact hb
  | @step b _ _ id rest _ e _ ih =>
    have hrest : Heads f g R { b with pending := rest } ∧ Allows R { b with pending := rest } :=
      ⟨hb.1.congr rfl rfl, hb.2.back fun _ _ h => h⟩
    exact ih (heads_modify id (fun _ => rfl) (heads_emitStruct hrest e))

/-! ### Definitions -/

/-- The definitions of structs behind the header have the properties that are told of them. -/
def Defined (f g : StructId → Option Nat) (a : Assembler) : Prop :=
  ∀ id n, a.offset? id = some n → TypeVector.headerSize ≤ n ∧
    ∃ kind props, a.Tells id kind props ∧ (a.sheet f g).Shows (n + 1) props

theorem shows_structHead {order : ByteOrder} {align layout v : Nat} {props : UInt8} :
    (((structHead order align props layout).word v).sheet f).Shows 1 props := by
  have h1 : ((((({ order } : Record).byte (UInt8.ofNat align)).byte props)).sheet f).Shows 1 props :=
    HeadedRecord.shows_byte ((Record.continues_byte _).sound sound_record) props
  exact h1.mono ((Record.continues_byte filler).trans ((Record.continues_byte filler).trans
    ((Record.continues_word layout).trans (Record.continues_word v)))).sheet

/-- A definition is laid down with the properties that are told of its struct. -/
theorem shows_emitStruct (hb : Started f g b) (e : emitStruct id b = .ok n c) :
    TypeVector.headerSize ≤ n ∧
      ∃ kind props, b.Tells id kind props ∧ (c.sheet f g).Shows (n + 1) props := by
  obtain ⟨s, align, props, layout, array, b1, r, last, b2, hs, -, hprops, harray, elayout, efields,
    hend⟩ := emitStruct_eq_ok e
  obtain ⟨hg1, hg2, hc⟩ := grown_fields (f := f) (g := g) elayout efields
  have hb2 := hb.mono (hg1.trans hg2).toLater
  have hheader : TypeVector.headerSize ≤ (fill b2.bytes).size :=
    Nat.le_trans hb2.header (size_le_fill _)
  have hshows : (r.sheet f).Shows 1 props := shows_structHead.mono hc.sheet
  have htells : b.Tells id (kindOf array) props := ⟨s, array, _, hs, harray, hprops, rfl⟩
  cases hend with
  | fixed e =>
    obtain ⟨rfl, rfl⟩ := emit_eq_ok.1 e
    exact ⟨hheader, _, props, htells,
      shows_append hb2.sound (hshows.mono (Record.continues_op _).sheet)⟩
  | @laid _ definition _ _ e =>
    obtain ⟨rfl, rfl⟩ := emit_eq_ok.1 e
    exact ⟨hheader, _, props, htells, shows_append (a := { b2 with
      structs := b2.structs.modify id fun e => { e with trailing := some (.laid definition) } }) hb2.sound
      ((shows_patched definition (.inl (by decide)) hshows).mono (Record.continues_op _).sheet)⟩
  | through _ e' hc' =>
    subst hc'
    obtain ⟨rfl, rfl⟩ := emit_eq_ok.1 e'
    exact ⟨hheader, _, props, htells, shows_through (.inl (by unfold trailingPlace; omega))
      (shows_append hb2.sound (hshows.mono (Record.continues_op _).sheet))⟩

theorem defined_settles (h : Settles b c) (hb : Started f g b) (hd : Defined f g b) :
    Defined f g c := by
  induction h with
  | done => exact hd
  | @step b c _ id rest n e _ ih =>
    have hrest : Started f g { b with pending := rest } := ⟨hb.sound, hb.header⟩
    have hlaying := laying_emitStruct (f := f) (g := g) e
    have hlater : Later f g { b with pending := rest } (c.placed id n) := hlaying.later.trans later_placed
    refine ih (hrest.mono hlater) ?_
    intro j m hm
    rcases offset?_placed hm with ⟨rfl, rfl⟩ | ⟨-, hm⟩
    · obtain ⟨hle, kind, props, htells, hshows⟩ := shows_emitStruct hrest e
      exact ⟨hle, kind, props, htells.mono hlater.specs, hshows.mono later_placed.sheet⟩
    · obtain ⟨hle, kind, props, htells, hshows⟩ := hd j m ((hlaying.offsets j).symm.trans hm)
      exact ⟨hle, kind, props, htells.mono hlater.specs, hshows.mono hlater.sheet⟩

/-! ### Calls -/

/-- What a request keeps to, whether or not it fails. -/
theorem answer_of_keeps {I : Assembler → Prop} {P : Nat → Prop} {q : Request} (h : Keeps I P q.make)
    (ha : I a) : I ((Call.request q).answer a).2 := by
  have hcall : Keeps I (fun _ => True) (Call.request q).make := h.bind fun _ _ => .pure trivial
  have hends := hcall a ha
  unfold Call.answer
  cases e : (Call.request q).make a with
  | ok n b =>
    rw [e] at hends
    exact hends.1
  | error fault b =>
    rw [e] at hends
    exact hends

/-- A call leaves heads where no more is told than `R` has. -/
theorem heads_answer (call : Call) (h : Heads f g R a) (hR : Allows R a) :
    Heads f g R (call.answer a).2 := by
  cases call with
  | declare | define | add => exact h.congr rfl rfl
  | request q =>
    have hmake : Keeps (fun a => Heads f g R a ∧ Allows R a) (fun _ => True) q.make := by
      cases q with
      | parameters ps => exact upkeep_heads.parameters ps
      | stream t => exact upkeep_heads.stream t
    exact (answer_of_keeps hmake ⟨h, hR⟩).1

theorem heads_replay {calls : List Call} (h : Heads f g R a)
    (hR : ∀ cs, cs <+: calls → Allows R (replay cs a).2) : Heads f g R (replay calls a).2 := by
  induction calls generalizing a with
  | nil => exact h
  | cons call calls ih =>
    refine ih (heads_answer call h (hR [] List.nil_prefix)) ?_
    intro cs hcs
    exact hR (call :: cs) (List.cons_prefix_cons.2 ⟨rfl, hcs⟩)

theorem standing_answer (call : Call) (h : Standing a) : Standing (call.answer a).2 := by
  cases call with
  | declare => exact standing_declare h
  | define id s => exact standing_define h id s
  | add s => exact standing_define (standing_declare h) _ s
  | request q =>
    have hadds : ∀ f g, Adds f g (fun _ => True) q.make := by
      intro f g
      cases q with
      | parameters ps => exact adds_parameters ps
      | stream t => exact adds_stream t
    have hmake : Keeps Standing (fun _ => True) q.make := by
      intro b hb
      cases e : q.make b with
      | ok n c => exact ⟨hb.mono fun f g => ((hadds f g).ok e).1, trivial⟩
      | error fault c => exact hb.mono (Adds.grown_of_error hadds e)
    exact answer_of_keeps hmake h

theorem standing_replay {calls : List Call} (h : Standing a) : Standing (replay calls a).2 := by
  induction calls generalizing a with
  | nil => exact h
  | cons call calls ih => exact ih (standing_answer call h)

/-! ### What is read -/

variable {i : Interface} {d : StructDefinition}

/-- At `start` a reference to a struct is read, whose word is at `place`. -/
def RefersAt (tv : TypeVector) (start place : Nat) (kind : StructKind) (props : UInt8) (n : Nat) : Prop :=
  ∀ fuel o m, tv.readDescriptorFrom (fuel + 1) o m start =
    .ok (some ⟨o, m, .struct kind props n⟩) (place + 4)

/-- A reference is read with the kind and the properties of its head, and with the offset of its struct. -/
theorem reads_head (hl : Laid i a a) (hrange : InRange a) (hi : i.Small)
    (hsize : i.vector.size = a.bytes.size) (hp : p ∈ a.references)
    (h : Head R (a.sheet a.offset? a.tail?) p start kind props) (hle : TypeVector.headerSize ≤ start) :
    ∃ n, a.offset? p.2 = some n ∧ RefersAt i.vector start p.1 kind props n := by
  have hplace := h.place
  have hmem : (p.1, a.offset? p.2) ∈ (a.sheet a.offset? a.tail?).places :=
    List.mem_append_left _ (List.mem_map.2 ⟨p, hp, rfl⟩)
  obtain ⟨n, hn, hword⟩ := hl.stands.places _ hmem (by dsimp only; omega)
  have hlt : n < a.bytes.size := hrange.offsets _ n hn
  have hsmall := hi.vector
  rw [Nat.zero_add, ← hplace] at hword
  have hread := Record.readNat_of_wordAt? (by omega) hword
  rw [hplace] at hread
  refine ⟨n, hn, fun fuel o m => ?_⟩
  exact bind_eq_ok.2 ⟨_, _, rfl, bind_eq_ok.2 ⟨_, _,
    Record.readOpcode_of_getElem? (h.first.stands hl.stands hle), bind_eq_ok.2 ⟨_, _,
    Record.readByte_of_getElem? (h.second.stands hl.stands (Nat.le_succ_of_le hle)),
    bind_eq_ok.2 ⟨_, _, hread, rfl⟩⟩⟩⟩

theorem props_of_structDefinition {tv : TypeVector} (e : tv.structDefinition n = .ok d)
    (h : tv.bytes[n + 1]? = some v) : d.props = v := by
  obtain ⟨next, e⟩ := TypeVector.readAt_eq_ok.1 e
  obtain ⟨_, _, e0, e⟩ := bind_eq_ok.1 e
  have hlt : n + 1 < tv.bytes.size := (Array.getElem?_eq_some_iff.1 h).1
  obtain ⟨-, rfl⟩ := EStateM.Result.ok.inj ((Record.readByte_of_getElem?
    (Array.getElem?_eq_getElem (Nat.lt_of_succ_lt hlt))).symm.trans e0)
  obtain ⟨_, _, e1, e⟩ := bind_eq_ok.1 e
  obtain ⟨rfl, -⟩ := EStateM.Result.ok.inj ((Record.readByte_of_getElem? h).symm.trans e1)
  obtain ⟨_, _, -, e⟩ := bind_eq_ok.1 e
  obtain ⟨_, _, -, e⟩ := bind_eq_ok.1 e
  obtain ⟨_, _, -, e⟩ := bind_eq_ok.1 e
  obtain ⟨_, _, -, e⟩ := bind_eq_ok.1 e
  obtain ⟨_, _, -, e⟩ := bind_eq_ok.1 e
  obtain ⟨rfl, -⟩ := pure_eq_ok.1 e
  rfl

/-- A kind and properties agree with the definition at `n`: the kind is that of a fixed struct where no
array is at the end, and otherwise tells the width of the counts of the array that the chain of structs
ends with. -/
structure Agrees (tv : TypeVector) (kind : StructKind) (props : UInt8) (n : Nat)
    (d : StructDefinition) : Prop where
  read : tv.structDefinition n = .ok d
  props : d.props = props
  fixed : kind = .fixed ↔ d.trailing = none
  v1 : kind ≠ .fixed → ∃ ds f, tv.Chain n (d :: ds) f ∧ (kind = .v1Conformant ↔ f.modifiers.isV1)

/-- A struct that ends with an array begins a chain. -/
theorem exists_chain_of_endsWith {s : StructSpec} {array : ArraySpec} (hs : a.spec? id = some s)
    (h : s.EndsWith a array) : ∃ ids, a.Chain (id :: ids) array := by
  induction h generalizing id with
  | array hlast hkind => exact ⟨[], .array hs hlast hkind⟩
  | struct hlast hinner _ ih =>
    obtain ⟨ids, hchain⟩ := ih hinner
    exact ⟨_ :: ids, .struct hs hlast hchain⟩

/-- What is told of a struct in the end agrees with its definition. -/
theorem agrees_of_defined (hl : Laid i a a) (hs : Settled i a a) (hd : Defined a.offset? a.tail? a)
    (hplain : ∀ id s, a.spec? id = some s → s.Plain) (hoffset : a.offset? id = some n) :
    ∃ kind props d, a.Tells id kind props ∧ Agrees i.vector kind props n d := by
  obtain ⟨hle, kind, props, htells, hshows⟩ := hd id n hoffset
  have hbyte := hshows.stands hl.stands (Nat.le_succ_of_le hle)
  obtain ⟨s, d, hspec, hwhole⟩ := definesWhole hs hplain hoffset
  have htold := htells
  obtain ⟨s', array, _, hspec', harray, -, rfl⟩ := htold
  obtain rfl := Option.some.inj (hspec.symm.trans hspec')
  have hends := endsWith_of_trailingArray harray
  have hkind := kindOf_tells harray
  refine ⟨_, props, d, htells, hwhole.read, props_of_structDefinition hwhole.read hbyte, ?_, ?_⟩
  · rw [hwhole.fixed]
    constructor
    · intro hfixed
      rwa [hfixed] at hkind
    · intro hnone
      cases array with
      | none => rfl
      | some array => exact absurd ((hends array).2 rfl) (hnone array)
  · intro hne
    cases array with
    | none => exact absurd rfl hne
    | some array =>
      have harray := (hends array).2 rfl
      obtain ⟨ids, hchain⟩ := exists_chain_of_endsWith hspec harray
      obtain ⟨d', ds, f, t, hc, -⟩ := chain_of_settled hs hplain hchain hoffset
      obtain ⟨e, rest, -, heq, hread, -⟩ := hc.chain.first
      obtain ⟨rfl, rfl⟩ := List.cons.inj heq
      obtain rfl := Except.ok.inj (hwhole.read.symm.trans hread)
      refine ⟨ds, f, hc.chain, ?_⟩
      rw [(kind_of_tells hkind harray).2, (spells_arrayForm hc.array).2.1, array.isV1_modify]

/-! ### Interfaces -/

variable {order : ByteOrder} {flags : UInt32} {calls : List Call}

/-- This was told of a struct after some of the calls. -/
def Told (order : ByteOrder) (flags : UInt32) (calls : List Call) (id : StructId) (kind : StructKind)
    (props : UInt8) : Prop :=
  ∃ cs, cs <+: calls ∧ (replay cs (new order flags)).2.Tells id kind props

/-- **What a reference tells was told of its struct at some time.** Whatever calls are made, also calls that
fail or define a struct again, each reference is read with what was told of its struct after some of the
calls, and leads to a definition that agrees with what is told in the end. -/
theorem references_tell (e : Interface.ofAssembler (replay calls (new order flags)).2 = .ok i)
    (hi : i.Small)
    (hplain : ∀ id s, (replay calls (new order flags)).2.spec? id = some s → s.Plain) :
    ∃ a, Settles (replay calls (new order flags)).2 a ∧ ∀ p ∈ a.references,
      ∃ start kind props kind' props' n d, RefersAt i.vector start p.1 kind props n ∧
        Told order flags calls p.2 kind props ∧
        (replay calls (new order flags)).2.Tells p.2 kind' props' ∧ Agrees i.vector kind' props' n d := by
  have hstanding : Standing (replay calls (new order flags)).2 :=
    standing_replay (standing_new order flags)
  obtain ⟨a, hsettles, hrange, hsize, hl, hsettled⟩ := hstanding.finished e hi
  refine ⟨a, hsettles, ?_⟩
  have hallows : ∀ cs, cs <+: calls → Allows (Told order flags calls) (replay cs (new order flags)).2 :=
    fun cs hcs _ _ _ ht => ⟨cs, hcs, ht⟩
  have hheads : Heads a.offset? a.tail? (Told order flags calls) (replay calls (new order flags)).2 :=
    heads_replay (heads_new order flags) hallows
  obtain ⟨⟨-, hheads⟩, -⟩ := heads_settles hsettles ⟨hheads, hallows calls List.prefix_rfl⟩
  have hdefined : Defined a.offset? a.tail? a := defined_settles hsettles hstanding.started
    fun id n hn => absurd ((hstanding.offsets id).symm.trans hn) (by simp)
  intro p hp
  obtain ⟨start, kind, props, hle, hhead⟩ := hheads p hp
  obtain ⟨n, hn, hread⟩ := reads_head hl hrange hi hsize hp hhead hle
  obtain ⟨kind', props', d, htells, hagrees⟩ := agrees_of_defined hl hsettled hdefined
    (fun id s hs => hplain id s (hsettles.spec?_eq.symm.trans hs)) hn
  exact ⟨start, kind, props, kind', props', n, d, hread, hhead.told,
    htells.mono fun id s hs => hsettles.spec?_eq.symm.trans hs, hagrees⟩

/-- **References agree with definitions** where the calls leave every struct as it was once defined. -/
theorem references_agree (e : Interface.ofAssembler (replay calls (new order flags)).2 = .ok i)
    (hi : i.Small)
    (hplain : ∀ id s, (replay calls (new order flags)).2.spec? id = some s → s.Plain)
    (hstays : ∀ cs, cs <+: calls → ∀ id s, (replay cs (new order flags)).2.spec? id = some s →
      (replay calls (new order flags)).2.spec? id = some s) :
    ∃ a, Settles (replay calls (new order flags)).2 a ∧ ∀ p ∈ a.references,
      ∃ start kind props n d, RefersAt i.vector start p.1 kind props n ∧
        Agrees i.vector kind props n d := by
  obtain ⟨a, hsettles, hreferences⟩ := references_tell e hi hplain
  refine ⟨a, hsettles, ?_⟩
  intro p hp
  obtain ⟨start, kind, props, kind', props', n, d, hread, ⟨cs, hcs, htold⟩, htells, hagrees⟩ :=
    hreferences p hp
  obtain ⟨rfl, rfl⟩ := htold.eq (hstays cs hcs) htells
  exact ⟨start, kind', props', n, d, hread, hagrees⟩

/-- A struct that ends with an array is asked for, and then defined again without the array. -/
def ofRedefined : Assembler :=
  (replay [.add ⟨[.scalar .long, .array (.conformant 0 (.scalar .short))], none⟩,
    .request (.parameters [(0, .struct 0)]), .define 0 ⟨[.scalar .long], none⟩] (new .little 0)).2

-- the reference, at 20, tells of an array at the end, and the definition, at 32, has none
example : (do
    let i ← Interface.ofAssembler ofRedefined
    let d ← i.vector.structDefinition 32
    return (i.vector.bytes[20]?, d.trailing)) = .ok (some (Opcode.struct .conformant).toByte, none) := by
  decide +kernel

end Assembler

end Ndr
