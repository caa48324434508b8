import Ndr.Proofs.Assembly.Finish

/-!
The vector of an assembly is read back whole: at the offsets that were handed out, the parameter lists
and streams that were asked for, and the definition of every struct that is referred to from there.
-/

namespace Ndr

namespace Assembler

variable {i : Interface} {a b b' : Assembler} {f g : StructId → Option Nat} {r r' : Record}
  {base start n : Nat} {id : StructId}

/-! ### Structs -/

/-- Where the array at the end of a struct is defined: its last field is the array, or a struct with
the array at its end. -/
inductive TrailsAt (i : Interface) (a : Assembler) : StructSpec → StructDefinition → Nat → Prop where
  | array {s : StructSpec} {d : StructDefinition} {array : ArraySpec} {last : Descriptor} {t : Nat}
      (hlast : s.lastField? = some (.array array)) (hkind : array.kind.isConformant)
      (hfield : (d.fields.filter Descriptor.isField).getLast? = some last)
      (ht : last.form.arrayAt? = some t) : TrailsAt i a s d t
  | struct {s inner : StructSpec} {d d' : StructDefinition} {id : StructId} {n t : Nat}
      (hlast : s.lastField? = some (.struct id)) (hinner : a.spec? id = some inner)
      (hoffset : a.offset? id = some n) (hd : i.vector.structDefinition n = .ok d')
      (ht : TrailsAt i a inner d' t) : TrailsAt i a s d t

/-- A definition spells a struct, and leads to the array at its end. -/
structure DefinesWhole (i : Interface) (a : Assembler) (s : StructSpec) (n : Nat)
    (d : StructDefinition) : Prop extends DefinedAs i a s n d where
  fixed : d.trailing = none ↔ ∀ array, ¬s.EndsWith a array
  trails : ∀ t, d.trailing = some t → TrailsAt i a s d t

/-- Markers are read as markers, and have no definition. -/
theorem spells_marker {m : Modifiers} {t : TypeSpec} {d : Descriptor} (h : Spells i a m t d)
    (ht : t.isMarker) : d.isField = false ∧ d.form.arrayAt? = none := by
  cases h with
  | align => exact ⟨rfl, rfl⟩
  | _ => exact absurd ht (by simp [TypeSpec.isMarker])

theorem spells_array {m : Modifiers} {s : ArraySpec} {d : Descriptor} (h : Spells i a m (.array s) d) :
    d.isField ∧ ∃ t, d.form.arrayAt? = some t := by
  cases h with
  | array => exact ⟨rfl, _, rfl⟩

theorem lastArray_of_markers {specs : List TypeSpec} {ds : List Descriptor}
    (h : List.Forall₂ (Spells i a {}) specs ds) (hspecs : specs.filter (!·.isMarker) = [])
    (last : Option Nat) : ds.filter Descriptor.isField = [] ∧ lastArray last ds = last := by
  induction h with
  | nil => exact ⟨rfl, rfl⟩
  | @cons spec d specs ds hd _ ih =>
    cases hm : spec.isMarker with
    | false => simp [hm] at hspecs
    | true =>
      obtain ⟨hfield, hnone⟩ := spells_marker hd hm
      obtain ⟨ih1, ih2⟩ := ih (by simpa [hm] using hspecs)
      refine ⟨by rw [List.filter_cons, hfield]; exact ih1, ?_⟩
      rw [lastArray, List.foldl_cons, hnone, Option.none_or]
      exact ih2

/-- The last array among the fields is the last field, where that is an array. -/
theorem lastArray_of_lastField {specs : List TypeSpec} {ds : List Descriptor} {s : ArraySpec}
    (h : List.Forall₂ (Spells i a {}) specs ds)
    (hlast : (specs.filter (!·.isMarker)).getLast? = some (.array s)) (before : Option Nat) :
    ∃ last, (ds.filter Descriptor.isField).getLast? = some last ∧
      last.form.arrayAt? = lastArray before ds := by
  induction h generalizing before with
  | nil => simp at hlast
  | @cons spec d specs ds hd hds ih =>
    -- whether the last field is among the others
    by_cases hrest : specs.filter (!·.isMarker) = []
    · obtain ⟨hnone, hsame⟩ := lastArray_of_markers hds hrest (d.form.arrayAt?.or before)
      have hspec : spec = .array s := by
        rw [List.filter_cons, hrest] at hlast
        split at hlast
        · exact Option.some.inj hlast
        · simp at hlast
      subst hspec
      obtain ⟨hfield, t, ht⟩ := spells_array hd
      refine ⟨d, by rw [List.filter_cons, if_pos hfield, hnone]; rfl, ?_⟩
      rw [lastArray, List.foldl_cons]
      exact (by rw [ht]; rfl : d.form.arrayAt? = d.form.arrayAt?.or before).trans hsame.symm
    · have hlast' : (specs.filter (!·.isMarker)).getLast? = some (.array s) := by
        rw [List.filter_cons] at hlast
        split at hlast
        · rwa [List.getLast?_cons_of_ne_nil hrest] at hlast
        · exact hlast
      obtain ⟨last, hfield, ht⟩ := ih hlast' (d.form.arrayAt?.or before)
      refine ⟨last, ?_, ht⟩
      have hne : ds.filter Descriptor.isField ≠ [] := fun h => by simp [h] at hfield
      rw [List.filter_cons]
      split
      · rw [List.getLast?_cons_of_ne_nil hne]
        exact hfield
      · exact hfield

/-- The fields of a struct that refers to a struct have its offset. -/
theorem offset_of_field {specs : List TypeSpec} {ds : List Descriptor}
    (h : List.Forall₂ (Spells i a {}) specs ds) (hid : .struct id ∈ specs) :
    ∃ s n, a.spec? id = some s ∧ a.offset? id = some n := by
  induction h with
  | nil => exact absurd hid List.not_mem_nil
  | @cons spec d specs ds hd _ ih =>
    rcases List.mem_cons.1 hid with rfl | hid
    · cases hd with
      | struct hs _ hoffset => exact ⟨_, _, hs, hoffset⟩
    · exact ih hid

theorem mem_of_lastField {s : StructSpec} {t : TypeSpec} (h : s.lastField? = some t) :
    t ∈ s.fields := (List.mem_filter.1 (List.mem_of_getLast? h)).1

/-- The place that is filled in for the array at the end of a struct is where it is defined. -/
theorem trailsAt_of_trailingOffset (hs : Settled i a a)
    (hplain : ∀ id s, a.spec? id = some s → s.Plain) {fuel v : Nat} {s : StructSpec}
    {array : ArraySpec} {d : StructDefinition} (e : a.trailingOffset fuel id = .ok v)
    (hspec : a.spec? id = some s) (hoffset : a.offset? id = some n)
    (hd : i.vector.structDefinition n = .ok d) (hends : s.EndsWith a array) : TrailsAt i a s d v := by
  induction fuel generalizing id n s d with
  | zero => exact absurd e (by simp [trailingOffset])
  | succ fuel ih =>
    obtain ⟨s', hspec', hdefined⟩ := hs id n hoffset
    obtain rfl := Option.some.inj (hspec.symm.trans hspec')
    obtain ⟨t, hdefines, ht⟩ := hdefined (hplain id s hspec)
    rw [trailingOffset_succ] at e
    cases hdefines with
    | fixed _ hnot => exact absurd hends (hnot array)
    | laid hd' hlast hkind _ harray =>
      obtain rfl := Except.ok.inj (hd.symm.trans hd'.read)
      rw [ht.resolve_left (by simp)] at e
      obtain rfl := Except.ok.inj e
      obtain ⟨last, hfield, hlast'⟩ := lastArray_of_lastField hd'.fields hlast none
      exact .array hlast hkind hfield (hlast'.trans harray)
    | @through _ array' inner w hd' hlast hends' _ _ =>
      obtain rfl := Except.ok.inj (hd.symm.trans hd'.read)
      rw [ht.resolve_left (by simp)] at e
      obtain ⟨s', m, hinner, hm⟩ := offset_of_field hd'.fields (mem_of_lastField hlast)
      obtain ⟨s'', hinner', hdefined'⟩ := hs inner m hm
      obtain rfl := Option.some.inj (hinner.symm.trans hinner')
      obtain ⟨_, hdefines', -⟩ := hdefined' (hplain inner s' hinner)
      obtain ⟨d', hd''⟩ := hdefines'.definedAs
      refine .struct hlast hinner hm hd''.read (ih e hinner hm hd''.read ?_)
      rcases hends with ⟨h, -⟩ | ⟨h, hi', he⟩
      · exact absurd (hlast.symm.trans h) (by simp)
      · obtain rfl := TypeSpec.struct.inj (Option.some.inj (hlast.symm.trans h))
        obtain rfl := Option.some.inj (hinner.symm.trans hi')
        exact he

/-- A struct that has an offset is defined there. -/
theorem definesWhole (hs : Settled i a a) (hplain : ∀ id s, a.spec? id = some s → s.Plain)
    (hoffset : a.offset? id = some n) : ∃ s d, a.spec? id = some s ∧ DefinesWhole i a s n d := by
  obtain ⟨s, hspec, hdefined⟩ := hs id n hoffset
  obtain ⟨t, hdefines, ht⟩ := hdefined (hplain id s hspec)
  cases hdefines with
  | @fixed d hd hnot hnone =>
    exact ⟨s, d, hspec, hd, ⟨fun _ => hnot, fun _ => hnone⟩, fun t ht => absurd (hnone.symm.trans ht) (by simp)⟩
  | @laid d array t hd hlast hkind htrailing harray =>
    refine ⟨s, d, hspec, hd, ⟨fun h => absurd (htrailing.symm.trans h) (by simp),
      fun h => absurd (.array hlast hkind) (h array)⟩, fun t' ht' => ?_⟩
    obtain rfl := Option.some.inj (htrailing.symm.trans ht')
    obtain ⟨last, hfield, hlast'⟩ := lastArray_of_lastField hd.fields hlast none
    exact .array hlast hkind hfield (hlast'.trans harray)
  | @through d array inner v hd hlast hends hv htrailing =>
    refine ⟨s, d, hspec, hd, ⟨fun h => absurd (htrailing.symm.trans h) (by simp),
      fun h => absurd hends (h array)⟩, fun t' ht' => ?_⟩
    obtain rfl := Option.some.inj (htrailing.symm.trans ht')
    have htail : a.trailingOffset (a.structs.size + 2) id = .ok v := by
      rw [trailingOffset_succ, ht.resolve_left (by simp)]
      exact tail?_eq_some.1 hv
    exact trailsAt_of_trailingOffset hs hplain htail hspec hoffset hd.read hends

/-! ### Parameter lists -/

theorem adds_writeParameters (ps : List (UInt32 × TypeSpec)) (r : Record) (hr : (r.sheet f).Sound) :
    Adds f g (fun w => Record.Continues f r w) (writeParameters ps r) := by
  induction ps generalizing r with
  | nil => exact .pure .refl
  | cons p ps ih =>
    have hword := Record.continues_word (f := f) (r := r) p.1.toNat
    refine (writeAdds_write _ p.2 _ (hword.sound hr)).bind fun w hc => ?_
    have hc' := (hword.trans hc).trans (Record.continues_op .endOfList)
    exact (ih _ (hc'.sound hr)).mono fun _ h => hc'.trans h

theorem adds_parameters (ps : List (UInt32 × TypeSpec)) :
    Adds f g (fun _ => True) (parameters ps) := by
  refine adds_record.bind fun r hr => ?_
  have hword := Record.continues_word (f := f) (r := r) ps.length
  exact (adds_writeParameters ps _ (hword.sound hr.1)).bind fun w hc =>
    adds_emit (hc.sound (hword.sound hr.1))

theorem adds_stream (t : TypeSpec) : Adds f g (fun _ => True) (stream t) :=
  adds_emitStream (writeAdds_write _) t

/-- A parameter is read with its index, and its descriptor spells its type. -/
def SpellsParameter (i : Interface) (a : Assembler) (p : UInt32 × TypeSpec) (q : Parameter) : Prop :=
  q.index = p.1.toNat ∧ Spells i a {} p.2 q.descriptor

/-- Parameters that were written are read one after the other. -/
theorem writeParameters_reads (hi : i.Small) {ps : List (UInt32 × TypeSpec)}
    (e : writeParameters ps r b = .ok r' b') (hp : ∀ p ∈ ps, p.2.Plain)
    (hb : Started a.offset? a.tail? b) (hl : Laid i a b')
    (hat : Record.At i.vector a.offset? base start r') (hbegun : Record.Begun a.offset? start r) :
    r.bytes.size + ps.length ≤ r'.bytes.size ∧ ∃ qs, List.Forall₂ (SpellsParameter i a) ps qs ∧
      repeatM ps.length i.vector.readParameter (base + r.bytes.size) =
        .ok qs (base + r'.bytes.size) := by
  induction ps generalizing r b with
  | nil =>
    obtain ⟨rfl, rfl⟩ := pure_eq_ok.1 e
    exact ⟨Nat.le_refl _, [], .nil, rfl⟩
  | cons p ps ih =>
    obtain ⟨index, spec⟩ := p
    obtain ⟨⟨r1, definition⟩, b1, e1, e2⟩ := bind_eq_ok.1 e
    have c1 := hbegun.word index.toNat
    obtain ⟨hg1, hc1⟩ := (writeAdds_write (maxNesting + 1) spec _ c1.sound).ok e1
    have c2 := c1.mono hc1
    have c3 := c2.op .endOfList
    obtain ⟨hg2, hc2⟩ := (adds_writeParameters (g := a.tail?) ps _ c3.sound).ok e2
    have h3 := hat.back hc2 c3
    have h2 := h3.back (Record.continues_op _) c2
    have h1 := h2.back hc1 c1
    have hreads := readsBack_write hi (maxNesting + 1) e1 (hp _ List.mem_cons_self) hb
      (hl.back hg2.toLater) h2 c1
    obtain ⟨hsize, qs, hqs, hrest⟩ := ih e2 (fun q hq => hp q (List.mem_cons_of_mem _ hq))
      (hb.mono hg1.toLater) c3
    obtain ⟨d, hd, -, hread⟩ := hreads.descriptor h2
    have hlt := hreads.size_lt
    have hword := (Record.continues_word (f := a.offset?) (r := r) index.toNat).size_le
    have hend := (Record.continues_op (f := a.offset?) (r := r1) .endOfList).size_le
    refine ⟨by rw [List.length_cons]; omega, ⟨index.toNat, d⟩ :: qs, .cons ⟨rfl, hd⟩ hqs, ?_⟩
    rw [List.length_cons, repeatM_succ]
    exact bind_eq_ok.2 ⟨_, _, bind_eq_ok.2 ⟨_, _, Record.readNat_at index.toNat_lt h1 hbegun,
      bind_eq_ok.2 ⟨_, _, rfl, bind_eq_ok.2 ⟨_, _, hread, bind_eq_ok.2 ⟨_, _, expectEnd_at h3 c2,
        rfl⟩⟩⟩⟩, map_eq_ok.2 ⟨_, hrest, rfl⟩⟩

/-! ### Requests -/

/-- What an assembler is asked to lay down. -/
inductive Request where
  | parameters (ps : List (UInt32 × TypeSpec))
  | stream (t : TypeSpec)

/-- What was asked for is spelled out. -/
def Request.Plain : Request → Prop
  | .parameters ps => ∀ p ∈ ps, p.2.Plain
  | .stream t => t.Plain

/-- What was asked for is read at an offset. -/
def Request.ReadAt (i : Interface) (a : Assembler) (n : Nat) : Request → Prop
  | .parameters ps => ∃ qs, i.vector.parameters n = .ok qs ∧ List.Forall₂ (SpellsParameter i a) ps qs
  | .stream t => ∃ d, i.vector.stream n = .ok d ∧ Spells i a {} t d

theorem parameters_reads (hi : i.Small) {ps : List (UInt32 × TypeSpec)}
    (e : parameters ps b = .ok n b') (hp : ∀ p ∈ ps, p.2.Plain) (hb : Started a.offset? a.tail? b)
    (hl : Laid i a b') : Request.ReadAt i a n (.parameters ps) := by
  obtain ⟨_, _, e0, e⟩ := bind_eq_ok.1 e
  obtain ⟨rfl, rfl⟩ := record_eq_ok.1 e0
  obtain ⟨r1, b1, e1, e2⟩ := bind_eq_ok.1 e
  have c0 : Record.Begun a.offset? 0 { order := b.order } := ⟨sound_record, Nat.zero_le _⟩
  have c1 := c0.word ps.length
  obtain ⟨hg, hc⟩ := (adds_writeParameters (g := a.tail?) ps _ c1.sound).ok e1
  obtain ⟨rfl, rfl⟩ := emit_eq_ok.1 e2
  have hs := hc.sound c1.sound
  have hat := hl.at_append (hb.mono hg.toLater) hs (hc.order.trans hg.order.symm)
  obtain ⟨hsize, qs, hqs, hread⟩ := writeParameters_reads hi e1 hp hb
    (hl.back (grown_append hs).toLater) hat c1
  have hcount : ps.length < 2 ^ 32 := by
    have := hat.fits
    have := hi.vector
    omega
  have hfirst := Record.readNat_at hcount (hat.back hc c1) c0
  rw [show (fill b1.bytes).size + ({ order := b.order } : Record).bytes.size = (fill b1.bytes).size
    from rfl] at hfirst
  exact ⟨qs, TypeVector.readAt_eq_ok.2 ⟨_, bind_eq_ok.2 ⟨_, _, hfirst, hread⟩⟩, hqs⟩

/-- An assembler, and the offsets that it gave out for what it was asked to lay down, the last one
first. A struct is defined once, and what a request that failed laid down stays. -/
inductive Assembled : Assembler → List (Nat × Request) → Prop where
  | new (order : ByteOrder) (flags : UInt32) : Assembled (new order flags) []
  | declare {b : Assembler} {log : List (Nat × Request)} (h : Assembled b log) :
      Assembled b.declare log
  | define {b : Assembler} {log : List (Nat × Request)} {id : StructId} {s : StructSpec}
      (h : Assembled b log) (hid : b.spec? id = none) : Assembled (b.define id s) log
  | parameters {b b' : Assembler} {log : List (Nat × Request)} {ps : List (UInt32 × TypeSpec)} {n : Nat}
      (h : Assembled b log) (e : parameters ps b = .ok n b') :
      Assembled b' ((n, .parameters ps) :: log)
  | stream {b b' : Assembler} {log : List (Nat × Request)} {t : TypeSpec} {n : Nat}
      (h : Assembled b log) (e : stream t b = .ok n b') :
      Assembled b' ((n, .stream t) :: log)
  | parametersFailed {b b' : Assembler} {log : List (Nat × Request)} {ps : List (UInt32 × TypeSpec)}
      {fault : Fault} (h : Assembled b log) (e : parameters ps b = .error fault b') : Assembled b' log
  | streamFailed {b b' : Assembler} {log : List (Nat × Request)} {t : TypeSpec} {fault : Fault}
      (h : Assembled b log) (e : stream t b = .error fault b') : Assembled b' log

/-- What holds of an assembler at every point. -/
structure Standing (b : Assembler) : Prop where
  later : ∃ order flags, ∀ f g, Later f g (new order flags) b
  offsets : ∀ id, b.offset? id = none
  trailing : ∀ id, b.trailing? id = none

theorem Standing.mono (h : Standing b) (hg : ∀ f g, Grown f g b b') : Standing b' where
  later := by
    obtain ⟨order, flags, hl⟩ := h.later
    exact ⟨order, flags, fun f g => (hl f g).trans (hg f g).toLater⟩
  offsets id := (hg (fun _ => none) fun _ => none).offset?_eq.trans (h.offsets id)
  trailing id := (hg (fun _ => none) fun _ => none).trailing?_eq.trans (h.trailing id)

theorem Standing.started (h : Standing b) : Started f g b := by
  obtain ⟨order, flags, hl⟩ := h.later
  exact started_new.mono (hl f g)

theorem Standing.inRange (h : Standing b) : InRange b :=
  ⟨fun id n hn => absurd ((h.offsets id).symm.trans hn) (by simp),
    fun id t ht => absurd ((h.trailing id).symm.trans ht) (by simp)⟩

theorem standing_new (order : ByteOrder) (flags : UInt32) : Standing (new order flags) :=
  ⟨⟨order, flags, fun _ _ => .refl⟩, fun _ => rfl, fun _ => rfl⟩

/-! ### Declaring and defining structs -/

theorem getElem?_declare_bind {β : Type} {q : StructEntry → Option β} (hq : q {} = none) :
    (b.declare.structs[id]?).bind q = (b.structs[id]?).bind q := by
  show ((b.structs.push {})[id]?).bind q = _
  rw [Array.getElem?_push]
  split
  · rename_i hid
    rw [hid, Array.getElem?_eq_none (Nat.le_refl _)]
    exact hq
  · rfl

theorem later_declare : Later f g b b.declare :=
  .of_eq rfl rfl rfl rfl rfl rfl fun _ _ hs => (getElem?_declare_bind rfl).trans hs

theorem spec?_define_of_ne {s : StructSpec} {j : StructId} (hj : id ≠ j) :
    (b.define id s).spec? j = b.spec? j :=
  getElem?_modify_bind (F := fun e => { e with spec := some s }) fun h => absurd h hj

/-- A struct is defined once. -/
theorem later_define {s : StructSpec} (hid : b.spec? id = none) : Later f g b (b.define id s) :=
  .of_eq rfl rfl rfl rfl rfl rfl fun j s' hs => by
    have hj : id ≠ j := by
      rintro rfl
      exact absurd (hid.symm.trans hs) (by simp)
    exact (spec?_define_of_ne hj).trans hs

theorem standing_declare (h : Standing b) : Standing b.declare := by
  obtain ⟨order, flags, hl⟩ := h.later
  exact ⟨⟨order, flags, fun f g => (hl f g).trans later_declare⟩,
    fun id => (getElem?_declare_bind rfl).trans (h.offsets id),
    fun id => (getElem?_declare_bind rfl).trans (h.trailing id)⟩

/-- A struct may also be defined again. -/
theorem standing_define (h : Standing b) (id : StructId) (s : StructSpec) :
    Standing (b.define id s) := by
  obtain ⟨order, flags, hl⟩ := h.later
  have hsame : ∀ {β : Type} {q : StructEntry → Option β} {j : StructId},
      (∀ e, q { e with spec := some s } = q e) →
      ((b.define id s).structs[j]?).bind q = (b.structs[j]?).bind q := fun hq =>
    getElem?_modify_bind (F := fun e => { e with spec := some s }) fun _ => hq
  refine ⟨⟨order, flags, fun f g => ?_⟩, fun j => (hsame fun _ => rfl).trans (h.offsets j),
    fun j => (hsame fun _ => rfl).trans (h.trailing j)⟩
  -- nothing was known at first
  exact ⟨(hl f g).order, (hl f g).flags, (hl f g).sheet, (hl f g).sound, (hl f g).layout,
    fun j s hs => absurd hs (by simp [spec?, new])⟩

variable {log : List (Nat × Request)}

/-- What is kept by an action that fails. -/
theorem Adds.grown_of_error {α : Type} {P : α → Prop} {x : Assemble α} {fault : Fault}
    (h : ∀ f g, Adds f g P x) (e : x b = .error fault b') : ∀ f g, Grown f g b b' := by
  intro f g
  have := h f g b b .refl
  rwa [e] at this

theorem standing_of_assembled (h : Assembled b log) : Standing b := by
  induction h with
  | new order flags => exact standing_new order flags
  | declare _ ih => exact standing_declare ih
  | define _ _ ih => exact standing_define ih _ _
  | parameters _ e ih => exact ih.mono fun f g => ((adds_parameters _).ok e).1
  | stream _ e ih => exact ih.mono fun f g => ((adds_stream _).ok e).1
  | parametersFailed _ e ih => exact ih.mono (Adds.grown_of_error (fun _ _ => adds_parameters _) e)
  | streamFailed _ e ih => exact ih.mono (Adds.grown_of_error (fun _ _ => adds_stream _) e)

/-- Whatever was asked for is read, once all that was laid down stands in a vector. -/
theorem readAt_of_assembled (h : Assembled b log) (hi : i.Small) (hl : Laid i a b) :
    ∀ p ∈ log, p.2.Plain → p.2.ReadAt i a p.1 := by
  induction h with
  | new => exact fun p hp => absurd hp List.not_mem_nil
  | declare _ ih => exact ih (hl.back later_declare)
  | define _ hid ih => exact ih (hl.back (later_define hid))
  | parameters h e ih =>
    have hb := standing_of_assembled h
    intro p hp
    rcases List.mem_cons.1 hp with rfl | hp
    · exact fun hps => parameters_reads hi e hps hb.started hl
    · exact ih (hl.back ((adds_parameters _).ok e).1.toLater) p hp
  | stream h e ih =>
    have hb := standing_of_assembled h
    intro p hp
    rcases List.mem_cons.1 hp with rfl | hp
    · exact fun ht => (emitStream_reads (readsBack_write hi _) (writeAdds_write _) hi e ht hb.started hl).2.1
    · exact ih (hl.back ((adds_stream _).ok e).1.toLater) p hp
  | parametersFailed _ e ih =>
    exact ih (hl.back (Adds.grown_of_error (fun _ _ => adds_parameters _) e _ _).toLater)
  | streamFailed _ e ih =>
    exact ih (hl.back (Adds.grown_of_error (fun _ _ => adds_stream _) e _ _).toLater)

/-- What an interface has of an assembler that is finished: all that is laid down, and at the offset of each
struct its definition. -/
theorem Standing.finished (hb : Standing b) (e : Interface.ofAssembler b = .ok i) (hi : i.Small) :
    ∃ a, Settles b a ∧ InRange a ∧ i.vector.size = a.bytes.size ∧ Laid i a a ∧ Settled i a a := by
  obtain ⟨order, flags, hnew⟩ := hb.later
  obtain ⟨a, hsettles, hrange, hsize, hl⟩ := laid_of_ofAssembler hnew hb.inRange e hi
  refine ⟨a, hsettles, hrange, hsize, hl, ?_⟩
  exact hsettles.settled hi
    (fun inner v hv => hsize ▸ trailingOffset_lt hrange (tail?_eq_some.1 hv)) hb.started hl
    fun id n hn => absurd ((hb.offsets id).symm.trans hn) (by simp)

/-- What an interface has of an assembly: the types of structs, at the offset of each struct that is
referred to its definition, and at the offsets that were given out what was asked for. -/
theorem settled_of_ofAssembler (h : Assembled b log) (e : Interface.ofAssembler b = .ok i)
    (hi : i.Small) :
    ∃ a : Assembler, (∀ id, a.spec? id = b.spec? id) ∧ Settled i a a ∧
      ∀ p ∈ log, p.2.Plain → p.2.ReadAt i a p.1 := by
  have hb := standing_of_assembled h
  obtain ⟨a, hsettles, -, -, hl, hsettled⟩ := hb.finished e hi
  exact ⟨a, fun id => hsettles.spec?_eq, hsettled,
    readAt_of_assembled h hi (hl.back hsettles.later)⟩

/-- **What an assembler was asked for is read back from its interface.** Each parameter list and each
stream is at the offset that was given out for it, and the definition of every struct that is referred
to is at the offset of the struct. -/
theorem spells_of_ofAssembler (h : Assembled b log) (e : Interface.ofAssembler b = .ok i)
    (hi : i.Small) (hstructs : ∀ id s, b.spec? id = some s → s.Plain)
    (hlog : ∀ p ∈ log, p.2.Plain) :
    ∃ a : Assembler, (∀ id, a.spec? id = b.spec? id) ∧ (∀ p ∈ log, p.2.ReadAt i a p.1) ∧
      ∀ id n, a.offset? id = some n → ∃ s d, b.spec? id = some s ∧ DefinesWhole i a s n d := by
  obtain ⟨a, hspec, hsettled, hread⟩ := settled_of_ofAssembler h e hi
  refine ⟨a, hspec, fun p hp => hread p hp (hlog p hp), fun id n hn => ?_⟩
  obtain ⟨s, d, hs, hd⟩ := definesWhole hsettled
    (fun id s hs => hstructs id s ((hspec id).symm.trans hs)) hn
  exact ⟨s, d, (hspec id).symm.trans hs, hd⟩

/-- An assembler of tables: a table is a count and as many lists, and a list a number and a pointer
to the next one. -/
def ofTable : Assembler :=
  ((((new .little 0).declare).define 0 ⟨[.scalar .long, .pointer .unique (.struct 0)], none⟩).declare).define
    1 ⟨[.scalar .long, .align 8, .array (.conformant 0 (.struct 0))], none⟩

/-- What is made for a table by a pointer. -/
def tableInterface? : Option Interface :=
  match parameters [(3, .pointer .unique (.struct 1))] ofTable with
  | .ok _ b => (Interface.ofAssembler b).toOption
  | .error .. => none

/-- A table by a pointer is read back. -/
theorem spells_table : ∃ (b a : Assembler) (n : Nat) (i : Interface),
    Assembled b [(n, .parameters [(3, .pointer .unique (.struct 1))])] ∧
      Interface.ofAssembler b = .ok i ∧ i.Small ∧ (∀ id s, b.spec? id = some s → s.Plain) ∧
      (∀ id, a.spec? id = b.spec? id) ∧
      (∀ p ∈ [(n, Request.parameters [(3, .pointer .unique (.struct 1))])],
        p.2.Plain ∧ p.2.ReadAt i a p.1) ∧
      ∀ id n, a.offset? id = some n → ∃ s d, b.spec? id = some s ∧ DefinesWhole i a s n d := by
  have hleaf : ∀ t : TypeSpec, (∀ op, t ≠ .opcode op) → (∀ routine inner, t ≠ .freeRep routine inner) →
      (∀ s, t ≠ .array s) → t.parts = [] → t.Plain := fun t h1 h2 h3 h4 =>
    .intro h1 (fun _ _ h => absurd h (h2 _ _)) (fun _ h => absurd h (h3 _)) (by simp [h4])
  have hstruct : ∀ id, (TypeSpec.struct id).Plain := fun id =>
    hleaf _ (by simp) (by simp) (by simp) rfl
  have hpointer : ∀ id, (TypeSpec.pointer .unique (.struct id)).Plain := fun id =>
    .intro (by simp) (by simp) (by simp) (by simp [TypeSpec.parts, hstruct])
  have harray : (TypeSpec.array (.conformant 0 (.struct 0))).Plain := by
    refine .intro (by simp) (by simp) ?_ (by simp [TypeSpec.parts, ArraySpec.conformant, hstruct])
    rintro _ ⟨⟩
    simp only [ArraySpec.conformant, List.append_nil, List.mem_singleton]
    rintro _ rfl
    exact ⟨⟨by decide, by decide⟩, ⟨by decide, by decide⟩⟩
  have hlong : (TypeSpec.scalar .long).Plain := hleaf _ (by simp) (by simp) (by simp) rfl
  have halign : (TypeSpec.align 8).Plain := hleaf _ (by simp) (by simp) (by simp) rfl
  obtain ⟨n, b, e⟩ : ∃ n b, parameters [(3, .pointer .unique (.struct 1))] ofTable = .ok n b :=
    ⟨_, _, rfl⟩
  have hstructs : ∀ id s, b.spec? id = some s → s.Plain := by
    intro id s hs
    rw [spec?_eq_known, ((adds_parameters (f := fun _ => none) (g := fun _ => none) _).ok e).1.known,
      ← spec?_eq_known] at hs
    rcases id with _ | _ | id
    · obtain rfl : _ = s := Option.some.inj hs
      simp only [StructSpec.Plain, List.mem_cons, List.not_mem_nil, or_false, forall_eq_or_imp,
        forall_eq]
      exact ⟨hlong, hpointer 0⟩
    · obtain rfl : _ = s := Option.some.inj hs
      simp only [StructSpec.Plain, List.mem_cons, List.not_mem_nil, or_false, forall_eq_or_imp,
        forall_eq]
      exact ⟨hlong, halign, harray⟩
    · exact absurd hs (by simp [spec?, ofTable, define, declare, new])
  have hsizes : (tableInterface?.map fun i => (i.vector.size, i.layout.entries.size)) =
      some (137, 6) := by
    decide +kernel
  obtain ⟨i, hi, hsizes⟩ := Option.map_eq_some_iff.1 hsizes
  rw [tableInterface?, e] at hi
  change (Interface.ofAssembler b).toOption = some i at hi
  obtain ⟨h1, h2⟩ := Prod.mk.inj hsizes
  have hi : Interface.ofAssembler b = .ok i := by
    cases h : Interface.ofAssembler b with
    | ok j => rw [h] at hi; exact congrArg _ (Option.some.inj hi)
    | error => rw [h] at hi; exact absurd hi (by simp [Except.toOption])
  have hsmall : i.Small := ⟨by rw [h1]; decide, by rw [h2]; decide⟩
  have hb : Assembled b [(n, .parameters [(3, .pointer .unique (.struct 1))])] :=
    .parameters (.define (.declare (.define (.declare (.new .little 0)) rfl)) rfl) e
  have hlog : ∀ p ∈ [(n, Request.parameters [(3, .pointer .unique (.struct 1))])], p.2.Plain := by
    simp only [List.mem_singleton, forall_eq, Request.Plain]
    exact hpointer 1
  obtain ⟨a, hspec, hread, hdefined⟩ := spells_of_ofAssembler hb hi hsmall hstructs hlog
  exact ⟨b, a, n, i, hb, hi, hsmall, hstructs, hspec, fun p hp => ⟨hlog p hp, hread p hp⟩, hdefined⟩

end Assembler

end Ndr
