import Ndr.Proofs.Assembly.Descriptor

/-!
The definitions of structs: each is laid down with its fields, and with the place of the array at
its end, which is known at once or found once all structs are laid down.
-/

namespace Ndr

/-! ### Bytes that are replaced -/

theorem size_overwrite (bytes : Array UInt8) (start : Nat) (more : List UInt8) :
    (overwrite bytes start more).size = bytes.size := by
  induction more generalizing bytes start with
  | nil => rfl
  | cons b more ih => rw [overwrite, ih, Array.size_setIfInBounds]

theorem getElem?_overwrite_of_outside {bytes : Array UInt8} {start k : Nat} {more : List UInt8}
    (h : k < start ∨ start + more.length ≤ k) : (overwrite bytes start more)[k]? = bytes[k]? := by
  induction more generalizing bytes start with
  | nil => rfl
  | cons b more ih =>
    rw [List.length_cons] at h
    rw [overwrite, ih (by omega), Array.getElem?_setIfInBounds_ne (by omega)]

theorem getElem?_overwrite {bytes : Array UInt8} {start k : Nat} {more : List UInt8}
    (hk : k < more.length) (hsize : start + more.length ≤ bytes.size) :
    (overwrite bytes start more)[start + k]? = more[k]? := by
  induction more generalizing bytes start k with
  | nil => exact absurd hk (by simp)
  | cons b more ih =>
    rw [List.length_cons] at hk hsize
    cases k with
    | zero =>
      rw [overwrite, getElem?_overwrite_of_outside (by omega), Nat.add_zero,
        Array.getElem?_setIfInBounds_self_of_lt (by omega)]
      rfl
    | succ k =>
      rw [overwrite, show start + (k + 1) = start + 1 + k by omega, List.getElem?_cons_succ]
      exact ih (by omega) (by rw [Array.size_setIfInBounds]; omega)

namespace Assembler

variable {i : Interface} {a b b' : Assembler} {f g : StructId → Option Nat} {r r' : Record}
  {base start n : Nat} {id : StructId}

/-! ### Definitions of arrays -/

theorem emit_lt (hr : 0 < r.bytes.size) (e : emit r b = .ok n b') : n < b'.bytes.size := by
  obtain ⟨rfl, rfl⟩ := emit_eq_ok.1 e
  show _ < (fill b.bytes ++ r.bytes).size
  rw [Array.size_append]
  omega

/-- Only arrays have definitions. -/
theorem definition_eq_none {room : Nat} {write : Write} {spec : TypeSpec} {definition : Option Nat}
    (ha : ∀ s, spec ≠ .array s) (hf : ∀ routine inner, spec ≠ .freeRep routine inner)
    (e : writeStep room write spec r b = .ok (r', definition) b') : definition = none := by
  have hdone : ∀ r : Record, Keeps (fun _ : Assembler => True)
      (fun w : Record × Option Nat => w.2 = none) (pure (r, none)) := fun _ => .pure rfl
  have hnone : Keeps (fun _ => True) (fun w => w.2 = none) (writeStep room write spec r) := by
    cases spec with
    | array s => exact absurd rfl (ha s)
    | freeRep routine inner => exact absurd rfl (hf routine inner)
    | struct id =>
      exact (Keeps.ofTrue _).bind fun _ _ => (Keeps.ofTrue _).bind fun _ _ => (Keeps.ofTrue _).bind fun _ _ =>
        (Keeps.ofTrue _).bind fun _ _ => (Keeps.ofTrue _).bind fun _ _ => hdone _
    | nested s =>
      exact (Keeps.ofTrue _).bind fun _ _ => (Keeps.ofTrue _).bind fun _ _ => (Keeps.ofTrue _).bind fun _ _ =>
        (Keeps.ofTrue _).bind fun _ _ => hdone _
    | union | pointer | converted | pipe =>
      exact (Keeps.ofTrue _).bind fun _ _ => (Keeps.ofTrue _).bind fun _ _ => (Keeps.ofTrue _).bind fun _ _ => hdone _
    | align boundary =>
      rcases writeStep_align room r boundary with ⟨_, -, h⟩ | h
      · rw [h]
        exact hdone _
      · rw [h]
        exact (Keeps.ofTrue _).bind fun _ _ => .throw _
    | scalar | range | ignore | context | deletedNodes | void | opcode => exact hdone _
  exact (hnone.ok trivial e).2

/-- The definition of an array lies in the vector. -/
theorem definition_lt {room : Nat} {spec : TypeSpec}
    (e : write room spec r b = .ok (r', some n) b') : n < b'.bytes.size := by
  induction room generalizing spec r with
  | zero => exact absurd e malformed_ne_ok
  | succ room ih =>
    by_cases ha : ∃ s, spec = .array s
    · obtain ⟨s, rfl⟩ := ha
      obtain ⟨_, _, -, e⟩ := bind_eq_ok.1 e
      obtain ⟨_, _, -, e⟩ := bind_eq_ok.1 e
      obtain ⟨_, _, e2, e⟩ := bind_eq_ok.1 e
      obtain ⟨h, rfl⟩ := pure_eq_ok.1 e
      obtain rfl := Option.some.inj (Prod.mk.inj h).2
      unfold emitArray at e2
      obtain ⟨-, e2⟩ := guard_eq_ok.1 e2
      obtain ⟨-, e2⟩ := guard_eq_ok.1 e2
      obtain ⟨_, _, -, e2⟩ := bind_eq_ok.1 e2
      obtain ⟨_, _, -, e2⟩ := bind_eq_ok.1 e2
      exact emit_lt (by rw [Record.op, Record.size_byte]; omega) e2
    by_cases hf : ∃ routine inner, spec = .freeRep routine inner
    · obtain ⟨routine, inner, rfl⟩ := hf
      exact ih e
    exact absurd (definition_eq_none (not_exists.1 ha)
      (fun routine inner h => hf ⟨routine, inner, h⟩) e) (by simp)

theorem last_lt {room : Nat} {specs : List TypeSpec} {last : Option Nat}
    (hlast : ∀ m, last = some m → m < b.bytes.size) (hr : (r.sheet f).Sound)
    (e : writeFields (write room) specs r last b = .ok (r', some n) b') : n < b'.bytes.size := by
  induction specs generalizing r b last with
  | nil =>
    obtain ⟨h, rfl⟩ := pure_eq_ok.1 e
    exact hlast n (Prod.mk.inj h).2
  | cons spec specs ih =>
    obtain ⟨⟨r1, definition⟩, b1, e1, e2⟩ := bind_eq_ok.1 e
    obtain ⟨hg, hc⟩ := (writeAdds_write (g := f) room spec r hr).ok e1
    refine ih (fun m hm => ?_) (hc.sound hr) e2
    cases definition with
    | some k =>
      obtain rfl := Option.some.inj hm
      exact definition_lt e1
    | none =>
      rw [Option.none_or] at hm
      exact Nat.lt_of_lt_of_le (hlast m hm) hg.sheet.size_le

/-! ### What laying down a struct does -/

/-- The head of the definition of a struct, up to the operand for the array at its end. -/
def structHead (order : ByteOrder) (align : Nat) (props : UInt8) (layout : Nat) : Record :=
  (((((({ order } : Record).byte (UInt8.ofNat align)).byte props).byte filler).byte filler).word
    layout)

/-- How the definition of a struct ends: `array` is the one at its end, and `last` the definition of
the last array among its fields, which are in `r`. -/
inductive Ending (id : StructId) (s : StructSpec) (b : Assembler) (n : Nat) (b' : Assembler) :
    Option ArraySpec → Option Nat → Record → Prop where
  | fixed {last : Option Nat} {r : Record} (e : emit (r.op .endOfList) b = .ok n b') :
      Ending id s b n b' none last r
  | through {array : ArraySpec} {last : Option Nat} {r : Record} {inner : StructId} {c : Assembler}
      (hlast : s.lastField? = some (.struct inner)) (e : emit (r.op .endOfList) b = .ok n c)
      (hb' : b' = { c with
        structs := c.structs.modify id fun e => { e with trailing := some (.through inner) }
        trailingReferences := c.trailingReferences ++ [(n + trailingPlace, inner)] }) :
      Ending id s b n b' (some array) last r
  | laid {array : ArraySpec} {definition : Nat} {r : Record}
      (hlast : ∀ inner, s.lastField? ≠ some (.struct inner))
      (e : emit ({ r with bytes := overwrite r.bytes trailingPlace (r.order.encode 4 definition) }.op
        .endOfList) { b with
          structs := b.structs.modify id fun e => { e with trailing := some (.laid definition) } } =
        .ok n b') : Ending id s b n b' (some array) (some definition) r

/-- A struct that does not end with a struct ends with the last array among its fields. -/
theorem ending_of_last {s : StructSpec} {array : ArraySpec} {last : Option Nat}
    (hlast : ∀ inner, s.lastField? ≠ some (.struct inner)) (e : (match last with
      | none => malformed .trailingArrayMissing
      | some definition => do
        modifyStruct id fun e => { e with trailing := some (.laid definition) }
        let bytes := overwrite r.bytes trailingPlace (r.order.encode 4 definition)
        emit ({ r with bytes }.op .endOfList) : Assemble Nat) b = .ok n b') :
    Ending id s b n b' (some array) last r := by
  cases last with
  | none => exact absurd e malformed_ne_ok
  | some definition =>
    obtain ⟨_, c1, e7, e⟩ := bind_eq_ok.1 e
    obtain rfl := modify_eq_ok.1 e7
    exact .laid hlast e

theorem emitStruct_eq_ok (e : emitStruct id b = .ok n b') :
    ∃ s align props layout array b1 r last b2, b.spec? id = some s ∧
      b.alignOf (maxNesting + 1) (.struct id) = .ok align ∧
      b.propsOf (maxNesting + 1) (.struct id) = .ok props ∧
      b.trailingArray maxNesting s = .ok array ∧ emitLayout s b = .ok layout b1 ∧
      writeFields (write maxNesting) s.fields
        ((structHead b1.order align props layout).word TypeVector.noTrailing) none b1 =
          .ok (r, last) b2 ∧ Ending id s b2 n b' array last r := by
  unfold emitStruct at e
  obtain ⟨_, _, e0, e⟩ := bind_eq_ok.1 e
  obtain ⟨rfl, rfl⟩ := get_eq_ok.1 e0
  obtain ⟨s, _, e1, e⟩ := bind_eq_ok.1 e
  obtain ⟨hs, rfl⟩ := lift_eq_ok.1 e1
  obtain ⟨align, _, e2, e⟩ := bind_eq_ok.1 e
  obtain ⟨halign, rfl⟩ := lift_eq_ok.1 e2
  obtain ⟨props, _, e3, e⟩ := bind_eq_ok.1 e
  obtain ⟨hprops, rfl⟩ := lift_eq_ok.1 e3
  obtain ⟨layout, b1, elayout, e⟩ := bind_eq_ok.1 e
  obtain ⟨_, _, e4, e⟩ := bind_eq_ok.1 e
  obtain ⟨rfl, rfl⟩ := record_eq_ok.1 e4
  obtain ⟨array, _, e5, e⟩ := bind_eq_ok.1 e
  obtain ⟨harray, rfl⟩ := lift_eq_ok.1 e5
  obtain ⟨⟨r, last⟩, b2, efields, e⟩ := bind_eq_ok.1 e
  refine ⟨s, align, props, layout, array, _, r, last, b2, structSpec_eq_ok.1 hs, halign, hprops,
    harray, elayout, efields, ?_⟩
  cases array with
  | none => exact .fixed e
  | some array =>
    simp only [Option.isSome_some, Bool.not_true, Bool.false_eq_true, if_false] at e
    cases hfield : s.lastField? with
    | none =>
      simp only [hfield] at e
      exact ending_of_last (by simp [hfield]) e
    | some t =>
      simp only [hfield] at e
      cases t with
      | struct inner =>
        obtain ⟨offset, c, e6, e⟩ := bind_eq_ok.1 e
        obtain ⟨_, c1, e7, e⟩ := bind_eq_ok.1 e
        obtain rfl := modify_eq_ok.1 e7
        obtain ⟨_, c2, e8, e⟩ := bind_eq_ok.1 e
        obtain rfl := modify_eq_ok.1 e8
        obtain ⟨rfl, rfl⟩ := pure_eq_ok.1 e
        exact .through hfield e6 rfl
      | _ => exact ending_of_last (by simp [hfield]) e

/-! ### Changes of what is known of a struct -/

section

variable {F : StructEntry → StructEntry}

theorem getElem?_modify_bind {β : Type} {q : StructEntry → Option β} {j : StructId}
    (h : id = j → ∀ e, q (F e) = q e) :
    ((b.structs.modify id F)[j]?).bind q = (b.structs[j]?).bind q := by
  rw [Array.getElem?_modify]
  split
  · rename_i hj
    cases b.structs[j]? with
    | none => rfl
    | some e => exact h hj e
  · rfl

/-- A change of neither the bytes nor the types of structs. -/
theorem later_modify (id : StructId) (h : ∀ e, (F e).spec = e.spec) :
    Later f g b { b with structs := b.structs.modify id F } :=
  .of_eq rfl rfl rfl rfl rfl rfl fun j s hs => by
    rwa [spec?, getElem?_modify_bind fun _ => h]

end

/-! ### The record of a struct -/

section

variable {order : ByteOrder} {align layout : Nat} {props : UInt8}

theorem size_structHead : (structHead order align props layout).bytes.size = 8 := by
  rw [structHead, size_word_of_aligned (by simp [Record.byte])]
  simp [Record.byte]

theorem sound_structHead : ((structHead order align props layout).sheet f).Sound :=
  ⟨by simp [Record.sheet, structHead, Record.byte, Record.word],
    by simp [Record.sheet, structHead, Record.byte, Record.word]⟩

theorem size_structHead_word (v : Nat) :
    ((structHead order align props layout).word v).bytes.size = 12 := by
  rw [size_word_of_aligned (by rw [size_structHead]), size_structHead]

/-- The places of a struct are behind its head. -/
theorem place_of_struct {v : Nat}
    (hc : Record.Continues f ((structHead order align props layout).word v) r) :
    ∀ p ∈ (r.sheet f).places, 12 ≤ p.1 := by
  intro p hp
  rcases hc.sheet.added p hp with hp | hp
  · simp [Record.sheet, structHead, Record.byte, Record.word] at hp
  · change ((structHead order align props layout).word v).bytes.size ≤ p.1 at hp
    rwa [size_structHead_word] at hp

end

/-- A record with the operand for the array at its end. -/
def patched (r : Record) (definition : Nat) : Record :=
  { r with bytes := overwrite r.bytes trailingPlace (r.order.encode 4 definition) }

theorem size_patched (definition : Nat) : (patched r definition).bytes.size = r.bytes.size :=
  size_overwrite _ _ _

theorem sound_patched {definition : Nat} (h : (r.sheet f).Sound) :
    ((patched r definition).sheet f).Sound :=
  ⟨fun p hp => by
    have := h.words p hp
    change p.1 % 4 = 0 ∧ p.1 + 4 ≤ (patched r definition).bytes.size
    rw [size_patched]
    exact this, h.nodup⟩

/-! ### What laying down a struct adds -/

/-- The places of an assembler after one more for the array at the end of a struct. -/
theorem mem_places_through {c : Assembler} {place : Nat} {inner : StructId} {p : Nat × Option Nat} :
    p ∈ (({ c with trailingReferences := c.trailingReferences ++ [(place, inner)] } : Assembler).sheet
      f g).places ↔ p ∈ (c.sheet f g).places ∨ p = (place, g inner) := by
  simp only [sheet, List.map_append, List.mem_append, List.map_cons, List.map_nil,
    List.mem_singleton]
  tauto

/-- A record behind the bytes, in which the place of the operand for the array at the end of a
struct is to be filled in later. -/
theorem later_through {inner : StructId} {c : Assembler} (e : emit r b = .ok n c)
    (hr : (r.sheet f).Sound) (hplaces : ∀ p ∈ (r.sheet f).places, 12 ≤ p.1)
    (hsize : 12 ≤ r.bytes.size) :
    Later f g b { c with
      trailingReferences := c.trailingReferences ++ [(n + trailingPlace, inner)] } := by
  obtain ⟨rfl, rfl⟩ := emit_eq_ok.1 e
  have hg := grown_append (a := b) (g := g) hr
  have hle := size_le_fill b.bytes
  have htotal : ((b.append r).1.sheet f g).bytes.size = (fill b.bytes).size + r.bytes.size := by
    simp [sheet, append]
  refine ⟨rfl, rfl, ⟨hg.sheet.bytes, fun p hp => mem_places_through.2 (.inl (hg.sheet.kept p hp)),
    fun p hp => ?_⟩, fun hs => ?_, hg.layout, hg.specs⟩
  · rcases mem_places_through.1 hp with hp | rfl
    · exact hg.sheet.added p hp
    · exact .inr (Nat.le_trans hle (Nat.le_add_right _ _))
  · have hsound := hg.sound hs
    refine ⟨fun p hp => ?_, ?_⟩
    · rcases mem_places_through.1 hp with hp | rfl
      · exact hsound.words p hp
      · have hmod := Record.size_fill_mod b.bytes
        change (_ + 8) % 4 = 0 ∧ (_ + 8) + 4 ≤ ((b.append r).1.sheet f g).bytes.size
        rw [htotal]
        omega
    · have hperm : ((({ (b.append r).1 with
          trailingReferences := (b.append r).1.trailingReferences ++
            [((fill b.bytes).size + trailingPlace, inner)] } : Assembler).sheet f g).places.map
          Prod.fst) = ((b.append r).1.sheet f g).places.map Prod.fst ++
            [(fill b.bytes).size + trailingPlace] := by
        simp [sheet]
      rw [hperm]
      refine List.nodup_append.2 ⟨hsound.nodup, by simp, ?_⟩
      -- the place is behind those that were there, and ahead of those of the record
      rintro p hp q hq rfl
      rw [List.mem_singleton] at hq
      subst hq
      obtain ⟨place, hplace, hp⟩ := List.mem_map.1 hp
      rcases mem_places_append.1 hplace with hplace | ⟨k, hk, rfl⟩
      · have := (hs.words place hplace).2
        change place.1 + 4 ≤ b.bytes.size at this
        rw [hp, trailingPlace] at this
        omega
      · have := hplaces k hk
        rw [trailingPlace] at hp
        dsimp only at hp
        omega

/-- What laying down the record of a struct leaves as it was. -/
structure Laying (f g : StructId → Option Nat) (id : StructId) (n : Nat) (b b' : Assembler) : Prop
    where
  later : Later f g b b'
  within : n < b'.bytes.size
  specs : ∀ j, b'.spec? j = b.spec? j
  offsets : ∀ j, b'.offset? j = b.offset? j
  others : ∀ j, id ≠ j → b'.trailing? j = b.trailing? j

/-- A change of what ends a struct. -/
theorem laying_modify (id : StructId) (t : TrailingArray) (b : Assembler) :
    (∀ j, spec? { b with structs := b.structs.modify id fun e => { e with trailing := some t } } j =
      b.spec? j) ∧
    (∀ j, offset? { b with structs := b.structs.modify id fun e => { e with trailing := some t } } j =
      b.offset? j) ∧
    (∀ j, id ≠ j → trailing?
      { b with structs := b.structs.modify id fun e => { e with trailing := some t } } j =
        b.trailing? j) ∧
    ((b.spec? id).isSome → trailing?
      { b with structs := b.structs.modify id fun e => { e with trailing := some t } } id = some t) := by
  refine ⟨fun j => getElem?_modify_bind fun _ _ => rfl, fun j => getElem?_modify_bind fun _ _ => rfl,
    fun j hj => getElem?_modify_bind fun h => absurd h hj, fun h => ?_⟩
  unfold trailing? spec? at *
  rw [Array.getElem?_modify, if_pos rfl]
  cases hb : b.structs[id]? with
  | none => simp [hb] at h
  | some e => rfl

theorem laying_emit (id : StructId) (hr : (r.sheet f).Sound) (hsize : 0 < r.bytes.size) (e : emit r b = .ok n b') :
    Laying f g id n b b' := by
  have hlt := emit_lt hsize e
  obtain ⟨rfl, rfl⟩ := emit_eq_ok.1 e
  exact ⟨(grown_append hr).toLater, hlt, fun _ => rfl, fun _ => rfl, fun _ _ => rfl⟩

theorem laying_ending {s : StructSpec} {array : Option ArraySpec} {last : Option Nat}
    (h : Ending id s b n b' array last r) (hr : (r.sheet f).Sound)
    (hplaces : ∀ p ∈ (r.sheet f).places, 12 ≤ p.1) (hsize : 12 ≤ r.bytes.size) :
    Laying f g id n b b' := by
  have hsize' : 12 ≤ (r.op .endOfList).bytes.size := by
    rw [Record.op, Record.size_byte]
    omega
  have hr' := (Record.continues_op (f := f) (r := r) .endOfList).sound hr
  cases h with
  | fixed e => exact laying_emit id hr' (by omega) e
  | @through array last r inner c hlast e hb' =>
    obtain ⟨hlater, hwithin, hspecs, hoffsets, hothers⟩ := laying_emit (g := g) id hr'
      (by omega) e
    obtain ⟨h1, h2, h3, -⟩ := laying_modify id (.through inner) { c with
      trailingReferences := c.trailingReferences ++ [(n + trailingPlace, inner)] }
    have hthrough : Later f g b { c with
        trailingReferences := c.trailingReferences ++ [(n + trailingPlace, inner)] } :=
      later_through e hr' hplaces hsize'
    have hlater' := hthrough.trans
      (later_modify (F := fun e => { e with trailing := some (.through inner) }) id fun _ => rfl)
    subst hb'
    exact ⟨hlater', hwithin, fun j => (h1 j).trans (hspecs j), fun j => (h2 j).trans (hoffsets j),
      fun j hj => (h3 j hj).trans (hothers j hj)⟩
  | @laid array definition r hlast e =>
    have hp : (((patched r definition).op .endOfList).sheet f).Sound :=
      (Record.continues_op _).sound (sound_patched hr)
    obtain ⟨hlater, hwithin, hspecs, hoffsets, hothers⟩ := laying_emit (g := g) id hp
      (by rw [Record.op, Record.size_byte]; omega) e
    obtain ⟨h1, h2, h3, -⟩ := laying_modify id (.laid definition) b
    exact ⟨(later_modify (F := fun e => { e with trailing := some (.laid definition) }) id
      fun _ => rfl).trans hlater, hwithin, fun j => (hspecs j).trans (h1 j),
      fun j => (hoffsets j).trans (h2 j), fun j hj => (hothers j hj).trans (h3 j hj)⟩

end Assembler

end Ndr
