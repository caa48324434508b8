import Ndr.Proofs.Assembly.Reading

/-!
Every descriptor that is written spells its type, and so do the fields of a struct, one after the
other.
-/

namespace Ndr

namespace Assembler

variable {i : Interface} {a b b' : Assembler} {r r' : Record} {base start n : Nat} {write : Write}

/-! ### Fields -/

/-- The definition of the last array among some fields, behind others. -/
def lastArray (last : Option Nat) (ds : List Descriptor) : Option Nat :=
  ds.foldl (fun last d => d.form.arrayAt?.or last) last

/-- The descriptor that follows, where modifiers and nestings take at most `fuel`. -/
def nextDescriptor (tv : TypeVector) (fuel : Nat) : Scan (Option Descriptor) := do
  tv.readDescriptorFrom fuel (← get) {}

section

variable (hw : ReadsBack i a write) (hgrow : WriteAdds a.offset? a.tail? write)
include hw hgrow

/-- Fields that were written are read one after the other. -/
theorem writeFields_reads {specs : List TypeSpec} {last last' : Option Nat} (fuel : Nat)
    (e : writeFields write specs r last b = .ok (r', last') b') (hp : ∀ t ∈ specs, t.Plain)
    (hb : Started a.offset? a.tail? b) (hl : Laid i a b')
    (hat : Record.At i.vector a.offset? base start r') (hbegun : Record.Begun a.offset? start r)
    (hfuel : r'.bytes.size ≤ r.bytes.size + fuel) :
    ∃ ds, List.Forall₂ (Spells i a {}) specs ds ∧ last' = lastArray last ds ∧
      r.bytes.size + ds.length ≤ r'.bytes.size ∧
      ∀ nested k before,
        i.vector.readFields (nextDescriptor i.vector fuel) nested (k + ds.length) before
            (base + r.bytes.size) =
          i.vector.readFields (nextDescriptor i.vector fuel) nested k (ds.reverse ++ before)
            (base + r'.bytes.size) := by
  induction specs generalizing r b last with
  | nil =>
    obtain ⟨h, rfl⟩ := pure_eq_ok.1 e
    obtain ⟨rfl, rfl⟩ := Prod.mk.inj h
    exact ⟨[], .nil, rfl, Nat.le_refl _, fun _ _ _ => rfl⟩
  | cons spec specs ih =>
    obtain ⟨⟨r1, definition⟩, b1, e1, e2⟩ := bind_eq_ok.1 e
    obtain ⟨hg1, hc1⟩ := (hgrow spec r hbegun.sound).ok e1
    have hbegun1 := hbegun.mono hc1
    obtain ⟨hg2, hc2⟩ := (adds_writeFields hgrow specs r1 _ hbegun1.sound).ok e2
    have hat1 := hat.back hc2 hbegun1
    have hreads := hw e1 (hp spec List.mem_cons_self) hb (hl.back hg2.toLater) hat1 hbegun
    have hlt := hreads.size_lt
    have hle := hc2.size_le
    obtain ⟨d, hd, rfl, hread⟩ := hreads.reads {} (base + r.bytes.size) fuel
      (Nat.le_trans hle hfuel)
    obtain ⟨ds, hds, rfl, hsize, hrest⟩ := ih e2 (fun t ht => hp t (List.mem_cons_of_mem _ ht))
      (hb.mono hg1.toLater) hbegun1 (by omega)
    obtain ⟨op, hc, -, hend, -⟩ := hreads.first
    have hbyte := Record.getElem?_at (hat1.back hc (hbegun.op op)) hbegun
    refine ⟨d :: ds, .cons hd hds, rfl, by rw [List.length_cons]; omega, fun nested k before => ?_⟩
    rw [List.length_cons, ← Nat.add_assoc, List.reverse_cons, List.append_assoc,
      List.singleton_append, ← hrest]
    have hne : op.toByte ≠ Opcode.endNested.toByte := fun h => hend (Opcode.toByte_injective h)
    conv_lhs => unfold TypeVector.readFields
    refine (bind_of_ok rfl _).trans ?_
    simp only [hbyte, if_neg hne]
    show EStateM.bind (i.vector.readDescriptorFrom fuel (base + r.bytes.size) {}) _ _ = _
    rw [EStateM.bind, hread]

end

/-! ### The array at the end of a struct -/

/-- What is found of the array at the end of a struct. -/
theorem endsWith_of_trailingArray {room : Nat} {s : StructSpec} {found : Option ArraySpec}
    (e : a.trailingArray room s = .ok found) :
    ∀ array, s.EndsWith a array ↔ found = some array := by
  induction room generalizing s with
  | zero => exact absurd e (by simp [trailingArray])
  | succ room ih =>
    intro array
    unfold trailingArray at e
    split at e
    · rename_i last hlast
      obtain rfl := Except.ok.inj e
      constructor
      · rintro (⟨h, hc⟩ | ⟨h, -, -⟩)
        · obtain rfl := TypeSpec.array.inj (Option.some.inj (hlast.symm.trans h))
          rw [if_pos hc]
        · exact absurd (hlast.symm.trans h) (by simp)
      · intro h
        split at h
        · rename_i hc
          obtain rfl := Option.some.inj h
          exact .array hlast hc
        · exact absurd h (by simp)
    · rename_i id hlast
      obtain ⟨inner, hinner, e⟩ := Except.bind_eq_ok.1 e
      have hinner := structSpec_eq_ok.1 hinner
      rw [← ih e array]
      constructor
      · rintro (⟨h, -⟩ | ⟨h, hi, ha⟩)
        · exact absurd (hlast.symm.trans h) (by simp)
        · obtain rfl := TypeSpec.struct.inj (Option.some.inj (hlast.symm.trans h))
          obtain rfl := Option.some.inj (hinner.symm.trans hi)
          exact ha
      · exact .struct hlast hinner
    · rename_i harray hstruct
      obtain rfl := Except.ok.inj e
      constructor
      · rintro (⟨h, -⟩ | ⟨h, -, -⟩)
        · exact absurd h (harray _)
        · exact absurd h (hstruct _)
      · exact fun h => absurd h (by simp)

/-- The kind that a struct is given. -/
def kindOf (found : Option ArraySpec) : StructKind :=
  match found with
  | none => .fixed
  | some array => if array.v1 then .v1Conformant else .conformant

theorem kindOf_tells {room : Nat} {s : StructSpec} {found : Option ArraySpec}
    (e : a.trailingArray room s = .ok found) : (kindOf found).Tells a s := by
  have hends := endsWith_of_trailingArray e
  cases found with
  | none => exact fun array h => absurd ((hends array).1 h) (by simp)
  | some array =>
    have harray := (hends array).2 rfl
    cases hv1 : array.v1 with
    | false =>
      simp only [kindOf, hv1]
      exact ⟨array, harray, hv1⟩
    | true =>
      simp only [kindOf, hv1]
      exact ⟨array, harray, hv1⟩

/-! ### Types -/

variable {room : Nat} {definition : Option Nat}

/-- A stream that was emitted for a descriptor, behind the properties of its type. -/
theorem written_stream {t : TypeSpec} {w : UInt8 → Nat → Record}
    (e : (do
      let props ← (← get).propsOf room t
      let stream ← emitStream write t
      return (w props stream, none) : Assemble (Record × Option Nat)) b = .ok (r', definition) b') :
    ∃ props stream, emitStream write t b = .ok stream b' ∧ w props stream = r' ∧
      none = definition := by
  obtain ⟨_, _, e0, e⟩ := bind_eq_ok.1 e
  obtain ⟨rfl, rfl⟩ := get_eq_ok.1 e0
  obtain ⟨props, _, e1, e⟩ := bind_eq_ok.1 e
  obtain ⟨-, rfl⟩ := lift_eq_ok.1 e1
  obtain ⟨stream, _, e2, e⟩ := bind_eq_ok.1 e
  obtain ⟨h, rfl⟩ := pure_eq_ok.1 e
  obtain ⟨h1, h2⟩ := Prod.mk.inj h
  exact ⟨props, stream, e2, h1, h2⟩

/-- An opcode that is a type of its own. -/
theorem reads_of_leaf {spec : TypeSpec} {op : Opcode} {form : TypeForm}
    (hat : Record.At i.vector a.offset? base start (r.op op))
    (hbegun : Record.Begun a.offset? start r) (hop : op ≠ .noArm ∧ op ≠ .endNested ∧
      (op = .void ↔ spec = .void)) (hform : form.arrayAt? = none)
    (hspells : ∀ m o, Spells i a m spec ⟨o, m, form⟩)
    (hread : ∀ fuel o m here next, i.vector.readOpcode here = .ok op next →
      i.vector.readDescriptorFrom (fuel + 1) o m here = .ok (some ⟨o, m, form⟩) next) :
    Reads i a base spec r (r.op op) none :=
  reads_of_op hat hbegun .refl hop fun m o fuel _ hop =>
    ⟨⟨o, m, form⟩, hspells m o, hform, hread fuel o m _ _ hop⟩

/-- An opcode, the properties of a type and the offset of what it refers to. -/
theorem reads_of_offset {spec : TypeSpec} {op : Opcode} {props : UInt8} (form : TypeForm)
    (hat : Record.At i.vector a.offset? base start (((r.op op).byte props).word n))
    (hbegun : Record.Begun a.offset? start r) (hn : n < 2 ^ 32) (hop : op ≠ .noArm ∧
      op ≠ .endNested ∧ (op = .void ↔ spec = .void)) (hform : form.arrayAt? = none)
    (hspells : ∀ m o, Spells i a m spec ⟨o, m, form⟩)
    (hread : ∀ {fuel o m s s1 s2 s3}, i.vector.readOpcode s = .ok op s1 →
      i.vector.readByte s1 = .ok props s2 → i.vector.readNat s2 = .ok n s3 →
      i.vector.readDescriptorFrom (fuel + 1) o m s = .ok (some ⟨o, m, form⟩) s3) :
    Reads i a base spec r (((r.op op).byte props).word n) none := by
  have b1 := hbegun.op op
  have b2 := b1.byte props
  have h2 := hat.back (Record.continues_word _) b2
  refine reads_of_op hat hbegun ((Record.continues_byte _).trans (Record.continues_word _)) hop
    fun m o fuel _ hfirst => ?_
  exact ⟨⟨o, m, form⟩, hspells m o, hform,
    hread hfirst (Record.readByte_at h2 b1) (Record.readNat_at hn hat b2)⟩

/-- The same with a word, the field of a switch or a routine, in front of the offset. -/
theorem reads_of_word_offset {spec : TypeSpec} {op : Opcode} {props : UInt8} {word : Nat}
    (form : TypeForm)
    (hat : Record.At i.vector a.offset? base start ((((r.op op).byte props).word word).word n))
    (hbegun : Record.Begun a.offset? start r) (hword : word < 2 ^ 32) (hn : n < 2 ^ 32)
    (hop : op ≠ .noArm ∧ op ≠ .endNested ∧ (op = .void ↔ spec = .void))
    (hform : form.arrayAt? = none) (hspells : ∀ m o, Spells i a m spec ⟨o, m, form⟩)
    (hread : ∀ {fuel o m s s1 s2 s3 s4}, i.vector.readOpcode s = .ok op s1 →
      i.vector.readByte s1 = .ok props s2 → i.vector.readNat s2 = .ok word s3 →
      i.vector.readNat s3 = .ok n s4 →
      i.vector.readDescriptorFrom (fuel + 1) o m s = .ok (some ⟨o, m, form⟩) s4) :
    Reads i a base spec r ((((r.op op).byte props).word word).word n) none := by
  have b1 := hbegun.op op
  have b2 := b1.byte props
  have b3 := b2.word word
  have h3 := hat.back (Record.continues_word _) b3
  have h2 := h3.back (Record.continues_word _) b2
  refine reads_of_op hat hbegun ((Record.continues_byte _).trans ((Record.continues_word _).trans
    (Record.continues_word _))) hop fun m o fuel _ hfirst => ?_
  exact ⟨⟨o, m, form⟩, hspells m o, hform, hread hfirst (Record.readByte_at h2 b1)
    (Record.readNat_at hword h3 b2) (Record.readNat_at hn hat b3)⟩

/-- The bounds of a range modify the scalar behind them. -/
theorem reads_range {kind : Scalar} {lower upper : UInt32}
    (e : writeStep room write (.range kind lower upper) r b = .ok (r', definition) b')
    (hat : Record.At i.vector a.offset? base start r') (hbegun : Record.Begun a.offset? start r) :
    Reads i a base (.range kind lower upper) r r' definition := by
  obtain ⟨h, rfl⟩ := pure_eq_ok.1 e
  obtain ⟨rfl, rfl⟩ := Prod.mk.inj h
  have b1 := hbegun.op .range
  have b2 := b1.word lower.toNat
  have b3 := b2.word upper.toNat
  have h3 := hat.back (Record.continues_op _) b3
  have h2 := h3.back (Record.continues_word _) b2
  have hc := (Record.continues_word (f := a.offset?) (r := r.op .range) lower.toNat).trans
    (Record.continues_word upper.toNat)
  refine reads_of_op hat hbegun (hc.trans (Record.continues_op _)) (by simp)
    fun m o fuel hfuel hop => ?_
  have hsize := hc.size_le
  rw [Record.op, Record.size_byte] at hfuel
  obtain ⟨fuel, rfl⟩ : ∃ k, fuel = k + 1 := ⟨fuel - 1, by omega⟩
  refine ⟨⟨o, { m with range := some (lower, upper) }, .scalar kind⟩, .range, rfl, ?_⟩
  exact bind_eq_ok.2 ⟨_, _, rfl, bind_eq_ok.2 ⟨_, _, hop, bind_eq_ok.2 ⟨_, _,
    Record.readWord_at h2 b1, bind_eq_ok.2 ⟨_, _, Record.readWord_at h3 b2, bind_eq_ok.2 ⟨_, _, rfl,
    bind_eq_ok.2 ⟨_, _, Record.readOpcode_at hat b3, rfl⟩⟩⟩⟩⟩⟩

/-- A reference to a struct, which is queued. -/
theorem reads_struct {id : StructId}
    (e : writeStep room write (.struct id) r b = .ok (r', definition) b') (hl : Laid i a b')
    (hat : Record.At i.vector a.offset? base start r') (hbegun : Record.Begun a.offset? start r) :
    Reads i a base (.struct id) r r' definition := by
  obtain ⟨_, _, e0, e⟩ := bind_eq_ok.1 e
  obtain ⟨rfl, rfl⟩ := get_eq_ok.1 e0
  obtain ⟨s, _, e1, e⟩ := bind_eq_ok.1 e
  obtain ⟨hs, rfl⟩ := lift_eq_ok.1 e1
  obtain ⟨array, _, e2, e⟩ := bind_eq_ok.1 e
  obtain ⟨harray, rfl⟩ := lift_eq_ok.1 e2
  obtain ⟨props, _, e3, e⟩ := bind_eq_ok.1 e
  obtain ⟨-, rfl⟩ := lift_eq_ok.1 e3
  obtain ⟨_, _, e4, e⟩ := bind_eq_ok.1 e
  obtain rfl := set_eq_ok.1 e4
  obtain ⟨h, rfl⟩ := pure_eq_ok.1 e
  obtain ⟨rfl, rfl⟩ := Prod.mk.inj h
  have hspecs := (hl.back (grown_queue id).toLater).specs
  have hkind := kindOf_tells (trailingArray_mono hspecs harray)
  have b1 := hbegun.op (.struct (kindOf array))
  have b2 := b1.byte props
  have h2 := hat.back (Record.continues_reference _) b2
  obtain ⟨v, hv, hread⟩ := Record.readReference_at hat b2
  refine reads_of_op hat hbegun ((Record.continues_byte _).trans (Record.continues_reference _))
    (by simp) fun m o fuel _ hop => ?_
  refine ⟨⟨o, m, .struct (kindOf array) props v⟩,
    .struct (hspecs id s (structSpec_eq_ok.1 hs)) hkind hv, rfl, ?_⟩
  exact bind_eq_ok.2 ⟨_, _, rfl, bind_eq_ok.2 ⟨_, _, hop, bind_eq_ok.2 ⟨_, _,
    Record.readByte_at h2 b1, bind_eq_ok.2 ⟨_, _, hread, rfl⟩⟩⟩⟩

section

variable (hw : ReadsBack i a write) (hgrow : WriteAdds a.offset? a.tail? write) (hi : i.Small)
include hw hgrow hi

/-- A struct that stands in place, up to the end of its fields. -/
theorem reads_nested {s : StructSpec}
    (e : writeStep room write (.nested s) r b = .ok (r', definition) b')
    (hp : (TypeSpec.nested s).Plain) (hb : Started a.offset? a.tail? b) (hl : Laid i a b')
    (hat : Record.At i.vector a.offset? base start r') (hbegun : Record.Begun a.offset? start r) :
    Reads i a base (.nested s) r r' definition := by
  obtain ⟨_, _, e0, e⟩ := bind_eq_ok.1 e
  obtain ⟨rfl, rfl⟩ := get_eq_ok.1 e0
  obtain ⟨align, _, e1, e⟩ := bind_eq_ok.1 e
  obtain ⟨halign, rfl⟩ := lift_eq_ok.1 e1
  obtain ⟨layout, b1, e2, e⟩ := bind_eq_ok.1 e
  obtain ⟨⟨r1, last⟩, b2, e3, e⟩ := bind_eq_ok.1 e
  obtain ⟨h, rfl⟩ := pure_eq_ok.1 e
  obtain ⟨rfl, rfl⟩ := Prod.mk.inj h
  have c1 := hbegun.op .beginNested
  have c2 := c1.byte (UInt8.ofNat align)
  have c3 := c2.word layout
  obtain ⟨hg1, -⟩ := (adds_emitLayout s).ok e2
  obtain ⟨hg2, hc⟩ := (adds_writeFields hgrow s.fields _ none c3.sound).ok e3
  have c4 := c3.mono hc
  have h4 := hat.back (Record.continues_op _) c4
  have h3 := h4.back hc c3
  have h2 := h3.back (Record.continues_word _) c2
  obtain ⟨hlays, hlt⟩ := (hl.back hg2.toLater).lays hi e2
  have hfields : ∀ t ∈ s.fields, t.Plain := by
    obtain ⟨-, -, -, hparts⟩ := hp
    exact hparts
  refine reads_of_op hat hbegun ((Record.continues_byte _).trans ((Record.continues_word _).trans
    (hc.trans (Record.continues_op _)))) (by simp) fun m o fuel hfuel hop => ?_
  have hle1 := (Record.continues_byte (f := a.offset?) (r := r.op .beginNested)
    (UInt8.ofNat align)).size_le
  have hle2 := (Record.continues_word (f := a.offset?)
    (r := (r.op .beginNested).byte (UInt8.ofNat align)) layout).size_le
  have hend : (r1.op .endNested).bytes.size = r1.bytes.size + 1 := Record.size_byte _ _
  obtain ⟨ds, hds, -, hcount, hread⟩ := writeFields_reads hw hgrow fuel e3 hfields
    (hb.mono hg1.toLater) hl h4 c3 (by omega)
  refine ⟨⟨o, m, .nested align layout ds⟩, .nested hlays hds, rfl, ?_⟩
  have hfits := hat.fits
  obtain ⟨k, hk⟩ : ∃ k, i.vector.size + 1 = k + 1 + ds.length :=
    ⟨i.vector.size - ds.length, by omega⟩
  -- the end of the nested struct closes its fields
  have hclosed : i.vector.readFields (nextDescriptor i.vector fuel) true (i.vector.size + 1) []
      (base + (((r.op .beginNested).byte (UInt8.ofNat align)).word layout).bytes.size) =
      .ok ds (base + (r1.op .endNested).bytes.size) := by
    rw [hk, hread, hend, ← Nat.add_assoc]
    have hbyte := Record.getElem?_at hat c4
    conv_lhs => unfold TypeVector.readFields
    refine (bind_of_ok rfl _).trans ?_
    simp only [hbyte, if_true, List.append_nil, List.reverse_reverse]
    rfl
  exact bind_eq_ok.2 ⟨_, _, rfl, bind_eq_ok.2 ⟨_, _, hop, bind_eq_ok.2 ⟨_, _,
    Record.readByte_at h2 c1, bind_eq_ok.2 ⟨_, _, lift_eq_ok.2
      ⟨checkAlign_of_isAlignment (isAlignment_alignOf halign), rfl⟩, bind_eq_ok.2 ⟨_, _,
    Record.readNat_at hlt h3 c2, bind_eq_ok.2 ⟨_, _, hclosed, rfl⟩⟩⟩⟩⟩⟩

/-- An array, behind its mark if it has one. -/
theorem reads_array {s : ArraySpec}
    (e : writeStep room write (.array s) r b = .ok (r', definition) b')
    (hp : (TypeSpec.array s).Plain) (hb : Started a.offset? a.tail? b) (hl : Laid i a b')
    (hat : Record.At i.vector a.offset? base start r') (hbegun : Record.Begun a.offset? start r) :
    Reads i a base (.array s) r r' definition := by
  obtain ⟨_, _, e0, e⟩ := bind_eq_ok.1 e
  obtain ⟨rfl, rfl⟩ := get_eq_ok.1 e0
  obtain ⟨props, _, e1, e⟩ := bind_eq_ok.1 e
  obtain ⟨-, rfl⟩ := lift_eq_ok.1 e1
  obtain ⟨n, _, e2, e⟩ := bind_eq_ok.1 e
  obtain ⟨h, rfl⟩ := pure_eq_ok.1 e
  obtain ⟨rfl, rfl⟩ := Prod.mk.inj h
  obtain ⟨hlt, hdims, d, hdefinition, hspells⟩ := emitArray_reads hw hgrow hi e2 hp hb hl
  have hdims' : (UInt8.ofNat s.bounds.length).toNat = s.bounds.length :=
    UInt8.toNat_ofNat_of_lt' hdims
  -- the descriptor behind the mark, if there is one
  have hbare : ∀ {r1 : Record}, Record.Begun a.offset? start r1 →
      Record.At i.vector a.offset? base start ((((r1.op (.array s.kind)).byte props).byte
        (UInt8.ofNat s.bounds.length)).word n) → ∀ fuel o m,
      i.vector.readOpcode (base + r1.bytes.size) =
        .ok (.array s.kind) (base + (r1.op (.array s.kind)).bytes.size) →
      i.vector.readDescriptorFrom (fuel + 1) o m (base + r1.bytes.size) =
        .ok (some ⟨o, m, .array s.kind props s.bounds.length n⟩)
          (base + ((((r1.op (.array s.kind)).byte props).byte
            (UInt8.ofNat s.bounds.length)).word n).bytes.size) := by
    intro r1 c0 hat fuel o m hop
    have c1 := c0.op (.array s.kind)
    have c2 := c1.byte props
    have c3 := c2.byte (UInt8.ofNat s.bounds.length)
    have h3 := hat.back (Record.continues_word _) c3
    have h2 := h3.back (Record.continues_byte _) c2
    exact bind_eq_ok.2 ⟨_, _, rfl, bind_eq_ok.2 ⟨_, _, hop, bind_eq_ok.2 ⟨_, _,
      Record.readByte_at h2 c1, bind_eq_ok.2 ⟨_, _, Record.readByte_at h3 c2, bind_eq_ok.2 ⟨_, _,
      Record.readNat_at hlt hat c3, by rw [hdims']; rfl⟩⟩⟩⟩⟩
  have htail : ∀ r1 : Record, Record.Continues a.offset? (r1.op (.array s.kind))
      ((((r1.op (.array s.kind)).byte props).byte (UInt8.ofNat s.bounds.length)).word n) :=
    fun r1 => (Record.continues_byte _).trans ((Record.continues_byte _).trans
      (Record.continues_word _))
  have harray : ∀ {m o}, Spells i a m (.array s)
      ⟨o, s.modify m, .array s.kind props s.bounds.length n⟩ := .array hdefinition hspells
  cases hmark : markOf s.string s.v1 with
  | none =>
    simp only [hmark] at hat ⊢
    refine reads_of_op hat hbegun (htail r) (by simp) fun m o fuel _ hop => ?_
    have hm : s.modify m = m := by simp only [ArraySpec.modify, hmark]
    refine ⟨⟨o, s.modify m, .array s.kind props s.bounds.length n⟩, harray, rfl, ?_⟩
    rw [hm]
    exact hbare hbegun hat fuel o m hop
  | some mark =>
    simp only [hmark] at hat ⊢
    have c1 := hbegun.op (.mark mark)
    have hc := (Record.continues_op (f := a.offset?) (r := r.op (.mark mark)) (.array s.kind)).trans
      (htail _)
    refine reads_of_op hat hbegun hc (by simp) fun m o fuel hfuel hop => ?_
    have hsize := (htail (r.op (.mark mark))).size_le
    have hone : ((r.op (.mark mark)).op (.array s.kind)).bytes.size =
        (r.op (.mark mark)).bytes.size + 1 := Record.size_byte _ _
    obtain ⟨fuel, rfl⟩ : ∃ k, fuel = k + 1 := ⟨fuel - 1, by omega⟩
    have hop2 := Record.readOpcode_at (hat.back (htail _) (c1.op _)) c1
    have hm : s.modify m = m.add mark := by simp only [ArraySpec.modify, hmark]
    refine ⟨⟨o, s.modify m, .array s.kind props s.bounds.length n⟩, harray, rfl, ?_⟩
    rw [hm]
    exact bind_eq_ok.2 ⟨_, _, rfl, bind_eq_ok.2 ⟨_, _, hop, hbare c1 hat fuel o _ hop2⟩⟩

/-- A union, whose switch stands inside or in a field. -/
theorem reads_union {u : UnionSpec}
    (e : writeStep room write (.union u) r b = .ok (r', definition) b')
    (hp : (TypeSpec.union u).Plain) (hb : Started a.offset? a.tail? b) (hl : Laid i a b')
    (hat : Record.At i.vector a.offset? base start r') (hbegun : Record.Begun a.offset? start r) :
    Reads i a base (.union u) r r' definition := by
  obtain ⟨_, _, e0, e⟩ := bind_eq_ok.1 e
  obtain ⟨rfl, rfl⟩ := get_eq_ok.1 e0
  obtain ⟨props, _, e1, e⟩ := bind_eq_ok.1 e
  obtain ⟨-, rfl⟩ := lift_eq_ok.1 e1
  obtain ⟨n, _, e2, e⟩ := bind_eq_ok.1 e
  obtain ⟨h, rfl⟩ := pure_eq_ok.1 e
  obtain ⟨rfl, rfl⟩ := Prod.mk.inj h
  obtain ⟨hlt, hunion⟩ := emitUnion_reads hw hgrow hi e2 (fun t ht => hp.part ht) hb hl
  cases hfield : u.switchField with
  | none =>
    simp only [hfield] at hat ⊢
    refine reads_of_offset (.encapsulatedUnion props n) hat hbegun hlt (by simp) rfl
      (fun _ _ => .encapsulated hfield hunion) fun hop hprops hn => ?_
    exact bind_eq_ok.2 ⟨_, _, rfl, bind_eq_ok.2 ⟨_, _, hop, bind_eq_ok.2 ⟨_, _, hprops,
      bind_eq_ok.2 ⟨_, _, hn, rfl⟩⟩⟩⟩
  | some field =>
    simp only [hfield] at hat ⊢
    refine reads_of_word_offset (.switchedUnion props field.toNat n) hat hbegun field.toNat_lt hlt
      (by simp) rfl (fun _ _ => .switched hfield hunion) fun hop hprops hswitch hn => ?_
    exact bind_eq_ok.2 ⟨_, _, rfl, bind_eq_ok.2 ⟨_, _, hop, bind_eq_ok.2 ⟨_, _, hprops,
      bind_eq_ok.2 ⟨_, _, hswitch, bind_eq_ok.2 ⟨_, _, hn, rfl⟩⟩⟩⟩⟩

omit hi in
/-- A routine that frees modifies the type behind it. -/
theorem reads_freeRep {routine : UInt32} {inner : TypeSpec}
    (e : writeStep room write (.freeRep routine inner) r b = .ok (r', definition) b')
    (hp : (TypeSpec.freeRep routine inner).Plain) (hb : Started a.offset? a.tail? b)
    (hl : Laid i a b') (hat : Record.At i.vector a.offset? base start r')
    (hbegun : Record.Begun a.offset? start r) :
    Reads i a base (.freeRep routine inner) r r' definition := by
  have b1 := hbegun.op .freeRep
  have b2 := b1.word routine.toNat
  obtain ⟨-, hc⟩ := (hgrow inner _ b2.sound).ok e
  have hreads := hw e (hp.part (List.mem_singleton.2 rfl)) hb hl hat b2
  have h2 := hat.back hc b2
  have hw1 := Record.continues_word (f := a.offset?) (r := r.op .freeRep) routine.toNat
  refine reads_of_op hat hbegun (hw1.trans hc) (by simp) fun m o fuel hfuel hop => ?_
  have hle := hw1.size_le
  obtain ⟨d, hd, hdef, hread⟩ := hreads.reads { m with freeRep := some routine.toNat } o fuel
    (Nat.le_trans hfuel (by omega))
  refine ⟨d, .freeRep hd, hdef, ?_⟩
  exact bind_eq_ok.2 ⟨_, _, rfl, bind_eq_ok.2 ⟨_, _, hop, bind_eq_ok.2 ⟨_, _,
    Record.readNat_at routine.toNat_lt h2 b1, hread⟩⟩⟩

/-- A level of writing types is read back where the levels below are. -/
theorem readsBack_step : ReadsBack i a (writeStep room write) := by
  intro spec r r' definition b b' base start e hp hb hl hat hbegun
  cases spec with
  | scalar kind =>
    obtain ⟨h, rfl⟩ := pure_eq_ok.1 e
    obtain ⟨rfl, rfl⟩ := Prod.mk.inj h
    exact reads_of_leaf hat hbegun (by simp) rfl (fun _ _ => .scalar) fun _ _ _ _ _ h =>
      bind_eq_ok.2 ⟨_, _, rfl, bind_eq_ok.2 ⟨_, _, h, rfl⟩⟩
  | range kind lower upper => exact reads_range e hat hbegun
  | struct id => exact reads_struct e hl hat hbegun
  | nested s => exact reads_nested hw hgrow hi e hp hb hl hat hbegun
  | array s => exact reads_array hw hgrow hi e hp hb hl hat hbegun
  | union u => exact reads_union hw hgrow hi e hp hb hl hat hbegun
  | pointer kind pointee =>
    obtain ⟨props, stream, hstream, rfl, rfl⟩ := written_stream e
    have hplain := hp.part (List.mem_singleton.2 rfl)
    obtain ⟨hlt, ⟨d, hd, hspells⟩, -⟩ := emitStream_reads hw hgrow hi hstream hplain hb hl
    refine reads_of_offset (.pointer kind props stream) hat hbegun hlt (by simp) rfl
      (fun _ _ => .pointer hd hspells) fun hop hprops hn => ?_
    exact bind_eq_ok.2 ⟨_, _, rfl, bind_eq_ok.2 ⟨_, _, hop, bind_eq_ok.2 ⟨_, _, hprops,
      bind_eq_ok.2 ⟨_, _, hn, rfl⟩⟩⟩⟩
  | converted kind routine wire =>
    obtain ⟨props, stream, hstream, rfl, rfl⟩ := written_stream e
    have hplain := hp.part (List.mem_singleton.2 rfl)
    obtain ⟨hlt, ⟨d, hd, hspells⟩, -⟩ := emitStream_reads hw hgrow hi hstream hplain hb hl
    refine reads_of_word_offset (.converted kind props routine.toNat stream) hat hbegun
      routine.toNat_lt hlt (by simp) rfl (fun _ _ => .converted hd hspells)
      fun hop hprops hroutine hn => ?_
    exact bind_eq_ok.2 ⟨_, _, rfl, bind_eq_ok.2 ⟨_, _, hop, bind_eq_ok.2 ⟨_, _, hprops,
      bind_eq_ok.2 ⟨_, _, hroutine, bind_eq_ok.2 ⟨_, _, hn, rfl⟩⟩⟩⟩⟩
  | freeRep routine inner => exact reads_freeRep hw hgrow e hp hb hl hat hbegun
  | pipe element =>
    obtain ⟨props, stream, hstream, rfl, rfl⟩ := written_stream e
    have hplain := hp.part (List.mem_singleton.2 rfl)
    obtain ⟨hlt, ⟨d, hd, hspells⟩, -⟩ := emitStream_reads hw hgrow hi hstream hplain hb hl
    refine reads_of_offset (.pipe props stream) hat hbegun hlt (by simp) rfl
      (fun _ _ => .pipe hd hspells) fun hop hprops hn => ?_
    exact bind_eq_ok.2 ⟨_, _, rfl, bind_eq_ok.2 ⟨_, _, hop, bind_eq_ok.2 ⟨_, _, hprops,
      bind_eq_ok.2 ⟨_, _, hn, rfl⟩⟩⟩⟩
  | align boundary =>
    rcases writeStep_align room r boundary with ⟨bound, rfl, h⟩ | h
    · rw [h] at e
      obtain ⟨h, rfl⟩ := pure_eq_ok.1 e
      obtain ⟨rfl, rfl⟩ := Prod.mk.inj h
      exact reads_of_leaf hat hbegun (by simp) rfl (fun _ _ => .align) fun _ _ _ _ _ h =>
        bind_eq_ok.2 ⟨_, _, rfl, bind_eq_ok.2 ⟨_, _, h, rfl⟩⟩
    · rw [h] at e
      exact absurd e malformed_ne_ok
  | ignore =>
    obtain ⟨h, rfl⟩ := pure_eq_ok.1 e
    obtain ⟨rfl, rfl⟩ := Prod.mk.inj h
    exact reads_of_leaf hat hbegun (by simp) rfl (fun _ _ => .ignore) fun _ _ _ _ _ h =>
      bind_eq_ok.2 ⟨_, _, rfl, bind_eq_ok.2 ⟨_, _, h, rfl⟩⟩
  | context direction =>
    obtain ⟨h, rfl⟩ := pure_eq_ok.1 e
    obtain ⟨rfl, rfl⟩ := Prod.mk.inj h
    exact reads_of_leaf hat hbegun (by simp) rfl (fun _ _ => .context) fun _ _ _ _ _ h =>
      bind_eq_ok.2 ⟨_, _, rfl, bind_eq_ok.2 ⟨_, _, h, rfl⟩⟩
  | deletedNodes =>
    obtain ⟨h, rfl⟩ := pure_eq_ok.1 e
    obtain ⟨rfl, rfl⟩ := Prod.mk.inj h
    exact reads_of_leaf hat hbegun (by simp) rfl (fun _ _ => .deletedNodes) fun _ _ _ _ _ h =>
      bind_eq_ok.2 ⟨_, _, rfl, bind_eq_ok.2 ⟨_, _, h, rfl⟩⟩
  | void =>
    obtain ⟨h, rfl⟩ := pure_eq_ok.1 e
    obtain ⟨rfl, rfl⟩ := Prod.mk.inj h
    exact reads_of_leaf hat hbegun (by simp) rfl (fun _ _ => .void) fun _ _ _ _ _ h =>
      bind_eq_ok.2 ⟨_, _, rfl, bind_eq_ok.2 ⟨_, _, h, rfl⟩⟩
  | opcode op =>
    obtain ⟨hno, -⟩ := hp
    exact absurd rfl (hno op)

omit hw hgrow in
/-- Whatever is written is read back. -/
theorem readsBack_write (room : Nat) : ReadsBack i a (Assembler.write room) := by
  induction room with
  | zero => exact fun e => absurd e malformed_ne_ok
  | succ room ih => exact readsBack_step ih (writeAdds_write room) hi

end

end Assembler

end Ndr
