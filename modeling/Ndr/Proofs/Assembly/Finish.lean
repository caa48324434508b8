import Ndr.Proofs.Assembly.Definition

/-!
The end of an assembly: every struct that is referred to is defined, and what was laid down stands in
the vector with all its places filled in.
-/

namespace Ndr

namespace Assembler

variable {i : Interface} {a b b' c : Assembler} {f g : StructId → Option Nat} {r r' : Record}
  {n : Nat} {id : StructId}

/-! ### Structs -/

/-- The structs that have an offset, and the arrays at their ends, are in the vector. -/
structure InRange (b : Assembler) : Prop where
  offsets : ∀ id n, b.offset? id = some n → n < b.bytes.size
  arrays : ∀ id t, b.trailing? id = some (.laid t) → t < b.bytes.size

/-- The structs that have an offset are defined there. -/
def Settled (i : Interface) (a b : Assembler) : Prop :=
  ∀ id n, b.offset? id = some n →
    ∃ s, a.spec? id = some s ∧
      (s.Plain → ∃ t, Defines i a s n t ∧ (t = none ∨ b.trailing? id = t))

/-- A struct with its offset. -/
def placed (b : Assembler) (id : StructId) (n : Nat) : Assembler :=
  { b with structs := b.structs.modify id fun e => { e with offset := some n } }

theorem spec?_placed {j : StructId} : (b.placed id n).spec? j = b.spec? j :=
  getElem?_modify_bind fun _ _ => rfl

theorem trailing?_placed {j : StructId} : (b.placed id n).trailing? j = b.trailing? j :=
  getElem?_modify_bind fun _ _ => rfl

theorem offset?_placed {j : StructId} {m : Nat} (h : (b.placed id n).offset? j = some m) :
    id = j ∧ n = m ∨ id ≠ j ∧ b.offset? j = some m := by
  unfold offset? placed at h
  dsimp only at h
  by_cases hj : id = j
  · refine .inl ⟨hj, ?_⟩
    rw [Array.getElem?_modify, if_pos hj] at h
    cases hb : b.structs[j]? with
    | none => simp [hb] at h
    | some e => simpa [hb] using h
  · refine .inr ⟨hj, ?_⟩
    rwa [getElem?_modify_bind fun h' => absurd h' hj] at h

theorem later_placed : Later f g b (b.placed id n) := later_modify id fun _ => rfl

/-- The array at the end of a struct that was laid down is in the vector. -/
theorem laid_lt (e : emitStruct id b = .ok n b') {t : Nat} (ht : b'.trailing? id = some (.laid t)) :
    b.trailing? id = some (.laid t) ∨ t < b'.bytes.size := by
  obtain ⟨s, align, props, layout, array, b1, r, last, b2, hs, -, -, -, elayout, efields, hend⟩ :=
    emitStruct_eq_ok e
  obtain ⟨hg1, hg2, hc⟩ := grown_fields (f := fun _ => none) (g := fun _ => none) elayout efields
  have hsound := hc.sound ((Record.continues_word _).sound sound_structHead)
  have hsize := hc.size_le
  rw [size_structHead_word] at hsize
  have hle := (laying_ending (g := fun _ => none) hend hsound (place_of_struct hc) hsize).later.sheet.size_le
  have hid : (b2.spec? id).isSome := by
    rw [spec?_eq_known, (hg1.trans hg2).known, ← spec?_eq_known, hs]
    rfl
  cases hend with
  | fixed e =>
    obtain ⟨rfl, rfl⟩ := emit_eq_ok.1 e
    exact .inl ((hg1.trans hg2).trailing?_eq.symm.trans ht)
  | @through _ _ _ inner c hlast e hb' =>
    obtain ⟨rfl, rfl⟩ := emit_eq_ok.1 e
    obtain ⟨-, -, -, hself⟩ := laying_modify id (.through inner) b2
    subst hb'
    exact absurd ((hself hid).symm.trans ht) (by simp)
  | @laid _ definition r hlast e =>
    obtain ⟨-, -, -, hself⟩ := laying_modify id (.laid definition) b2
    obtain ⟨rfl, rfl⟩ := emit_eq_ok.1 e
    obtain rfl := TrailingArray.laid.inj (Option.some.inj ((hself hid).symm.trans ht))
    have := last_lt (f := fun _ => none) (by simp)
      ((Record.continues_word _).sound sound_structHead) efields
    exact .inr (Nat.lt_of_lt_of_le this hle)

theorem inRange_emitStruct (e : emitStruct id b = .ok n b') (h : InRange b) :
    InRange (b'.placed id n) := by
  have hlaying := laying_emitStruct (f := fun _ => none) (g := fun _ => none) e
  have hle := hlaying.later.sheet.size_le
  refine ⟨fun j m hm => ?_, fun j t ht => ?_⟩
  · rcases offset?_placed hm with ⟨-, rfl⟩ | ⟨-, hm⟩
    · exact hlaying.within
    · exact Nat.lt_of_lt_of_le (h.offsets j m (hlaying.offsets j ▸ hm)) hle
  · rw [trailing?_placed] at ht
    by_cases hj : id = j
    · subst hj
      rcases laid_lt e ht with ht | ht
      · exact Nat.lt_of_lt_of_le (h.arrays id t ht) hle
      · exact ht
    · exact Nat.lt_of_lt_of_le (h.arrays j t (hlaying.others j hj ▸ ht)) hle

/-! ### Laying down what is queued -/

/-- Some of the structs that are queued are laid down. -/
inductive Settles : Assembler → Assembler → Prop where
  | done {b : Assembler} : Settles b b
  | step {b c b' : Assembler} {id : StructId} {rest : List StructId} {n : Nat}
      (e : emitStruct id { b with pending := rest } = .ok n c) (h : Settles (c.placed id n) b') :
      Settles b b'

theorem settles_of_emitPending {fuel : Nat} {u : Unit} (e : emitPending fuel b = .ok u b') :
    Settles b b' := by
  induction fuel generalizing b with
  | zero =>
    obtain ⟨-, rfl⟩ := pure_eq_ok.1 e
    exact .done
  | succ fuel ih =>
    obtain ⟨_, _, e0, e⟩ := bind_eq_ok.1 e
    obtain ⟨rfl, rfl⟩ := get_eq_ok.1 e0
    cases hpending : b.pending with
    | nil =>
      simp only [hpending] at e
      obtain ⟨-, rfl⟩ := pure_eq_ok.1 e
      exact .done
    | cons id rest =>
      simp only [hpending] at e
      obtain ⟨_, _, e1, e⟩ := bind_eq_ok.1 e
      obtain rfl := modify_eq_ok.1 e1
      obtain ⟨n, c, e2, e⟩ := bind_eq_ok.1 e
      obtain ⟨_, _, e3, e⟩ := bind_eq_ok.1 e
      obtain rfl := modify_eq_ok.1 e3
      exact .step e2 (ih e)

namespace Settles

theorem later (h : Settles b b') : Later f g b b' := by
  induction h with
  | done => exact .refl
  | @step b c b' id rest n e _ ih =>
    have hpop : Later f g b { b with pending := rest } :=
      .of_eq rfl rfl rfl rfl rfl rfl fun _ _ h => h
    exact hpop.trans ((laying_emitStruct e).later.trans (later_placed.trans ih))

theorem spec?_eq (h : Settles b b') : b'.spec? id = b.spec? id := by
  induction h with
  | done => rfl
  | step e _ ih =>
    exact ih.trans (spec?_placed.trans
      ((laying_emitStruct (f := fun _ => none) (g := fun _ => none) e).specs id))

theorem inRange (h : Settles b b') (hb : InRange b) : InRange b' := by
  induction h with
  | done => exact hb
  | step e _ ih => exact ih (inRange_emitStruct e ⟨hb.offsets, hb.arrays⟩)

/-- What is laid down is defined. -/
theorem settled (h : Settles b b') (hi : i.Small)
    (hrange : ∀ inner v, a.tail? inner = some v → v < i.vector.size)
    (hb : Started a.offset? a.tail? b) (hl : Laid i a b') (hs : Settled i a b) : Settled i a b' := by
  induction h with
  | done => exact hs
  | @step b c b' id rest n e h ih =>
    have hb1 : Started a.offset? a.tail? { b with pending := rest } := ⟨hb.sound, hb.header⟩
    have hlaying := laying_emitStruct (f := a.offset?) (g := a.tail?) e
    have hl1 := hl.back (later_placed.trans h.later)
    refine ih (hb1.mono (hlaying.later.trans later_placed)) hl fun j m hm => ?_
    rcases offset?_placed hm with ⟨rfl, rfl⟩ | ⟨hj, hm⟩
    · obtain ⟨s, hs, hd⟩ := defines_of_emitStruct hi hrange e hb1 hl1
      refine ⟨s, hs, fun hp => ?_⟩
      obtain ⟨t, hd, ht⟩ := hd hp
      exact ⟨t, hd, ht.imp_right fun ht => trailing?_placed.trans ht⟩
    · obtain ⟨s, hs, hd⟩ := hs j m ((hlaying.offsets j).symm.trans hm)
      refine ⟨s, hs, fun hp => ?_⟩
      obtain ⟨t, hd, ht⟩ := hd hp
      exact ⟨t, hd, ht.imp_right fun ht =>
        trailing?_placed.trans ((hlaying.others j hj).trans ht)⟩

end Settles

/-! ### The array at the end of a struct -/

theorem trailingOffset_succ (fuel : Nat) : b.trailingOffset (fuel + 1) id =
    match b.trailing? id with
    | some (.laid offset) => .ok offset
    | some (.through inner) => b.trailingOffset fuel inner
    | none => .error (b.fault .noTrailingArray) := rfl

theorem trailingOffset_lt (h : InRange b) {fuel v : Nat} (e : trailingOffset b fuel id = .ok v) :
    v < b.bytes.size := by
  induction fuel generalizing id with
  | zero => exact absurd e (by simp [trailingOffset])
  | succ fuel ih =>
    rw [trailingOffset_succ] at e
    split at e
    · rename_i t ht
      obtain rfl := Except.ok.inj e
      exact h.arrays id t ht
    · exact ih e
    · exact absurd e (by simp)

theorem tail?_eq_some {v : Nat} :
    b.tail? id = some v ↔ b.trailingOffset (b.structs.size + 1) id = .ok v := by
  unfold tail?
  cases b.trailingOffset (b.structs.size + 1) id <;> simp [Except.toOption]

theorem structOffset_eq_ok {v : Nat} : b.structOffset id = .ok v ↔ b.offset? id = some v := by
  unfold structOffset offset?
  split
  · rename_i h
    simp [h]
  · rename_i h
    simp [h]

/-! ### References -/

/-- The words at some places are filled in, and nothing else changes. -/
theorem resolve_eq_ok {order : ByteOrder} {target : StructId → Except Fault Nat}
    {references : List (Nat × StructId)} {bytes bytes' : Array UInt8}
    (e : resolve order target references bytes = .ok bytes')
    (hwords : ∀ p ∈ references, p.1 % 4 = 0 ∧ p.1 + 4 ≤ bytes.size)
    (hnodup : (references.map Prod.fst).Nodup) :
    bytes'.size = bytes.size ∧
      (∀ k, (∀ p ∈ references, k < p.1 ∨ p.1 + 4 ≤ k) → bytes'[k]? = bytes[k]?) ∧
      ∀ p ∈ references, ∃ v, target p.2 = .ok v ∧
        ∀ k < 4, bytes'[p.1 + k]? = (order.encode 4 v)[k]? := by
  induction references generalizing bytes with
  | nil =>
    obtain rfl := Except.ok.inj e
    exact ⟨rfl, fun _ _ => rfl, fun _ h => absurd h List.not_mem_nil⟩
  | cons first rest ih =>
    obtain ⟨place, id⟩ := first
    obtain ⟨v, hv, e⟩ := Except.bind_eq_ok.1 e
    obtain ⟨hplace, hfits⟩ := hwords _ List.mem_cons_self
    rw [List.map_cons, List.nodup_cons] at hnodup
    have hsize := size_overwrite bytes place (order.encode 4 v)
    have hlength : (order.encode 4 v).length = 4 := ByteOrder.length_encode _ _ _
    obtain ⟨ih1, ih2, ih3⟩ := ih e
      (fun p hp => by rw [hsize]; exact hwords p (List.mem_cons_of_mem _ hp)) hnodup.2
    -- the other words are apart from this one
    have hapart : ∀ p ∈ rest, p.1 + 4 ≤ place ∨ place + 4 ≤ p.1 := fun p hp => by
      have hne : p.1 ≠ place := fun h => hnodup.1 (List.mem_map.2 ⟨p, hp, h⟩)
      have := (hwords p (List.mem_cons_of_mem _ hp)).1
      dsimp only at hplace
      omega
    refine ⟨ih1.trans hsize, fun k hk => ?_, fun p hp => ?_⟩
    · rw [ih2 k fun p hp => hk p (List.mem_cons_of_mem _ hp),
        getElem?_overwrite_of_outside (by rw [hlength]; exact hk _ List.mem_cons_self)]
    · rcases List.mem_cons.1 hp with rfl | hp
      · refine ⟨v, hv, fun k hk => ?_⟩
        rw [ih2 _ fun p hp => by have := hapart p hp; dsimp only; omega]
        exact getElem?_overwrite (by rw [hlength]; exact hk) (by rw [hlength]; exact hfits)
      · exact ih3 p hp

/-- All places are filled in, and nothing else changes. -/
theorem filled (hsound : (a.sheet a.offset? a.tail?).Sound) {bytes bytes' : Array UInt8}
    (e : resolve a.order a.structOffset a.references a.bytes = .ok bytes)
    (e' : resolve a.order (a.trailingOffset (a.structs.size + 1)) a.trailingReferences bytes =
      .ok bytes') :
    bytes'.size = a.bytes.size ∧
      (∀ k, (∀ p ∈ (a.sheet a.offset? a.tail?).places, k < p.1 ∨ p.1 + 4 ≤ k) →
        bytes'[k]? = a.bytes[k]?) ∧
      ∀ p ∈ (a.sheet a.offset? a.tail?).places, ∃ v, p.2 = some v ∧
        ∀ k < 4, bytes'[p.1 + k]? = (a.order.encode 4 v)[k]? := by
  have hwords := hsound.words
  have hnodup := hsound.nodup
  simp only [sheet, List.map_append, List.map_map, Function.comp_def] at hwords hnodup
  obtain ⟨h1, h2, hdisjoint⟩ := List.nodup_append.1 hnodup
  have hw1 : ∀ p ∈ a.references, p.1 % 4 = 0 ∧ p.1 + 4 ≤ a.bytes.size := fun p hp =>
    hwords (p.1, a.offset? p.2) (List.mem_append_left _ (List.mem_map.2 ⟨p, hp, rfl⟩))
  have hw2 : ∀ p ∈ a.trailingReferences, p.1 % 4 = 0 ∧ p.1 + 4 ≤ a.bytes.size := fun p hp =>
    hwords (p.1, a.tail? p.2) (List.mem_append_right _ (List.mem_map.2 ⟨p, hp, rfl⟩))
  obtain ⟨hsize, hkept, hfilled⟩ := resolve_eq_ok e hw1 h1
  obtain ⟨hsize', hkept', hfilled'⟩ := resolve_eq_ok e' (by rw [hsize]; exact hw2) h2
  refine ⟨hsize'.trans hsize, fun k hk => ?_, fun p hp => ?_⟩
  · rw [hkept' k fun p hp => hk (p.1, a.tail? p.2)
        (List.mem_append_right _ (List.mem_map.2 ⟨p, hp, rfl⟩)),
      hkept k fun p hp => hk (p.1, a.offset? p.2)
        (List.mem_append_left _ (List.mem_map.2 ⟨p, hp, rfl⟩))]
  · rcases List.mem_append.1 hp with hp | hp
    · obtain ⟨q, hq, rfl⟩ := List.mem_map.1 hp
      obtain ⟨v, hv, hword⟩ := hfilled q hq
      refine ⟨v, structOffset_eq_ok.1 hv, fun k hk => ?_⟩
      rw [hkept' _ fun q' hq' => ?_]
      · exact hword k hk
      -- the places for the arrays at the ends of structs are apart from this one
      · have hne : q.1 ≠ q'.1 := hdisjoint _ (List.mem_map.2 ⟨q, hq, rfl⟩) _
          (List.mem_map.2 ⟨q', hq', rfl⟩)
        have := (hw1 q hq).1
        have := (hw2 q' hq').1
        dsimp only
        omega
    · obtain ⟨q, hq, rfl⟩ := List.mem_map.1 hp
      obtain ⟨v, hv, hword⟩ := hfilled' q hq
      exact ⟨v, tail?_eq_some.2 hv, hword⟩

theorem finish_eq_ok {bytes : Array UInt8} {layout : Layout} (e : b.finish = .ok (bytes, layout)) :
    ∃ a bytes₁ bytes₂, Settles b a ∧
      resolve a.order a.structOffset a.references a.bytes = .ok bytes₁ ∧
      resolve a.order (a.trailingOffset (a.structs.size + 1)) a.trailingReferences bytes₁ =
        .ok bytes₂ ∧
      overwrite bytes₂ 8 (a.order.encode 4 a.flags.toNat) = bytes ∧ ⟨a.layout⟩ = layout := by
  unfold finish at e
  cases h : (emitPending b.structs.size).run b with
  | error fault c => simp [h, throw, throwThe, MonadExceptOf.throw] at e
  | ok u a =>
    simp only [h] at e
    obtain ⟨bytes₁, e1, e⟩ := Except.bind_eq_ok.1 e
    obtain ⟨bytes₂, e2, e⟩ := Except.bind_eq_ok.1 e
    obtain ⟨h1, h2⟩ := Prod.mk.inj (Except.pure_eq_ok.1 e)
    exact ⟨a, bytes₁, bytes₂, settles_of_emitPending h, e1, e2, h1, h2⟩

/-! ### The vector -/

theorem parse_eq_ok {bytes : Array UInt8} {tv : TypeVector} (e : TypeVector.parse bytes = .ok tv) :
    tv.bytes = bytes ∧ ∃ code, bytes[4]? = some code ∧ TypeVector.orderOf code = .ok tv.order := by
  unfold TypeVector.parse at e
  split at e
  · exact absurd e (by simp)
  · rename_i hsize
    obtain ⟨order, ho, e⟩ := Except.bind_eq_ok.1 e
    dsimp only at e
    split at e
    · exact absurd e (by simp)
    · split at e
      · exact absurd e (by simp)
      · obtain rfl := Except.ok.inj e
        exact ⟨rfl, _, Array.getElem?_eq_getElem _, ho⟩

/-- The header announces the order. -/
theorem order_new (order : ByteOrder) (flags : UInt32) :
    ∃ code, (new order flags).bytes[4]? = some code ∧ TypeVector.orderOf code = .ok order := by
  cases order
  · exact ⟨0, rfl, rfl⟩
  · exact ⟨1, rfl, rfl⟩

theorem size_new (order : ByteOrder) (flags : UInt32) :
    (new order flags).bytes.size = TypeVector.headerSize := by
  simp [new, TypeVector.headerSize]

theorem started_new {order : ByteOrder} {flags : UInt32} : Started f g (new order flags) :=
  ⟨⟨by simp [sheet, new], by simp [sheet, new]⟩, Nat.le_of_eq (size_new _ _).symm⟩

/-- What was laid down behind a header stands in the vector that is finished. -/
theorem laid_of_ofAssembler {order : ByteOrder} {flags : UInt32}
    (hnew : ∀ f g, Later f g (new order flags) b) (hb : InRange b)
    (e : Interface.ofAssembler b = .ok i) (hi : i.Small) :
    ∃ a, Settles b a ∧ InRange a ∧ i.vector.size = a.bytes.size ∧ Laid i a a := by
  obtain ⟨⟨bytes, layout⟩, e1, e⟩ := Except.bind_eq_ok.1 e
  obtain ⟨a, bytes₁, bytes₂, hsettles, e2, e3, rfl, rfl⟩ := finish_eq_ok e1
  obtain ⟨tv, e4, e⟩ := Except.bind_eq_ok.1 e
  obtain rfl := Except.pure_eq_ok.1 e
  have hlater := (hnew a.offset? a.tail?).trans hsettles.later
  have hstarted := started_new.mono hlater
  have hrange := hsettles.inRange hb
  obtain ⟨hsize, hkept, hfilled⟩ := filled hstarted.sound e2 e3
  obtain ⟨hbytes, code, hcode, horder⟩ := parse_eq_ok e4
  have hlength : (a.order.encode 4 a.flags.toNat).length = 4 := ByteOrder.length_encode _ _ _
  have htotal : tv.size = a.bytes.size := by
    rw [TypeVector.size, hbytes, size_overwrite, hsize]
  -- the places are behind the header
  have hplaces : ∀ p ∈ (a.sheet a.offset? a.tail?).places, TypeVector.headerSize ≤ p.1 := by
    intro p hp
    rcases hlater.sheet.added p hp with hp | hp
    · simp [sheet, new] at hp
    · rwa [← size_new order flags]
  have hbehind : ∀ k, TypeVector.headerSize ≤ k → tv.bytes[k]? = bytes₂[k]? := fun k hk => by
    rw [hbytes, getElem?_overwrite_of_outside (.inr (by rw [hlength]; exact hk))]
  have htv : tv.order = a.order := by
    obtain ⟨code', hcode', horder'⟩ := order_new order flags
    have h4 : bytes₂[4]? = some code' := by
      rw [hkept 4 fun p hp => .inl (Nat.lt_of_lt_of_le (by decide) (hplaces p hp)), ← hcode']
      exact hlater.sheet.getElem? (by
        change 4 < (new order flags).bytes.size
        rw [size_new]
        decide)
    rw [getElem?_overwrite_of_outside (.inl (by decide)), h4] at hcode
    obtain rfl := Option.some.inj hcode
    exact (Except.ok.inj (horder.symm.trans horder')).trans hlater.order.symm
  refine ⟨a, hsettles, hrange, htotal, htv, ⟨?_, fun k hk _ hp => ?_, fun p hp _ => ?_⟩,
    List.prefix_rfl, fun _ _ h => h⟩
  · rw [Nat.zero_add]
    exact Nat.le_of_eq htotal.symm
  · rw [Nat.zero_add, hbehind k hk]
    exact hkept k hp
  · obtain ⟨v, hv, hword⟩ := hfilled p hp
    have hlt : v < a.bytes.size := by
      rcases List.mem_append.1 hp with hp | hp
      · obtain ⟨q, -, rfl⟩ := List.mem_map.1 hp
        exact hrange.offsets _ v hv
      · obtain ⟨q, -, rfl⟩ := List.mem_map.1 hp
        exact trailingOffset_lt hrange (tail?_eq_some.1 hv)
    have hsmall := hi.vector
    change tv.size < 2 ^ 32 at hsmall
    refine ⟨v, hv, ?_⟩
    rw [Nat.zero_add]
    refine Record.wordAt?_of_getElem? (by omega) fun k hk => ?_
    have := hplaces p hp
    change tv.bytes[p.1 + k]? = (tv.order.encode 4 v)[k]?
    rw [hbehind _ (by omega), htv]
    exact hword k hk

end Assembler

end Ndr
