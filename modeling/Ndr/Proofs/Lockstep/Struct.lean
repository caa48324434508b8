import Ndr.Proofs.Lockstep.Pointer

/-!
Structs in lock-step: the fields in wire order, each from its slot and into its slot, and the
scope that they make up.
-/

namespace Ndr

/-! ### Scopes of structs -/

theorem Marshal.slotValue_eq_ok {env : Marshal.Env} {layout k : Nat} {slots : List Value}
    {v : Value} : Marshal.slotValue env layout slots k = .ok v ↔
      ∃ p, env.interface.layout.slot layout k = .ok p ∧ slots[p]? = some v := by
  unfold Marshal.slotValue
  rw [Except.bind_eq_ok]
  refine exists_congr fun p => and_congr_right fun _ => ?_
  cases slots[p]? with
  | none => simp [throw, throwThe, MonadExceptOf.throw]
  | some w => simp [pure, Except.pure]

/-- What the scope of a struct is made from. -/
theorem Marshal.scopeOf_eq_ok {env : Marshal.Env} {layout : Nat} {fields : List Descriptor}
    {slots : List Value} {scope : Scope} (h : Marshal.scopeOf env layout fields slots = .ok scope) :
    env.interface.layout.slotCount layout = .ok slots.length ∧
      (∀ k v, k < fields.countP Descriptor.isField →
        Marshal.slotValue env layout slots k = .ok v → scope.get? k = v.toInt?) ∧
      (∀ k, fields.countP Descriptor.isField ≤ k → scope.get? k = none) ∧
      ∀ k v, scope.get? k = some v → FitsInt64 v := by
  unfold Marshal.scopeOf at h
  obtain ⟨count, hcount, h⟩ := Except.bind_eq_ok.1 h
  split at h
  · obtain ⟨_, h1, -⟩ := Except.bind_eq_ok.1 h
    exact absurd h1 Except.throw_ne_ok
  · rename_i hlen
    obtain ⟨values, hvalues, h⟩ := Except.bind_eq_ok.1 h
    obtain rfl := Except.pure_eq_ok.1 h
    have hall := Except.mapM_eq_ok.1 hvalues
    refine ⟨by rw [hcount, Decidable.not_not.1 hlen], fun k v hk hv => ?_, fun k hk => ?_,
      fun k v hv => ?_⟩
    · have hlen' := hall.length_eq
      rw [List.length_range] at hlen'
      have := hall.get (i := k) (by simpa using hk) (by omega)
      simp only [List.get_eq_getElem, List.getElem_range, hv] at this
      have : values[k]? = some v.toInt? := by
        rw [List.getElem?_eq_getElem (by omega)]
        simpa [bind, Except.bind, pure, Except.pure, eq_comm] using this
      simp [Scope.get?, this]
    · have hlen' := hall.length_eq
      rw [List.length_range] at hlen'
      simp [Scope.get?, List.getElem?_eq_none (l := values) (by omega : values.length ≤ k)]
    · simp only [Scope.get?, List.getElem?_toArray, Option.join_eq_some_iff] at hv
      obtain ⟨hlt, hv⟩ := List.getElem?_eq_some_iff.1 hv
      have := hall.get (i := k) (hall.length_eq ▸ hlt) hlt
      simp only [List.get_eq_getElem, hv] at this
      obtain ⟨w, -, hw⟩ := Except.bind_eq_ok.1 this
      exact Value.fitsInt64_toInt? (Except.pure_eq_ok.1 hw)

/-- Every slot of a struct is that of one of its first `count` fields. -/
def Layout.Covers (l : Layout) (index count : Nat) : Prop :=
  ∀ n, l.slotCount index = .ok n → ∀ p < n, ∃ k < count, l.slot index k = .ok p

namespace Lockstep

/-! ### Fields -/

/-- The frame of a struct: all its fields are read. -/
def Frame.ofStruct {env : Marshal.Env} {layout : Nat} {fields : List Descriptor}
    {slots : List Value} {scope : Scope}
    (h : Marshal.scopeOf env layout fields slots = .ok scope) : Frame where
  scope
  readable _ := True
  fits := (Marshal.scopeOf_eq_ok h).2.2.2

/-- What is asked of the fields from the number `index` on: `P` of all but the last, and `L` of
the last. -/
def FieldsHold (env : Marshal.Env) (P L : Descriptor → Value → Frame → Prop) (layout : Nat)
    (slots : List Value) (F : Frame) : Nat → List Descriptor → Prop
  | _, [] => True
  | index, d :: ds =>
    if d.isField then
      (∀ v, Marshal.slotValue env layout slots index = .ok v →
        if ds.any Descriptor.isField then P d v F else L d v F) ∧
      FieldsHold env P L layout slots F (index + 1) ds
    else P d .void F ∧ FieldsHold env P L layout slots F index ds

/-- What is asked of a struct: every slot is that of a field, and the fields are as `P` asks, the
last of them as `L` asks. -/
def StructHolds (env : Marshal.Env) (P L : Descriptor → Value → Frame → Prop) (layout : Nat)
    (fields : List Descriptor) (v : Value) : Prop :=
  ∀ slots scope (_ : v = .struct slots)
    (h : Marshal.scopeOf env layout fields slots = .ok scope),
    env.interface.layout.Covers layout (fields.countP Descriptor.isField) ∧
      FieldsHold env P L layout slots (.ofStruct h) 0 fields

/-- The slots of the first `n` fields are copies. -/
def SlotsCopied (env : Marshal.Env) (N : Naming) (layout : Nat) (slots : List Value) (n : Nat)
    (slots' : Array Value) : Prop :=
  ∀ k < n, ∀ p, env.interface.layout.slot layout k = .ok p →
    ∃ v w, slots[p]? = some v ∧ slots'[p]? = some w ∧ N.Copy v w

section

variable {env : Marshal.Env} {T : Terms} {N : Naming} {own : ScopeId → Prop}
  {P L : Descriptor → Value → Frame → Prop} {G : List Frame} {F : Frame}
  {walk last : Marshal.Walk} {walk' last' : Unmarshal.Walk} {x : Site Scope} {y : Site ScopeId}
  {s t : Marshal.State} {u : Unmarshal.State} {bytes tail : List UInt8} {layout : Nat}
  {slots : List Value} (side : Side) (previous : NodeTable)

/-- One more field. -/
theorem SlotsCopied.set {n p : Nat} {slots' : Array Value} {v w : Value}
    (h : SlotsCopied env N layout slots n slots') (hp : env.interface.layout.slot layout n = .ok p)
    (hv : slots[p]? = some v) (hsize : slots'.size = slots.length) (hw : N.Copy v w) :
    SlotsCopied env N layout slots (n + 1) (slots'.setIfInBounds p w) := by
  have hlt : p < slots'.size := by
    rw [hsize]
    exact (List.getElem?_eq_some_iff.1 hv).1
  intro k hk q hq
  by_cases hpq : p = q
  · subst hpq
    exact ⟨v, w, hv, by simp [hlt], hw⟩
  · have hkn : k < n := by
      refine Nat.lt_of_le_of_ne (Nat.le_of_lt_succ hk) fun hkn => hpq ?_
      rw [hkn, hp] at hq
      exact Except.ok.inj hq
    obtain ⟨v', w', h1, h2, h3⟩ := h k hkn q hq
    exact ⟨v', w', h1, by rw [Array.getElem?_setIfInBounds_ne hpq, h2], h3⟩

/-- Copies in all slots make a copy of the struct. -/
theorem SlotsCopied.struct {count : Nat} {slots' : Array Value}
    (h : SlotsCopied env N layout slots count slots')
    (hcount : env.interface.layout.slotCount layout = .ok slots.length)
    (hcover : env.interface.layout.Covers layout count) (hsize : slots'.size = slots.length) :
    N.Copy (.struct slots) (.struct slots'.toList) := by
  have hslot : ∀ p < slots.length, ∃ v w, slots[p]? = some v ∧ slots'[p]? = some w ∧ N.Copy v w := by
    intro p hp
    obtain ⟨k, hk, hkp⟩ := hcover _ hcount p hp
    exact h k hk p hkp
  refine ⟨?_, ?_⟩
  · rw [Value.rename_struct, Value.struct.injEq]
    refine List.ext_getElem? fun p => ?_
    rw [Array.getElem?_toList, List.getElem?_map]
    by_cases hp : p < slots.length
    · obtain ⟨v, w, hv, hw, hvw⟩ := hslot p hp
      rw [hv, hw, hvw.eq]
      rfl
    · rw [List.getElem?_eq_none (by omega), Array.getElem?_eq_none (by omega)]
      rfl
  · rintro c ⟨⟩
    rename_i v hv hc
    obtain ⟨p, hp⟩ := List.getElem?_of_mem hv
    obtain ⟨v', w, hv', -, hvw⟩ := hslot p (List.getElem?_eq_some_iff.1 hp).1
    obtain rfl := Option.some.inj (hp.symm.trans hv')
    exact hvw.knows c hc

/-- What is known of the scope of a struct whose first `n` fields were read. -/
def Entered (u : Unmarshal.State) (i : ScopeId) (F : Frame) (n : Nat) : Prop :=
  ∀ k < n, (u.scopeAt i).get? k = F.scope.get? k

/-- What a walk inside a struct leaves of the scope of the struct. -/
theorem scopeAt_of_course {G' : List Frame} {u' : Unmarshal.State} {i : ScopeId}
    {W : CellId → Prop} (h : Course env N (fun _ => False) W G G' u u') (hF : G[i]? = some F) :
    u'.scopeAt i = u.scopeAt i := by
  unfold Unmarshal.State.scopeAt
  rw [h.scopes _ (List.getElem?_eq_some_iff.1 hF).1 id]

/-- A field that is read is entered into its scope. -/
theorem enterField_reads {X : Marshalling Unit} {Y : Unmarshalling Value} {v : Value} {index : Nat}
    {a : Unit} (h : Locked env T N (fun _ => False) G X Y fun _ w => N.Copy v w)
    (hread : ∀ k, F.readable k) (hs : Marshal.Ready s) (e : X s = .ok a t)
    (hN : N.Covers t.nodes) (hm : Meets G F x y) (hfv : F.scope.get? index = v.toInt?)
    (hent : Entered u y.scope F index) (hwrote : Writer.Wrote s.writer t.writer bytes)
    (hu : Follows env T N G s u) (hr : u.reader.rest = bytes ++ tail) :
    ∃ w u₁ u' G', Y u = .ok w u₁ ∧
      Unmarshal.setField y.scope index w.toInt? u₁ = .ok () u' ∧
      u'.reader.rest = tail ∧ Follows env T N G' t u' ∧
      Course env N (· = y.scope) Unmarshal.None G G' u u' ∧ N.Copy v w ∧
      Entered u' y.scope F (index + 1) := by
  obtain ⟨w, u1, G1, e3, r3, f3, c3, hcopy⟩ := h.reads hs e hN List.prefix_rfl hwrote hu hr
  have hF1 := frame_mono c3.frames hm.frame
  have hold := scopeAt_of_course c3 hm.frame
  have hwv : w.toInt? = v.toInt? := hcopy.toInt?
  refine ⟨w, u1, _, G1, e3, Unmarshal.setField_eq_ok.2 rfl, r3, f3.setField hF1 fun _ n hn => ?_,
    (c3.mono fun _ => False.elim).trans_none course_setField, hcopy, fun k hk => ?_⟩
  · rw [hfv, ← hwv, hn]
  refine f3.get?_setField hF1 (fun _ => by rw [hfv, hwv]) (hread k) fun hki => ?_
  rw [hold]
  exact hent k (by omega)

/-- Fields that are written are read into their slots and into their scope. -/
theorem getFields_reads (hw : LockedWalks env T N P walk walk')
    (hl : LockedWalks env T N L last last') (hread : ∀ k, F.readable k) {ds : List Descriptor}
    {index : Nat} {slots' : Array Value} {a : Unit} (hs : Marshal.Ready s)
    (e : Marshal.putFields env walk last layout slots x index ds s = .ok a t)
    (hN : N.Covers t.nodes) (hm : Meets G F x y)
    (hfields : FieldsHold env P L layout slots F index ds)
    (hscope : ∀ k v, k < index + ds.countP Descriptor.isField →
      Marshal.slotValue env layout slots k = .ok v → F.scope.get? k = v.toInt?)
    (hent : Entered u y.scope F index) (hslots : SlotsCopied env N layout slots index slots')
    (hsize : slots'.size = slots.length) (hwrote : Writer.Wrote s.writer t.writer bytes)
    (hu : Follows env T N G s u) (hr : u.reader.rest = bytes ++ tail) :
    ∃ slots'' u' G', Unmarshal.getFields (env.receiver side previous) walk' last' layout y index ds
        slots' u = .ok slots'' u' ∧
      u'.reader.rest = tail ∧ Follows env T N G' t u' ∧
      Course env N (· = y.scope) Unmarshal.None G G' u u' ∧ slots''.size = slots.length ∧
      SlotsCopied env N layout slots (index + ds.countP Descriptor.isField) slots'' ∧
      Entered u' y.scope F (index + ds.countP Descriptor.isField) := by
  induction ds generalizing index slots' s u G bytes with
  | nil =>
    obtain ⟨-, rfl⟩ := pure_eq_ok.1 e
    obtain rfl := hwrote.unique .refl
    exact ⟨slots', u, G, rfl, hr, hu, .refl, hsize, hslots, hent⟩
  | cons d ds ih =>
    unfold Marshal.putFields at e
    unfold Unmarshal.getFields
    unfold FieldsHold at hfields
    by_cases hd : d.isField
    · rw [if_pos hd] at e hfields ⊢
      rw [List.countP_cons_of_pos hd] at hscope ⊢
      obtain ⟨v, s1, h1, e1⟩ := bind_eq_ok.1 e
      obtain ⟨hv, rfl⟩ := lift_eq_ok.1 h1
      obtain ⟨p, hp, hvp⟩ := Marshal.slotValue_eq_ok.1 hv
      -- the field goes through `walk` or `last`, and the others behind it
      have hrest : ∀ (X : Marshalling Unit) (Y : Unmarshalling Value),
          Locked env T N (fun _ => False) G X Y (fun _ w => N.Copy v w) →
          (do X; Marshal.putFields env walk last layout slots x (index + 1) ds :
            Marshalling Unit) s = .ok a t →
          ∃ slots'' u' G', (do
              let w ← Y
              Unmarshal.setField y.scope index w.toInt?
              let slot ← env.interface.layout.slot layout index
              Unmarshal.getFields (env.receiver side previous) walk' last' layout y (index + 1) ds
                (slots'.setIfInBounds slot w) : Unmarshalling (Array Value)) u = .ok slots'' u' ∧
            u'.reader.rest = tail ∧ Follows env T N G' t u' ∧
            Course env N (· = y.scope) Unmarshal.None G G' u u' ∧ slots''.size = slots.length ∧
            SlotsCopied env N layout slots (index + (ds.countP Descriptor.isField + 1)) slots'' ∧
            Entered u' y.scope F (index + (ds.countP Descriptor.isField + 1)) := by
        intro X Y hXY e
        obtain ⟨_, s1, h1, e1⟩ := bind_eq_ok.1 e
        obtain ⟨g1, -⟩ := hXY.grows hs h1
        obtain ⟨g2, -⟩ :=
          (Marshal.composes_grows _).putFields hw.grows hl.grows _ _ _ _ _ g1.ready e1
        obtain ⟨bytes1, hw1⟩ := g1.wrote
        obtain ⟨bytes2, hw2⟩ := g2.wrote
        obtain rfl := hwrote.unique (hw1.trans hw2)
        rw [List.append_assoc] at hr
        obtain ⟨w, u1, u2, G2, e3, e4, r4, f4, c4, hcopy, hent4⟩ := enterField_reads hXY hread hs
          h1 (hN.mono g2.nodes) hm (hscope index v (by omega) hv) hent hw1 hu hr
        obtain ⟨slots'', u5, G5, e5, r5, f5, c5, hs5, hc5, hent5⟩ := ih g1.ready e1
          (hm.mono c4.frames) hfields.2 (fun k v hk => hscope k v (by omega)) hent4
          (hslots.set hp hvp hsize hcopy) (by simpa using hsize) hw2 f4 r4
        refine ⟨slots'', u5, G5, ?_, r5, f5, c4.trans_none c5, hs5, ?_, ?_⟩
        · exact bind_eq_ok.2 ⟨w, u1, e3, bind_eq_ok.2 ⟨(), u2, e4,
            bind_eq_ok.2 ⟨p, u2, lift_eq_ok.2 ⟨hp, rfl⟩, e5⟩⟩⟩
        · rwa [Nat.add_right_comm] at hc5
        · rwa [Nat.add_right_comm] at hent5
      have hvalue := hfields.1 v hv
      by_cases hany : ds.any Descriptor.isField
      · simp only [hany, if_true] at e1 hvalue ⊢
        exact hrest _ _ (hw.reads hvalue hm) e1
      · simp only [hany] at e1 hvalue ⊢
        exact hrest _ _ (hl.reads hvalue hm) e1
    · rw [if_neg hd] at e hfields ⊢
      rw [List.countP_cons_of_neg hd] at hscope ⊢
      obtain ⟨_, s1, h1, e1⟩ := bind_eq_ok.1 e
      obtain ⟨g1, -⟩ := hw.grows _ _ _ hs h1
      obtain ⟨g2, -⟩ := (Marshal.composes_grows _).putFields hw.grows hl.grows _ _ _ _ _ g1.ready e1
      obtain ⟨bytes1, hw1⟩ := g1.wrote
      obtain ⟨bytes2, hw2⟩ := g2.wrote
      obtain rfl := hwrote.unique (hw1.trans hw2)
      rw [List.append_assoc] at hr
      obtain ⟨w, u1, G1, e3, r3, f3, c3, -⟩ :=
        (hw.reads hfields.1 hm).reads hs h1 (hN.mono g2.nodes) List.prefix_rfl hw1 hu hr
      obtain ⟨slots'', u5, G5, e5, r5, f5, c5, h5⟩ := ih g1.ready e1 (hm.mono c3.frames) hfields.2
        hscope (fun k hk => by rw [scopeAt_of_course c3 hm.frame, hent k hk]) hslots hsize hw2 f3 r3
      exact ⟨slots'', u5, G5, bind_eq_ok.2 ⟨w, u1, e3, e5⟩, r5, f5,
        (c3.mono fun _ => False.elim).trans_none c5, h5⟩

/-! ### Structs -/

/-- A struct is opened in reading with a scope of its own. -/
theorem Locked.openStruct {α β : Type} {X : Marshalling α}
    {Y : Site ScopeId → Unmarshalling β} {Q : α → β → Prop} (F : Frame) (count : Nat) (hX : Marshal.Grows X)
    (h : ∀ G', G <+: G' → Locked env T N (· = G'.length) (G' ++ [F]) X
      (Y { y with scope := G'.length, embedded := true }) Q) :
    Locked env T N own G X (Unmarshal.openStruct count y >>= Y) Q where
  grows := hX
  reads {s a t} hs e hN G' u bytes tail hG hwrote hu hr := by
    have hopen : Unmarshal.openStruct count y u = .ok
        { y with scope := G'.length, embedded := true }
        { u with scopes := u.scopes.push (Array.replicate count none) } := by
      refine bind_eq_ok.2 ⟨u.scopes.size, _, Unmarshal.openScope_eq_ok.2 ⟨rfl, rfl⟩, ?_⟩
      rw [hu.scopes]
      rfl
    have hf : Follows env T N (G' ++ [F]) s
        { u with scopes := u.scopes.push (Array.replicate count none) } := by
      refine hu.openScope fun k v _ hv => ?_
      simp only [Scope.get?, Array.getElem?_replicate] at hv
      split at hv <;> exact absurd hv (by simp)
    obtain ⟨b, u1, G1, e1, r1, f1, c1, hq⟩ :=
      (h G' hG).reads hs e hN List.prefix_rfl hwrote hf hr
    refine ⟨b, u1, G1, bind_eq_ok.2 ⟨_, _, hopen, e1⟩, r1, f1,
      ⟨(List.prefix_append _ _).trans c1.frames, fun i hi _ => ?_, ?_⟩, hq⟩
    · rw [c1.scopes i (by simp; omega) (Nat.ne_of_lt hi)]
      simp [Array.getElem?_push, hu.scopes, Nat.ne_of_lt hi]
    · have hsame : Unmarshal.Step (Copied env N) Unmarshal.None u
          { u with scopes := u.scopes.push (Array.replicate count none) } := .of_eq rfl rfl
      exact hsame.trans_none c1.step

/-- The place of the fields of a struct that was just opened. -/
theorem meets_opened {G' : List Frame} (x : Site Scope) (y : Site ScopeId) :
    Meets (G' ++ [F]) F { x with scope := F.scope, embedded := true }
      { y with scope := G'.length, embedded := true } :=
  ⟨by simp, rfl, rfl⟩

/-- The fields of a struct, behind its padding. -/
theorem locked_body (hw : LockedWalks env T N P walk walk')
    (hl : LockedWalks env T N L last last') {fields : List Descriptor} {align count : Nat}
    {scope : Scope} (hscope : Marshal.scopeOf env layout fields slots = .ok scope)
    (hcount : env.interface.layout.slotCount layout = .ok count)
    (hcover : env.interface.layout.Covers layout (fields.countP Descriptor.isField))
    (hm : Meets G (.ofStruct hscope) x y)
    (hfields : FieldsHold env P L layout slots (.ofStruct hscope) 0 fields) :
    Locked env T N (· = y.scope) G
      (do Marshal.put (Writer.align align)
          Marshal.putFields env walk last layout slots x 0 fields)
      (Unmarshal.getBody (env.receiver side previous) walk' last' align layout count fields y)
      fun _ w => N.Copy (.struct slots) w := by
  obtain ⟨hcount', hvalues, hnone, -⟩ := Marshal.scopeOf_eq_ok hscope
  obtain rfl := Except.ok.inj (hcount.symm.trans hcount')
  have hgrows : ∀ _ : Unit, Marshal.Grows (Marshal.putFields env walk last layout slots x 0 fields) :=
    fun _ => (Marshal.composes_grows _).putFields hw.grows hl.grows _ _ _ _ _
  refine .bind (.wire (mirrored_align align)) hgrows fun _ _ _ => ⟨hgrows (), ?_⟩
  intro s a t hs e hN G' u bytes tail hG hwrote hu hr
  have hm' := hm.mono hG
  have hempty : SlotsCopied env N layout slots 0 (Array.replicate slots.length .void) :=
    fun k hk => absurd hk (Nat.not_lt_zero k)
  obtain ⟨slots', u1, G1, e1, r1, f1, c1, hsize, hslots, hent⟩ := getFields_reads side previous
    hw hl (fun _ => trivial) hs e hN hm' hfields (fun k v hk hv => hvalues k v (by omega) hv)
    (fun k hk => absurd hk (Nat.not_lt_zero k)) hempty Array.size_replicate hwrote hu hr
  rw [Nat.zero_add] at hslots hent
  obtain ⟨u2, e2, r2, f2, c2⟩ := verifyLate_reads (· = y.scope) f1
    (frame_mono c1.frames hm'.frame) fun k v _ hv => by
      rcases Nat.lt_or_ge k (fields.countP Descriptor.isField) with hk | hk
      · rw [hent k hk, hv]
      · exact absurd ((hnone k hk).symm.trans hv) (by simp)
  exact ⟨.struct slots'.toList, u2, G1, bind_eq_ok.2 ⟨slots', u1, e1, bind_eq_ok.2 ⟨(), u2, e2,
    rfl⟩⟩, by rw [r2, r1], f2, c1.trans_none c2, hslots.struct hcount hcover hsize⟩

/-- A struct whose extents do not travel, or did ahead of it, with its scope. -/
theorem locked_struct (hw : LockedWalks env T N P walk walk')
    (hl : LockedWalks env T N L last last') {fields : List Descriptor}
    {align : Nat} {scope : Scope} (hscope : Marshal.scopeOf env layout fields slots = .ok scope)
    (h : StructHolds env P L layout fields (.struct slots)) :
    Locked env T N (fun _ => False) G
      (do Marshal.put (Writer.align align)
          Marshal.putFields env walk last layout slots { x with scope, embedded := true } 0 fields)
      (do let count ← env.interface.layout.slotCount layout
          let inner ← Unmarshal.openStruct count y
          Unmarshal.getBody (env.receiver side previous) walk' last' align layout count fields inner)
      fun _ w => N.Copy (.struct slots) w := by
  obtain ⟨hcount, -⟩ := Marshal.scopeOf_eq_ok hscope
  obtain ⟨hcover, hfields⟩ := h slots scope rfl hscope
  refine .right hcount (.openStruct (.ofStruct hscope) _ ?_ fun G' _ => ?_)
  · exact .bind (.put (puts_align _)) fun _ =>
      (Marshal.composes_grows _).putFields hw.grows hl.grows _ _ _ _ _
  · exact locked_body side previous hw hl hscope hcount hcover (meets_opened x y) hfields

theorem locked_putNested (hw : LockedWalks env T N P walk walk') {align : Nat}
    {fields : List Descriptor} {v : Value}
    (h : StructHolds env P P layout fields v) :
    Locked env T N (fun _ => False) G (Marshal.putNested env walk align layout fields v x)
      (Unmarshal.getNested (env.receiver side previous) walk' align layout fields y)
      fun _ w => N.Copy v w := by
  have hgrows : ∀ slots scope, Marshal.Grows (do
      Marshal.put (Writer.align align)
      Marshal.putFields env walk walk layout slots { x with scope, embedded := true } 0 fields) :=
    fun _ _ => .bind (.put (puts_align _)) fun _ =>
      (Marshal.composes_grows _).putFields hw.grows hw.grows _ _ _ _ _
  refine .lift (fun _ => .bind (.lift _) (hgrows _)) fun slots hslots => ?_
  obtain rfl := Marshal.structSlots_eq_ok hslots
  exact .lift (hgrows _) fun scope hscope => locked_struct side previous hw hw hscope h

/-- What is asked of a struct value by its definition. -/
def DefinitionHolds (env : Marshal.Env) (P L : Descriptor → Value → Frame → Prop)
    (definition : Nat) (v : Value) : Prop :=
  ∀ d, env.vector.structDefinition definition = .ok d → StructHolds env P L d.layout d.fields v

theorem locked_putStruct_fixed (hw : LockedWalks env T N P walk walk') {definition : Nat}
    {v : Value} (h : DefinitionHolds env P P definition v) :
    Locked env T N (fun _ => False) G (Marshal.putStruct env walk .fixed definition v x)
      (Unmarshal.getStruct (env.receiver side previous) walk' .fixed definition y)
      fun _ w => N.Copy v w := by
  have hgrows : ∀ (p : StructDefinition × List Value × Scope), Marshal.Grows (do
      Marshal.put (Writer.align p.1.align)
      Marshal.putFields env walk walk p.1.layout p.2.1 { x with scope := p.2.2, embedded := true } 0
        p.1.fields) :=
    fun _ => .bind (.put (puts_align _)) fun _ =>
      (Marshal.composes_grows _).putFields hw.grows hw.grows _ _ _ _ _
  refine .lift hgrows fun ⟨d, slots, scope⟩ hparts => ?_
  obtain ⟨hd, rfl, hscope⟩ := Marshal.structParts_eq_ok hparts
  exact .right hd (locked_struct side previous hw hw hscope (h d hd))

end

end Lockstep

end Ndr
