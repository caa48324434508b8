import Mathlib.Data.List.TakeWhile
import Ndr.Proofs.Lockstep.Bound
import Ndr.Proofs.Lockstep.Walk
import Ndr.Proofs.Odometer

/-!
The elements of arrays in lock-step: one after another, as a run of bytes, as the text of a
string, and as the part of an array that is sent.
-/

namespace Ndr

/-! ### Values put in place -/

/-- Cells with some values put in their places. -/
def placed (cells : Array Value) (values : List (Nat × Value)) : Array Value :=
  values.foldl (fun cells (place, v) => cells.setIfInBounds place v) cells

theorem size_placed (cells : Array Value) (values : List (Nat × Value)) :
    (placed cells values).size = cells.size := by
  induction values generalizing cells with
  | nil => rfl
  | cons v values ih => exact (ih _).trans (Array.size_setIfInBounds)

theorem getElem?_placed_of_notMem {cells : Array Value} {values : List (Nat × Value)} {i : Nat}
    (h : ∀ v ∈ values, v.1 ≠ i) : (placed cells values)[i]? = cells[i]? := by
  induction values generalizing cells with
  | nil => rfl
  | cons v values ih =>
    exact (ih fun w hw => h w (List.mem_cons_of_mem _ hw)).trans
      (Array.getElem?_setIfInBounds_ne (h v List.mem_cons_self))

/-- A place that was filled holds one of the values for it. -/
theorem getElem?_placed_of_mem {cells : Array Value} {values : List (Nat × Value)} {i : Nat}
    (hi : i < cells.size) (h : ∃ v ∈ values, v.1 = i) :
    ∃ v ∈ values, v.1 = i ∧ (placed cells values)[i]? = some v.2 := by
  induction values generalizing cells with
  | nil => simp at h
  | cons v values ih =>
    by_cases hlater : ∃ w ∈ values, w.1 = i
    · obtain ⟨w, hw, hwi, he⟩ := @ih (cells.setIfInBounds v.1 v.2) (by simpa using hi) hlater
      exact ⟨w, List.mem_cons_of_mem _ hw, hwi, he⟩
    · obtain ⟨w, hw, rfl⟩ := h
      rcases List.mem_cons.1 hw with rfl | hw
      · refine ⟨w, List.mem_cons_self, rfl, ?_⟩
        refine (getElem?_placed_of_notMem fun u hu he => hlater ⟨u, hu, he⟩).trans ?_
        simp [hi]
      · exact absurd ⟨w, hw, rfl⟩ hlater

/-- Reading value after value, each into its place, is reading them all. -/
theorem foldlM_placed (y : Unmarshalling Value) (places : List Nat) (cells : Array Value) :
    places.foldlM (fun cells place => return cells.setIfInBounds place (← y)) cells =
      (fun ws => placed cells (places.zip ws)) <$> repeatM places.length y := by
  induction places generalizing cells with
  | nil => rfl
  | cons place places ih =>
    rw [List.foldlM_cons, List.length_cons, repeatM_succ]
    simp only [map_bind, bind_assoc, pure_bind, Functor.map_map]
    congr 1
    funext w
    exact ih _

/-! ### Zeros -/

namespace Unmarshal

variable {env : Env} {zero : Descriptor → Except Fault Value}

theorem not_leads_zeroFields (hz : ∀ d v, zero d = .ok v → ∀ c, ¬v.Leads c) {layout index : Nat}
    {fields : List Descriptor} {slots slots' : Array Value} (hs : ∀ v ∈ slots, ∀ c, ¬v.Leads c)
    (e : zeroFields env zero layout index fields slots = .ok slots') :
    ∀ v ∈ slots', ∀ c, ¬v.Leads c := by
  induction fields generalizing index slots with
  | nil => exact Except.ok.inj e ▸ hs
  | cons d fields ih =>
    obtain ⟨slot, -, e⟩ := Except.bind_eq_ok.1 e
    obtain ⟨w, hw, e⟩ := Except.bind_eq_ok.1 e
    refine ih (fun v hv => ?_) e
    rcases Array.mem_or_eq_of_mem_setIfInBounds hv with hv | rfl
    · exact hs v hv
    · exact hz d _ hw

theorem not_leads_zeroStruct (hz : ∀ d v, zero d = .ok v → ∀ c, ¬v.Leads c) {layout : Nat}
    {fields : List Descriptor} {v : Value} (e : zeroStruct env zero layout fields = .ok v)
    (c : CellId) : ¬v.Leads c := by
  obtain ⟨count, -, e⟩ := Except.bind_eq_ok.1 e
  obtain ⟨slots, hslots, e⟩ := Except.bind_eq_ok.1 e
  obtain rfl := Except.pure_eq_ok.1 e
  have hall := not_leads_zeroFields hz (fun v hv c hc => by
    rw [(Array.mem_replicate.1 hv).2] at hc
    cases hc) hslots
  rintro (_ | ⟨hv, hc⟩)
  exact hall _ (Array.mem_toList_iff.1 hv) _ hc

/-- A zero has no cells. -/
theorem not_leads_zeroFrom {fuel : Nat} {d : Descriptor} {v : Value}
    (e : zeroFrom env fuel d = .ok v) (c : CellId) : ¬v.Leads c := by
  induction fuel generalizing d v c with
  | zero => exact absurd e (by simp [zeroFrom])
  | succ fuel ih =>
    have hih : ∀ d v, zeroFrom env fuel d = .ok v → ∀ c, ¬v.Leads c := fun _ _ e c => ih e c
    obtain ⟨offset, modifiers, form⟩ := d
    unfold zeroFrom at e
    cases form with
    | struct kind props definition =>
      obtain ⟨s, -, e⟩ := Except.bind_eq_ok.1 e
      exact not_leads_zeroStruct hih e c
    | nested align layout fields => exact not_leads_zeroStruct hih e c
    | array kind props dims definition =>
      dsimp only at e
      split at e
      · obtain rfl := Except.ok.inj e
        rintro (_ | _ | ⟨hv, -⟩)
        exact absurd hv List.not_mem_nil
      · obtain ⟨a, -, e⟩ := Except.bind_eq_ok.1 e
        obtain ⟨total, -, e⟩ := Except.bind_eq_ok.1 e
        obtain ⟨_, -, e⟩ := Except.bind_eq_ok.1 e
        obtain ⟨w, hw, e⟩ := Except.bind_eq_ok.1 e
        obtain rfl := Except.pure_eq_ok.1 e
        rintro (_ | _ | ⟨hv, hc⟩)
        rw [(List.mem_replicate.1 hv).2] at hc
        exact ih hw c hc
    | scalar kind =>
      obtain rfl := Except.ok.inj e
      cases kind <;> rintro ⟨⟩
    | encapsulatedUnion | switchedUnion =>
      obtain rfl := Except.ok.inj e
      rintro (_ | _ | _ | ⟨⟨⟩⟩)
    | pointer | ignore | context | converted | pipe | align | deletedNodes | void | unhosted =>
      obtain rfl := Except.ok.inj e
      rintro ⟨⟩

theorem copy_zeroValue {N : Lockstep.Naming} {d : Descriptor} {v : Value}
    (e : zeroValue env d = .ok v) : N.Copy v v :=
  ⟨(Value.rename_eq_self fun c hc => absurd hc (not_leads_zeroFrom e c)).symm,
    fun c hc => absurd hc (not_leads_zeroFrom e c)⟩

end Unmarshal

/-! ### Bytes -/

section

variable {kind : Scalar} {element : Descriptor}

/-- The types of elements that travel as bytes. -/
theorem byteElement?_eq_some (h : element.byteElement? = some kind) :
    element.form = .scalar kind ∧ element.modifiers = {} ∧
      (kind = .byte ∨ kind = .usmall ∨ kind = .char) := by
  unfold Descriptor.byteElement? at h
  split at h
  · rename_i k hform
    split at h
    · rename_i hk
      obtain rfl := Option.some.inj h
      exact ⟨hform, hk.2, hk.1⟩
    · exact absurd h (by simp)
  · exact absurd h (by simp)

theorem byteOf?_of_word? (hk : kind = .byte ∨ kind = .usmall ∨ kind = .char) {v : Value} {n : Nat}
    (h : kind.word? v = some n) : ∃ b, kind.byteOf? v = some b := by
  rcases hk with rfl | rfl | rfl <;> cases v <;> simp_all [Scalar.word?, Scalar.byteOf?]

theorem eq_ofByte_of_byteOf? {v : Value} {b : UInt8} (h : kind.byteOf? v = some b) :
    v = kind.ofByte b := by
  unfold Scalar.byteOf? at h
  split at h
  all_goals first
    | exact Option.some.inj h ▸ rfl
    | exact absurd h (by simp)

theorem word?_ofByte (hk : kind = .byte ∨ kind = .usmall ∨ kind = .char) (b : UInt8) :
    kind.word? (kind.ofByte b) = some b.toNat := by
  rcases hk with rfl | rfl | rfl <;> rfl

/-- Elements are their bytes, or one of them is none. -/
theorem eq_map_ofByte {elements : List Value} {bytes : List UInt8}
    (hb : elements.filterMap kind.byteOf? = bytes) (h : bytes.length = elements.length) :
    elements = bytes.map kind.ofByte := by
  subst hb
  have hall := List.filterMap_length_eq_length.1 h
  clear h
  induction elements with
  | nil => rfl
  | cons v elements ih =>
    obtain ⟨b, hb⟩ := Option.isSome_iff_exists.1 (hall v List.mem_cons_self)
    rw [List.filterMap_cons_some hb, List.map_cons, ← eq_ofByte_of_byteOf? hb]
    exact congrArg _ (ih fun w hw => hall w (List.mem_cons_of_mem _ hw))

theorem alignedBytes_byte (order : ByteOrder) (b : UInt8) (position : Nat) :
    alignedBytes order 1 b.toNat position = [b] := by
  have hpad : padding position 1 = 0 := by simp [padding]
  rw [alignedBytes, hpad]
  cases order <;> simp [ByteOrder.encode, leastFirst]

end

namespace Lockstep

section

variable {env : Marshal.Env} {T : Terms} {N : Naming} {own : ScopeId → Prop} {G : List Frame}
  {F : Frame} {P : Descriptor → Value → Frame → Prop} {x : Site Scope} {y : Site ScopeId}
  {element : Descriptor} {kind : Scalar} {room : Nat} (side : Side) (previous : NodeTable)

/-! ### One after another -/

/-- What is read for each of some things, one after another. -/
theorem locked_forM {α β : Type} {f : α → Marshalling Unit} {z : Unmarshalling β}
    {R : α → β → Prop} (hf : ∀ a, Marshal.Grows (f a)) {as : List α}
    (h : ∀ a ∈ as, Locked env T N own G (f a) z fun _ b => R a b) :
    Locked env T N own G (as.forM f) (repeatM as.length z) fun _ bs => List.Forall₂ R as bs := by
  induction as with
  | nil => exact .pure .nil
  | cons a as ih =>
    rw [List.length_cons, repeatM_succ]
    refine .bind (h a List.mem_cons_self)
      (fun _ => (Marshal.composes_grows env).forM fun a _ => hf a) fun _ b hb => ?_
    exact (ih fun c hc => h c (List.mem_cons_of_mem _ hc)).map fun _ _ hbs => .cons hb hbs

/-- What never succeeds is followed by anything. -/
theorem Locked.of_ne_ok {α β : Type} {X : Marshalling α} {Y : Unmarshalling β} {Q : α → β → Prop}
    (h : ∀ s a t, X s ≠ .ok a t) : Locked env T N own G X Y Q where
  grows _ _ _ _ e := absurd e (h _ _ _)
  reads _ e := absurd e (h _ _ _)

theorem forM_ne_ok {α : Type} {f : α → Marshalling Unit} {as : List α} {a : α} (ha : a ∈ as)
    (h : ∀ s b t, f a s ≠ .ok b t) (s : Marshal.State) (b : Unit) (t : Marshal.State) :
    as.forM f s ≠ .ok b t := by
  induction as generalizing s with
  | nil => exact absurd ha List.not_mem_nil
  | cons c as ih =>
    intro e
    obtain ⟨_, s1, h1, e1⟩ := bind_eq_ok.1 e
    rcases List.mem_cons.1 ha with rfl | ha
    · exact h _ _ _ h1
    · exact ih ha _ e1

/-! ### Runs of bytes -/

/-- Only a scalar of its type is written under a scalar type. -/
theorem walk_scalar_ne_ok (hform : element.form = .scalar kind) {v : Value}
    (hv : kind.word? v = none) (s : Marshal.State) (a : Unit) (t : Marshal.State) :
    Marshal.walk env room element v x s ≠ .ok a t := by
  cases room with
  | zero => exact throw_ne_ok
  | succ room =>
    intro e
    obtain ⟨_, s1, h1, -⟩ := bind_eq_ok.1 e
    unfold Marshal.putForm at h1
    simp only [hform] at h1
    obtain ⟨w, h1, -⟩ := onPart_eq_ok.1 h1
    obtain ⟨n, hn, -⟩ := Writer.wrote_putScalar h1
    exact absurd (hv.symm.trans hn) (by simp)

variable (env x room) in
/-- Elements of one byte are written as a run. -/
theorem putElements_of_byteElement (hk : element.byteElement? = some kind) (elements : List Value) :
    (∃ bytes, elements = bytes.map kind.ofByte ∧
      Marshal.putElements env (Marshal.walk env room) element elements x = (do
        kind.checkRepresentation env.representation
        Marshal.put (Writer.putRun bytes))) ∨
      ∀ s a t, Marshal.putElements env (Marshal.walk env room) element elements x s ≠ .ok a t := by
  obtain ⟨hform, -, hbyte⟩ := byteElement?_eq_some hk
  unfold Marshal.putElements Marshal.putByteRun
  simp only [hk]
  by_cases hlen : (elements.filterMap kind.byteOf?).length = elements.length
  · left
    refine ⟨_, eq_map_ofByte rfl hlen, ?_⟩
    simp [hlen]
  · right
    simp only [ne_eq, hlen, not_false_eq_true, if_true, pure_bind, Bool.not_false]
    obtain ⟨v, hv, hnone⟩ : ∃ v ∈ elements, kind.byteOf? v = none := by
      by_contra hall
      push Not at hall
      exact hlen (List.filterMap_length_eq_length.2 fun v hv =>
        Option.isSome_iff_ne_none.2 (hall v hv))
    refine forM_ne_ok hv (walk_scalar_ne_ok hform ?_)
    cases hw : kind.word? v with
    | none => rfl
    | some n =>
      obtain ⟨b, hb⟩ := byteOf?_of_word? hbyte hw
      exact absurd (hnone.symm.trans hb) (by simp)

theorem putElements_of_none (hk : element.byteElement? = none) (elements : List Value) :
    Marshal.putElements env (Marshal.walk env room) element elements x =
      elements.forM fun v => Marshal.walk env room element v x := by
  unfold Marshal.putElements Marshal.putByteRun
  simp [hk]

theorem copies_ofByte (hk : kind = .byte ∨ kind = .usmall ∨ kind = .char) (bytes : List UInt8) :
    List.Forall₂ N.Copy (bytes.map kind.ofByte) (bytes.map kind.ofByte) :=
  List.forall₂_same.2 fun v hv => by
    obtain ⟨b, -, rfl⟩ := List.mem_map.1 hv
    exact .of_word? (word?_ofByte hk b)

variable (hw : LockedWalks env T N P (Marshal.walk env room)
  (Unmarshal.walk (env.receiver side previous) room)) (hm : Meets G F x y)

include hw hm in
/-- Elements that are all sent are read back. -/
theorem locked_elements {elements : List Value} (hP : ∀ v ∈ elements, P element v F)
    (hcount : elements.length ≤ env.config.maxElements) :
    Locked env T N (fun _ => False) G
      (Marshal.putElements env (Marshal.walk env room) element elements x)
      (Unmarshal.getElements (env.receiver side previous)
        (Unmarshal.walk (env.receiver side previous) room) element elements.length y)
      fun _ ws => List.Forall₂ N.Copy elements ws := by
  refine .right (if_pos hcount) ?_
  cases hk : element.byteElement? with
  | none =>
    rw [putElements_of_none hk]
    exact locked_forM (fun _ => hw.grows _ _ _) fun v hv => hw.reads (hP v hv) hm
  | some kind =>
    obtain ⟨-, -, hbyte⟩ := byteElement?_eq_some hk
    rcases putElements_of_byteElement env x room hk elements with
      ⟨bytes, rfl, e⟩ | hne
    · rw [e, List.length_map]
      refine .both (fun _ => .put (puts_putRun _)) fun _ _ => ?_
      refine Locked.behind (.wire (mirrored_putRun bytes)) ?_
      rintro _ bytes rfl
      exact .pure (copies_ofByte hbyte bytes)
    · exact .of_ne_ok hne

/-! ### Bytes one by one -/

omit hw hm in
/-- A run of bytes is read byte by byte. -/
theorem mirrored_run {r : Representation} (hk : kind = .byte ∨ kind = .usmall ∨ kind = .char)
    (hr : kind.checkRepresentation r = .ok ()) (bytes : List UInt8) :
    Mirrored (Writer.putRun bytes) (repeatM bytes.length (Reader.getScalar r kind))
      fun _ ws => ws = bytes.map kind.ofByte where
  mirrors hb e := by
    refine ⟨_, Writer.wrote_putRun hb e, fun {q tail} hp hq => ?_⟩
    suffices h : ∃ q', repeatM bytes.length (Reader.getScalar r kind) q =
        .ok (bytes.map kind.ofByte) q' ∧ Reader.Took q q' bytes.length tail by
      obtain ⟨q', hok, ht⟩ := h
      exact ⟨_, q', hok, ht, rfl⟩
    have hsize : kind.size = 1 := by rcases hk with rfl | rfl | rfl <;> rfl
    have henum : ∀ v, kind.checkEnum v = .ok () := by
      rcases hk with rfl | rfl | rfl <;> exact fun _ => rfl
    clear e hp
    induction bytes generalizing q with
    | nil => exact ⟨q, rfl, hq, rfl⟩
    | cons b bytes ih =>
      have hb := word?_ofByte hk b
      have hfirst : q.rest = alignedBytes r.integers kind.size b.toNat q.position ++
          (bytes ++ tail) := by
        rw [hsize, alignedBytes_byte]
        exact hq
      obtain ⟨q1, h1, t1⟩ := Reader.getScalar_ok hb hr (henum _) hfirst
      rw [hsize, alignedBytes_byte] at t1
      obtain ⟨q2, h2, t2⟩ := ih t1.rest
      refine ⟨q2, ?_, ?_⟩
      · rw [List.length_cons, repeatM_succ]
        exact bind_eq_ok.2 ⟨_, q1, h1, map_eq_ok.2 ⟨_, h2, rfl⟩⟩
      · have := t1.trans t2
        rwa [List.length_singleton, Nat.add_comm] at this

omit hw hm in
theorem fetch_bind {α β : Type} (p : Fetch α) (f : α → Fetch β) :
    Unmarshal.fetch (p >>= f) = Unmarshal.fetch p >>= fun a => Unmarshal.fetch (f a) := by
  unfold Unmarshal.fetch
  refine onPart_bind ?_ ?_ p f
  · exact fun _ _ => rfl
  · exact fun _ _ _ => rfl

omit hw hm in
theorem fetch_repeatM {α : Type} (z : Fetch α) (n : Nat) :
    Unmarshal.fetch (repeatM n z) = repeatM n (Unmarshal.fetch z) := by
  have hpure : ∀ a : List α, Unmarshal.fetch (pure a) = pure a :=
    onPart_pure fun _ => rfl
  induction n with
  | zero => exact hpure []
  | succ n ih =>
    rw [repeatM_succ, repeatM_succ, fetch_bind]
    congr 1
    funext a
    rw [map_eq_pure_bind, map_eq_pure_bind, fetch_bind, ih]
    congr 1

omit hw hm in
/-- A scalar without modifiers is read as it is. -/
theorem walk_of_byteElement (hk : element.byteElement? = some kind) :
    Unmarshal.walk (env.receiver side previous) (room + 1) element y =
      Unmarshal.fetch (Reader.getScalar env.representation kind) := by
  obtain ⟨hform, hmodifiers, -⟩ := byteElement?_eq_some hk
  unfold Unmarshal.walk Unmarshal.getForm
  simp only [hform, hmodifiers]
  unfold Unmarshal.getScalar
  have hrange : ∀ v, Unmarshal.checkRange kind {} v = .ok () := by
    intro v
    unfold Unmarshal.checkRange Scalar.range?
    cases v.toInt? <;> rfl
  simp only [hrange]
  exact bind_pure _

include hw hm in
/-- Elements that are sent in a row are read one by one. -/
theorem locked_run (elements : List Value) (hP : ∀ v ∈ elements, P element v F)
    (hroom : element.byteElement?.isSome → 0 < room) :
    Locked env T N (fun _ => False) G
      (Marshal.putElements env (Marshal.walk env room) element elements x)
      (repeatM elements.length (Unmarshal.walk (env.receiver side previous) room element y))
      fun _ ws => List.Forall₂ N.Copy elements ws := by
  cases hk : element.byteElement? with
  | none =>
    rw [putElements_of_none hk]
    exact locked_forM (fun _ => hw.grows _ _ _) fun v hv => hw.reads (hP v hv) hm
  | some kind =>
    obtain ⟨-, -, hbyte⟩ := byteElement?_eq_some hk
    obtain ⟨room, rfl⟩ := Nat.exists_eq_succ_of_ne_zero
      (Nat.ne_of_gt (hroom (by rw [hk]; rfl)))
    rcases putElements_of_byteElement env x (room + 1) hk elements with
      ⟨bytes, rfl, e⟩ | hne
    · rw [e, List.length_map]
      refine .lift (fun _ => .put (puts_putRun _)) fun _ hr => ?_
      rw [walk_of_byteElement side previous hk, ← fetch_repeatM]
      refine (Locked.wire (mirrored_run hbyte hr bytes)).mono ?_
      rintro _ _ rfl
      exact copies_ofByte hbyte bytes
    · exact .of_ne_ok hne

/-! ### The part that is sent -/

omit hw hm in
theorem forall₂_range' {R : Value → Value → Prop} {elements ws : List Value} {first length : Nat}
    (hlen : ((elements.drop first).take length).length = length)
    (h : List.Forall₂ R ((elements.drop first).take length) ws) :
    List.Forall₂ (fun k w => ∃ v, elements[k]? = some v ∧ R v w) (List.range' first length) ws := by
  obtain ⟨hws, hget⟩ := List.forall₂_iff_get.1 h
  refine List.forall₂_iff_get.2 ⟨by rw [List.length_range', ← hlen, hws], fun k hk hk' => ?_⟩
  rw [List.length_range'] at hk
  have hk1 : k < ((elements.drop first).take length).length := by rwa [hlen]
  refine ⟨_, ?_, hget k hk1 hk'⟩
  rw [List.get_eq_getElem, List.get_eq_getElem, List.getElem_range', Nat.one_mul,
    ← List.getElem?_drop, ← List.getElem?_take_of_lt hk, List.getElem?_eq_getElem hk1]

omit hw hm in
theorem foldlM_unit {α : Type} (f : α → Marshalling Unit) (as : List α) :
    as.foldlM (fun _ a => f a) () = as.forM f := by
  induction as with
  | nil => rfl
  | cons a as ih =>
    rw [List.foldlM_cons]
    exact congrArg _ (funext fun _ => ih)

/-- What is asked of an array of which elements are not sent: they are zero, and not too many. -/
structure PartHolds (env : Unmarshal.Env) (element : Descriptor) (shape : Shape)
    (elements : List Value) : Prop where
  zero : ∃ zero, Unmarshal.zeroValue env element = .ok zero ∧
    ∀ k v, k ∉ shape.indices → elements[k]? = some v → v = zero
  filled : elements.length - shape.count ≤ env.config.maxFilled

omit hw hm in
/-- Copies in all places that are sent make copies of all elements, where the others are zero. -/
theorem copies_placed {elements ws : List Value} {places : List Nat} {zero : Value}
    (hzero : N.Copy zero zero) (hothers : ∀ k v, k ∉ places → elements[k]? = some v → v = zero)
    (h : List.Forall₂ (fun k w => ∃ v, elements[k]? = some v ∧ N.Copy v w) places ws) :
    List.Forall₂ N.Copy elements
      (placed (Array.replicate elements.length zero) (places.zip ws)).toList := by
  obtain ⟨hlen, hzip⟩ := List.forall₂_iff_zip.1 h
  refine List.forall₂_iff_get.2 ⟨by simp [size_placed], fun k hk hk' => ?_⟩
  have hget : (placed (Array.replicate elements.length zero) (places.zip ws))[k]? =
      some ((placed (Array.replicate elements.length zero) (places.zip ws)).toList.get ⟨k, hk'⟩) := by
    rw [← Array.getElem?_toList, List.get_eq_getElem, List.getElem?_eq_getElem hk']
  by_cases hmem : ∃ p ∈ places.zip ws, p.1 = k
  · have hsize : k < (Array.replicate elements.length zero).size := by simpa using hk
    obtain ⟨⟨_, w⟩, hp, rfl, hw⟩ := getElem?_placed_of_mem hsize hmem
    obtain ⟨v, hv, hcopy⟩ := hzip hp
    rw [List.getElem?_eq_getElem hk, Option.some.injEq] at hv
    rw [Option.some.inj (hget.symm.trans hw), List.get_eq_getElem, hv]
    exact hcopy
  · have hnot : k ∉ places := by
      intro hkp
      obtain ⟨j, hj, hjk⟩ := List.mem_iff_getElem.1 hkp
      refine hmem ⟨(places[j], ws.get ⟨j, hlen ▸ hj⟩), ?_, hjk⟩
      exact List.mem_iff_getElem.2 ⟨j, by simp [hj, ← hlen], by simp⟩
    have hsame : (placed (Array.replicate elements.length zero) (places.zip ws))[k]? =
        (Array.replicate elements.length zero)[k]? :=
      getElem?_placed_of_notMem fun p hp he => hmem ⟨p, hp, he⟩
    rw [hget, Array.getElem?_replicate, if_pos hk, Option.some.injEq] at hsame
    rw [hsame, List.get_eq_getElem, hothers k _ hnot (List.getElem?_eq_getElem hk)]
    exact hzero

omit hw hm in
/-- What is read element by element of the part that is sent is put in its place. -/
theorem locked_getPart {α : Type} {X : Marshalling α} {walk' : Unmarshal.Walk}
    {shape : Shape} {elements : List Value} (htotal : shape.total = .ok elements.length)
    (hwithin : ∀ p ∈ shape, p.first + p.length ≤ p.extent)
    (hpart : PartHolds (env.receiver side previous) element shape elements)
    (h : Locked env T N own G X (repeatM shape.indices.length (walk' element y)) fun _ ws =>
      List.Forall₂ (fun k w => ∃ v, elements[k]? = some v ∧ N.Copy v w) shape.indices ws) :
    Locked env T N own G X (Unmarshal.getPart (env.receiver side previous) walk' element shape
      elements.length y) fun _ ws => List.Forall₂ N.Copy elements ws := by
  obtain ⟨⟨zero, hzero, hothers⟩, hfilled⟩ := hpart
  refine .right (Shape.transmitted_eq_ok hwithin htotal) ?_
  dsimp only
  rw [if_neg (Nat.not_lt.2 hfilled)]
  refine .right hzero ?_
  rw [Shape.foldIndices_eq, foldlM_placed, bind_map_left]
  exact h.behind fun _ _ hws =>
    .pure (copies_placed (Unmarshal.copy_zeroValue hzero) hothers hws)

include hw hm in
/-- The elements that are sent are read, and put in their places. -/
theorem locked_part {shape : Shape} {elements : List Value}
    (htotal : shape.total = .ok elements.length)
    (hwithin : ∀ p ∈ shape, p.first + p.length ≤ p.extent)
    (hcount : elements.length ≤ env.config.maxElements)
    (hP : ∀ k ∈ shape.indices, ∀ v, elements[k]? = some v → P element v F)
    (hpart : shape.isFull = false → PartHolds (env.receiver side previous) element shape elements ∧
      (element.byteElement?.isSome → 0 < room)) :
    Locked env T N (fun _ => False) G
      (Marshal.putPart env (Marshal.walk env room) element shape elements x)
      (if shape.isFull then Unmarshal.getElements (env.receiver side previous)
          (Unmarshal.walk (env.receiver side previous) room) element elements.length y
        else Unmarshal.getPart (env.receiver side previous)
          (Unmarshal.walk (env.receiver side previous) room) element shape elements.length y)
      fun _ ws => List.Forall₂ N.Copy elements ws := by
  unfold Marshal.putPart
  by_cases hfull : shape.isFull
  · have hrange : shape.contiguous? = some (0, elements.length) := by
      unfold Shape.contiguous?
      rw [if_pos hfull, htotal]
    rw [if_pos hfull, hrange]
    simp only [List.drop_zero, List.take_length, Nat.lt_irrefl, if_false]
    refine locked_elements side previous hw hm (fun v hv => ?_) hcount
    obtain ⟨k, hk⟩ := List.getElem?_of_mem hv
    refine hP k ?_ v hk
    rw [Shape.indices_full hfull, Shape.size_of_total htotal]
    exact List.mem_range.2 (List.getElem?_eq_some_iff.1 hk).1
  rw [if_neg hfull]
  obtain ⟨hpart, hroom⟩ := hpart (by simpa using hfull)
  refine locked_getPart side previous htotal hwithin hpart ?_
  cases hrange : shape.contiguous? with
  | some range =>
    obtain ⟨first, length⟩ := range
    -- an array of one dimension
    obtain ⟨p, rfl, rfl, rfl⟩ : ∃ p, shape = [p] ∧ first = p.first ∧ length = p.length := by
      unfold Shape.contiguous? at hrange
      rw [if_neg hfull] at hrange
      split at hrange
      · obtain ⟨rfl, rfl⟩ := Prod.mk.inj (Option.some.inj hrange)
        exact ⟨_, rfl, rfl, rfl⟩
      · exact absurd hrange (by simp)
    rw [Shape.indices_single, List.length_range']
    refine .check (fun hlt => ?_) ((Marshal.composes_grows _).putElements hw.grows _ _ _)
    have hlen : ((elements.drop p.first).take p.length).length = p.length :=
      Nat.le_antisymm (List.length_take_le _ _) (Nat.not_lt.1 hlt)
    have hrun := locked_run side previous hw hm ((elements.drop p.first).take p.length)
      (fun v hv => ?_) hroom
    · rw [hlen] at hrun
      exact hrun.mono fun _ _ h => forall₂_range' hlen h
    · obtain ⟨k, hk⟩ := List.getElem?_of_mem hv
      have hlt := (List.getElem?_eq_some_iff.1 hk).1
      rw [hlen] at hlt
      rw [List.getElem?_take_of_lt hlt, List.getElem?_drop] at hk
      refine hP (p.first + k) ?_ v hk
      rw [Shape.indices_single]
      exact List.mem_range'_1.2 ⟨Nat.le_add_right _ _, Nat.add_lt_add_left hlt _⟩
  | none =>
    dsimp only
    rw [Shape.foldIndices_eq, foldlM_unit]
    refine locked_forM (fun k => ?_) fun k hk => ?_
    · cases elements.toArray[k]? with
      | some v => exact hw.grows _ _ _
      | none => exact .throw _
    · cases hv : elements.toArray[k]? with
      | some v =>
        rw [List.getElem?_toArray] at hv
        exact (hw.reads (hP k hk v hv) hm).mono fun _ _ hcopy => ⟨v, hv, hcopy⟩
      | none => exact .throw _


/-! ### Strings -/

omit hw hm in
/-- Copies of a text and its terminator are the copies of the text once the terminator is taken
off. -/
theorem stripTerminator_of_copies {elements ws : List Value} (hkind : kind.isIntegral)
    (h : List.Forall₂ N.Copy (elements ++ [kind.zero]) ws) :
    ∃ text, Unmarshal.stripTerminator ws = .ok text ∧ List.Forall₂ N.Copy elements text := by
  obtain ⟨text, w, rfl, htext, hw⟩ : ∃ text w, ws = text ++ [w] ∧
      List.Forall₂ N.Copy elements text ∧ N.Copy kind.zero w := by
    induction elements generalizing ws with
    | nil =>
      obtain ⟨w, ws, hw, hws, rfl⟩ := List.forall₂_cons_left_iff.1 h
      obtain rfl := List.forall₂_nil_left_iff.1 hws
      exact ⟨[], w, rfl, .nil, hw⟩
    | cons v elements ih =>
      obtain ⟨w, ws, hw, hws, rfl⟩ := List.forall₂_cons_left_iff.1 h
      obtain ⟨text, z, rfl, htext, hz⟩ := ih hws
      exact ⟨w :: text, z, rfl, .cons hw htext, hz⟩
  refine ⟨text, ?_, htext⟩
  have hzero : kind.zero.toInt? = some 0 := by
    cases kind <;> first | rfl | exact absurd hkind (by decide)
  have hend : w.isTerminator = true := by
    rw [Value.isTerminator, hw.toInt?, hzero]
    rfl
  unfold Unmarshal.stripTerminator
  rw [List.getLast?_concat, List.dropLast_concat]
  simp only [hend, if_true]

omit hw hm in
theorem characterKind_eq_ok {d : ArrayDefinition} (h : d.characterKind = .ok kind) :
    d.dimensions.length = 1 ∧ d.element.form = .scalar kind ∧ kind.isIntegral := by
  unfold ArrayDefinition.characterKind at h
  split at h
  · exact absurd h (by simp)
  rename_i hdims
  split at h
  · rename_i k hform
    split at h
    · exact absurd h (by simp)
    rename_i hk
    have hk : k.isIntegral := by simpa using hk
    split at h
    · obtain rfl := Except.ok.inj h
      exact ⟨Decidable.not_not.1 hdims, hform, hk⟩
    · split at h
      · obtain rfl := Except.ok.inj h
        exact ⟨Decidable.not_not.1 hdims, hform, hk⟩
      · exact absurd h (by simp)
  · exact absurd h (by simp)

omit hw hm in
/-- A run of bytes and the zero behind it are read as one run. -/
theorem mirrored_run_zero {r : Representation} (hk : kind = .byte ∨ kind = .usmall ∨ kind = .char)
    (bytes : List UInt8) :
    Mirrored (do Writer.putRun bytes; Writer.putScalar r kind kind.zero)
      (Reader.getRun (bytes.length + 1)) fun _ bs => bs = bytes ++ [0] where
  mirrors hb e := by
    obtain ⟨_, w1, h1, e1⟩ := bind_eq_ok.1 e
    obtain ⟨n, hn, -, -, hwrote⟩ := Writer.wrote_putScalar e1
    have hsize : kind.size = 1 := by rcases hk with rfl | rfl | rfl <;> rfl
    have hzero : n = (0 : UInt8).toNat := by
      rcases hk with rfl | rfl | rfl <;> exact (Option.some.inj hn).symm
    rw [hsize, hzero, alignedBytes_byte] at hwrote
    refine ⟨_, (Writer.wrote_putRun hb h1).trans hwrote, fun {q tail} _ hq => ?_⟩
    obtain ⟨q', hok, ht⟩ := Reader.getRun_ok hq
    rw [List.length_append, List.length_singleton] at hok ht
    exact ⟨_, q', hok, by rwa [List.length_append], rfl⟩

omit hw hm in
theorem forM_concat {α : Type} (f : α → Marshalling Unit) (as : List α) (a : α) :
    (as ++ [a]).forM f = (do as.forM f; f a) := by
  induction as with
  | nil => exact bind_pure (f a)
  | cons c as ih =>
    show (f c >>= fun _ => (as ++ [a]).forM f) = (f c >>= fun _ => as.forM f) >>= fun _ => f a
    rw [ih, bind_assoc]

omit hw hm in
/-- A scalar without modifiers is written as it is. -/
theorem putWalk_of_byteElement (hk : element.byteElement? = some kind) (v : Value) :
    Marshal.walk env (room + 1) element v x =
      Marshal.put (Writer.putScalar env.representation kind v) := by
  obtain ⟨hform, hmodifiers, -⟩ := byteElement?_eq_some hk
  unfold Marshal.walk Marshal.putForm
  simp only [hform, hmodifiers]
  exact bind_pure _

include hw hm in
/-- A text and its terminator are read as elements. -/
theorem locked_text {elements : List Value} (hform : element.form = .scalar kind)
    (hP : ∀ v ∈ elements ++ [kind.zero], P element v F)
    (hcount : elements.length + 1 ≤ env.config.maxElements) :
    Locked env T N (fun _ => False) G
      (do Marshal.putElements env (Marshal.walk env room) element elements x
          Marshal.walk env room element kind.zero x)
      (Unmarshal.getElements (env.receiver side previous)
        (Unmarshal.walk (env.receiver side previous) room) element (elements.length + 1) y)
      fun _ ws => List.Forall₂ N.Copy (elements ++ [kind.zero]) ws := by
  refine .right (if_pos hcount) ?_
  cases hk : element.byteElement? with
  | none =>
    have hall : Locked env T N (fun _ => False) G _ _ _ :=
      locked_forM (fun v => hw.grows element v x) fun v hv => hw.reads (hP v hv) hm
    rw [List.length_append, List.length_singleton] at hall
    rwa [forM_concat, ← putElements_of_none hk] at hall
  | some k =>
    obtain ⟨hform', hmodifiers, hbyte⟩ := byteElement?_eq_some hk
    obtain rfl : kind = k := by
      have := hform.symm.trans hform'
      exact TypeForm.scalar.inj this
    rcases putElements_of_byteElement env x room hk elements with
      ⟨bytes, rfl, e⟩ | hne
    · cases room with
      | zero =>
        refine .of_ne_ok fun s a t e => ?_
        obtain ⟨_, s1, -, h2⟩ := bind_eq_ok.1 e
        exact throw_ne_ok h2
      | succ room =>
        have hput : (do
            Marshal.put (Writer.putRun bytes)
            Marshal.walk env (room + 1) element kind.zero x) =
            Marshal.put (do
              Writer.putRun bytes
              Writer.putScalar env.representation kind kind.zero) := by
          rw [putWalk_of_byteElement hk, Marshal.put_bind]
        rw [e, bind_assoc, List.length_map]
        refine .both (fun _ => .bind (.put (puts_putRun _)) fun _ => hw.grows _ _ _) fun _ _ => ?_
        rw [hput]
        refine Locked.behind (.wire (mirrored_run_zero hbyte bytes)) ?_
        rintro _ _ rfl
        have hzero : kind.zero = kind.ofByte 0 := by
          rcases hbyte with rfl | rfl | rfl <;> rfl
        have hall := copies_ofByte (N := N) hbyte (bytes ++ [0])
        rw [List.map_append, List.map_singleton, ← hzero] at hall
        rw [List.map_append, List.map_singleton, ← hzero]
        exact .pure hall
    · refine .of_ne_ok fun s a t e => ?_
      obtain ⟨_, s1, h1, -⟩ := bind_eq_ok.1 e
      exact hne _ _ _ h1

include hw hm in
/-- A string is read back without its terminator. -/
theorem locked_string {d : ArrayDefinition} {elements : List Value} {p : Span}
    (hkind : d.characterKind = .ok kind) (htext : ∀ v ∈ elements, v.isTerminator = false)
    (hp : p.first = 0) (hlength : p.length = elements.length + 1)
    (hP : ∀ v ∈ elements ++ [kind.zero], P d.element v F)
    (hcount : elements.length + 1 ≤ env.config.maxElements) :
    Locked env T N (fun _ => False) G
      (Marshal.putString env (Marshal.walk env room) d elements x)
      (Unmarshal.getString (env.receiver side previous)
        (Unmarshal.walk (env.receiver side previous) room) d.element [p] y)
      fun _ ws => List.Forall₂ N.Copy elements ws := by
  obtain ⟨-, hform, hintegral⟩ := characterKind_eq_ok hkind
  have hall : Value.textOf elements = elements :=
    List.takeWhile_eq_self_iff.2 fun v hv => by rw [htext v hv]; rfl
  unfold Marshal.putString Unmarshal.getString
  refine .lift (fun _ => .bind ((Marshal.composes_grows _).putElements hw.grows _ _ _) fun _ =>
    hw.grows _ _ _) fun k hk => ?_
  obtain rfl := Except.ok.inj (hkind.symm.trans hk)
  rw [hall]
  dsimp only
  rw [if_neg (not_not.2 hp), hlength]
  refine (locked_text side previous hw hm hform hP hcount).behind fun _ ws hws => ?_
  obtain ⟨text, hstrip, hcopies⟩ := stripTerminator_of_copies hintegral hws
  exact .lift hstrip hcopies

end

end Lockstep

end Ndr
