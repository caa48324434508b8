import Mathlib.Data.List.Nodup
import Ndr.Proofs.Assembly.Record

/-!
Assembling only adds: whatever a step does, and whether it succeeds or not, the bytes, the layouts
and the structs that were there stay.
-/

namespace Ndr

namespace Assembler

/-! ### Structs -/

/-- The type of a struct, once it is defined. -/
def spec? (a : Assembler) (id : StructId) : Option StructSpec := a.structs[id]?.bind (·.spec)

/-- The offset of a struct, once it is laid down. -/
def offset? (a : Assembler) (id : StructId) : Option Nat := a.structs[id]?.bind (·.offset)

/-- The place of the array at the end of a struct, once it is laid down. -/
def trailing? (a : Assembler) (id : StructId) : Option TrailingArray :=
  a.structs[id]?.bind (·.trailing)

/-- What is known of a struct but whether it is queued. -/
def known (a : Assembler) (id : StructId) : Option StructEntry :=
  a.structs[id]?.map fun e => { e with queued := false }

/-- The bytes of an assembler; `f` tells the offset of a struct, and `g` that of the array at its
end. -/
def sheet (f g : StructId → Option Nat) (a : Assembler) : Sheet where
  bytes := a.bytes
  places := a.references.map (fun p => (p.1, f p.2)) ++
    a.trailingReferences.map fun p => (p.1, g p.2)

/-- `b` is `a` later on. -/
structure Later (f g : StructId → Option Nat) (a b : Assembler) : Prop where
  order : b.order = a.order
  flags : b.flags = a.flags
  sheet : (a.sheet f g).Extends (b.sheet f g)
  sound : (a.sheet f g).Sound → (b.sheet f g).Sound
  layout : a.layout.toList <+: b.layout.toList
  specs : ∀ id s, a.spec? id = some s → b.spec? id = some s

/-- What laying down types does. -/
structure Grown (f g : StructId → Option Nat) (a b : Assembler) : Prop extends Later f g a b where
  known : ∀ id, b.known id = a.known id

/-- An action that only adds, and gives results of which `P` holds. -/
def Adds {α : Type} (f g : StructId → Option Nat) (P : α → Prop) (x : Assemble α) : Prop :=
  ∀ a, Keeps (Grown f g a) P x

variable {f g : StructId → Option Nat} {a b c : Assembler} {α β : Type} {id : StructId}

theorem spec?_eq_known : a.spec? id = (a.known id).bind (·.spec) := by
  unfold spec? known
  cases a.structs[id]? <;> rfl

theorem offset?_eq_known : a.offset? id = (a.known id).bind (·.offset) := by
  unfold offset? known
  cases a.structs[id]? <;> rfl

theorem trailing?_eq_known : a.trailing? id = (a.known id).bind (·.trailing) := by
  unfold trailing? known
  cases a.structs[id]? <;> rfl

namespace Later

theorem refl : Later f g a a := ⟨rfl, rfl, .refl, fun h => h, List.prefix_rfl, fun _ _ h => h⟩

theorem trans (h : Later f g a b) (h' : Later f g b c) : Later f g a c where
  order := h'.order.trans h.order
  flags := h'.flags.trans h.flags
  sheet := h.sheet.trans h'.sheet
  sound hs := h'.sound (h.sound hs)
  layout := h.layout.trans h'.layout
  specs id s hs := h'.specs id s (h.specs id s hs)

/-- A change of neither the bytes nor the layouts nor the types of structs. -/
theorem of_eq (ho : b.order = a.order) (hf : b.flags = a.flags) (hb : b.bytes = a.bytes)
    (hr : b.references = a.references) (ht : b.trailingReferences = a.trailingReferences)
    (hl : b.layout = a.layout) (hs : ∀ id s, a.spec? id = some s → b.spec? id = some s) :
    Later f g a b := by
  have hsheet : b.sheet f g = a.sheet f g := by
    simp only [Assembler.sheet, hb, hr, ht]
  exact ⟨ho, hf, hsheet ▸ .refl, fun h => hsheet ▸ h, hl ▸ List.prefix_rfl, hs⟩

end Later

namespace Grown

theorem of_later (h : Later f g a b) (hk : b.structs = a.structs) : Grown f g a b :=
  ⟨h, fun id => by rw [Assembler.known, Assembler.known, hk]⟩

theorem refl : Grown f g a a := ⟨.refl, fun _ => rfl⟩

theorem trans (h : Grown f g a b) (h' : Grown f g b c) : Grown f g a c :=
  ⟨h.toLater.trans h'.toLater, fun id => (h'.known id).trans (h.known id)⟩

theorem offset?_eq (h : Grown f g a b) : b.offset? id = a.offset? id := by
  rw [offset?_eq_known, offset?_eq_known, h.known]

theorem trailing?_eq (h : Grown f g a b) : b.trailing? id = a.trailing? id := by
  rw [trailing?_eq_known, trailing?_eq_known, h.known]

end Grown

/-! ### Actions that only add -/

namespace Adds

variable {P : α → Prop} {Q : β → Prop} {x : Assemble α}

/-- From what is kept to what happened. -/
theorem ok (h : Adds f g P x) {r : α} (e : x a = .ok r b) : Grown f g a b ∧ P r :=
  (h a).ok .refl e

theorem mono {P' : α → Prop} (h : Adds f g P x) (hP : ∀ r, P r → P' r) : Adds f g P' x :=
  fun a => (h a).mono hP

theorem pure {r : α} (h : P r) : Adds f g P (pure r) := fun _ => .pure h

theorem bind {y : α → Assemble β} (hx : Adds f g P x) (hy : ∀ r, P r → Adds f g Q (y r)) :
    Adds f g Q (x >>= y) := fun a => (hx a).bind fun r hr => hy r hr a

/-- What is done with the state. -/
theorem get {y : Assembler → Assemble α} (h : ∀ a, Keeps (Grown f g a) P (y a)) :
    Adds f g P (get >>= y) := by
  intro a b hb
  have := h b b .refl
  show Ends _ _ (y b b)
  cases e : y b b with
  | ok r c =>
    rw [e] at this
    exact ⟨hb.trans this.1, this.2⟩
  | error _ c =>
    rw [e] at this
    exact hb.trans this

theorem lift (x : Except Fault α) : Adds f g (fun r => x = .ok r) (liftM x) := fun _ => .lift x

theorem ite {c : Prop} [Decidable c] {y : Assemble α} (hx : Adds f g P x) (hy : Adds f g P y) :
    Adds f g P (if c then x else y) := fun a => (hx a).ite (hy a)

end Adds

/-! ### Appending -/

variable {r r' : Record}

theorem size_le_fill (bytes : Array UInt8) : bytes.size ≤ (fill bytes).size := by
  rw [Record.size_fill]
  exact Nat.le_add_right _ _

/-- The places of an assembler after a record. -/
theorem mem_places_append {p : Nat × Option Nat} :
    p ∈ ((a.append r).1.sheet f g).places ↔ p ∈ (a.sheet f g).places ∨
      ∃ q ∈ (r.sheet f).places, p = ((fill a.bytes).size + q.1, q.2) := by
  simp only [sheet, Record.sheet, append, List.map_append, List.mem_append, List.mem_map]
  constructor
  · rintro ((h | ⟨_, ⟨q, hq, rfl⟩, rfl⟩) | h)
    · exact .inl (.inl h)
    · exact .inr ⟨_, ⟨q, hq, rfl⟩, rfl⟩
    · exact .inl (.inr h)
  · rintro ((h | h) | ⟨_, ⟨q, hq, rfl⟩, rfl⟩)
    · exact .inl (.inl h)
    · exact .inr h
    · exact .inl (.inr ⟨_, ⟨q, hq, rfl⟩, rfl⟩)

/-- A record behind the bytes keeps the places apart. -/
theorem sound_append (hs : (a.sheet f g).Sound) (hr : (r.sheet f).Sound) :
    ((a.append r).1.sheet f g).Sound := by
  have hsize : ((a.append r).1.sheet f g).bytes.size = (fill a.bytes).size + r.bytes.size := by
    simp [sheet, append]
  have hle := size_le_fill a.bytes
  refine ⟨fun p hp => ?_, ?_⟩
  · rw [hsize]
    rcases mem_places_append.1 hp with hp | ⟨q, hq, rfl⟩
    · obtain ⟨h1, h2⟩ := hs.words p hp
      change p.1 + 4 ≤ a.bytes.size at h2
      exact ⟨h1, by omega⟩
    · obtain ⟨h1, h2⟩ := hr.words q hq
      change q.1 + 4 ≤ r.bytes.size at h2
      have := Record.size_fill_mod a.bytes
      exact ⟨by dsimp only; omega, by dsimp only; omega⟩
  · have hperm : (((a.append r).1.sheet f g).places.map Prod.fst).Perm
        ((a.sheet f g).places.map Prod.fst ++
          ((r.sheet f).places.map Prod.fst).map ((fill a.bytes).size + ·)) := by
      simp only [sheet, Record.sheet, append, List.map_append, List.map_map, Function.comp_def,
        List.append_assoc]
      exact List.perm_append_comm.append_left _
    refine hperm.nodup_iff.2 (List.nodup_append.2 ⟨hs.nodup,
      hr.nodup.map fun _ _ h => Nat.add_left_cancel h, ?_⟩)
    -- the places of the record are behind all others
    rintro p hp q hq rfl
    obtain ⟨place, hplace, rfl⟩ := List.mem_map.1 hp
    obtain ⟨k, -, hk⟩ := List.mem_map.1 hq
    have h2 := (hs.words place hplace).2
    change place.1 + 4 ≤ a.bytes.size at h2
    omega

theorem grown_append (hr : (r.sheet f).Sound) : Grown f g a (a.append r).1 := by
  refine .of_later ⟨rfl, rfl, ⟨?_, fun p hp => mem_places_append.2 (.inl hp), fun p hp => ?_⟩,
    fun hs => sound_append hs hr, List.prefix_rfl, fun _ _ h => h⟩ rfl
  · simp [sheet, append, fill]
  · rcases mem_places_append.1 hp with hp | ⟨q, -, rfl⟩
    · exact .inl hp
    · exact .inr (Nat.le_trans (size_le_fill _) (Nat.le_add_right _ _))

theorem emit_eq_ok {n : Nat} : emit r a = .ok n b ↔
    n = (fill a.bytes).size ∧ b = (a.append r).1 := by
  unfold emit
  rw [modifyGet_eq_ok]
  show ((a.append r).2, (a.append r).1) = (n, b) ↔ _
  rw [Prod.mk.injEq, eq_comm, eq_comm (a := b)]
  rfl

theorem adds_emit (hr : (r.sheet f).Sound) : Adds f g (fun _ => True) (emit r) := by
  intro a
  exact .modifyGet fun b hb => ⟨hb.trans (grown_append hr), trivial⟩

theorem adds_malformed {P : α → Prop} (reason : Malformation) :
    Adds f g P (malformed reason) := .get fun _ => .throw _

/-- A check ahead of an action. -/
theorem Adds.guard {P : α → Prop} {c : Prop} [Decidable c] {reason : Malformation}
    {y : PUnit → Assemble α} (h : Adds f g P (y ⟨⟩)) :
    Adds f g P (if c then malformed reason >>= y else y ⟨⟩) :=
  .ite (Adds.bind (P := fun _ => False) (adds_malformed reason) fun _ hu => hu.elim) h

/-- A new record holds nothing. -/
theorem adds_record : Adds f g (fun r => (r.sheet f).Sound ∧ r.bytes.size = 0) record :=
  .get fun a => .pure ⟨⟨by simp [Record.sheet], by simp [Record.sheet]⟩, rfl⟩

/-- More layouts. -/
theorem grown_layout (more : Array UInt32) : Grown f g a { a with layout := a.layout ++ more } :=
  .of_later ⟨rfl, rfl, .refl, fun h => h, by simp, fun _ _ h => h⟩ rfl

theorem adds_emitLayout (s : StructSpec) : Adds f g (fun _ => True) (emitLayout s) := by
  unfold emitLayout
  refine .get fun a => ?_
  dsimp only
  have hset : ∀ slots : List UInt32, Keeps (Grown f g a) (fun _ => True) (do
      set { a with
        layout := a.layout.push (UInt32.ofNat s.slotted.length) ++ slots.toArray }
      return a.layout.size : Assemble Nat) := by
    refine fun slots => Keeps.bind (P := fun _ => True) (fun _ _ => ⟨?_, trivial⟩) fun _ _ =>
      .pure trivial
    rw [Array.push_eq_append, Array.append_assoc]
    exact grown_layout _
  split
  · split
    · exact hset _
    · exact Keeps.bind (P := fun _ => True) (adds_malformed _ _) fun _ _ => hset _
  · exact hset _

/-- Queueing a struct leaves what is known of it. -/
theorem known_queue (i : StructId) : (a.queue id).known i = a.known i := by
  unfold queue
  split
  · rename_i e he
    split
    · rfl
    · simp only [known, Array.getElem?_setIfInBounds]
      split
      · rename_i hi
        subst hi
        have hlt := (Array.getElem?_eq_some_iff.1 he).1
        rw [he, if_pos hlt]
        rfl
      · rfl
  · rfl

theorem grown_queue (id : StructId) : Grown f g a (a.queue id) := by
  have hs : ∀ i s, a.spec? i = some s → (a.queue id).spec? i = some s := fun i s hs => by
    rw [spec?_eq_known] at hs ⊢
    rwa [known_queue]
  refine ⟨?_, fun i => known_queue i⟩
  unfold queue at hs ⊢
  split
  · rename_i e he
    simp only [he] at hs
    split
    · exact .refl
    · rename_i hq
      rw [if_neg hq] at hs
      exact .of_eq rfl rfl rfl rfl rfl rfl hs
  · exact .refl

/-! ### Types -/

theorem continues_boundPairs (pairs : List BoundPair) (r : Record) :
    Record.Continues f r (pairs.foldl Record.boundPair r) := by
  induction pairs generalizing r with
  | nil => exact .refl
  | cons p pairs ih => exact (Record.continues_boundPair p).trans (ih _)

section

variable {write : Write}

/-- A way to write types that only adds. -/
def WriteAdds (f g : StructId → Option Nat) (write : Write) : Prop :=
  ∀ spec r, (r.sheet f).Sound → Adds f g (fun w => Record.Continues f r w.1) (write spec r)

variable (hw : WriteAdds f g write)

include hw

theorem adds_emitStream (spec : TypeSpec) : Adds f g (fun _ => True) (emitStream write spec) := by
  refine adds_record.bind fun r hr => (hw spec r hr.1).bind fun w hc => adds_emit ?_
  exact (Record.continues_op _).sound (hc.sound hr.1)

theorem adds_emitArray (s : ArraySpec) : Adds f g (fun _ => True) (emitArray write s) := by
  unfold emitArray
  refine .guard (.guard (adds_record.bind fun r hr => ?_))
  have hhead : ∀ b₀ b₁ b₂ b₃ : UInt8, ∀ pairs : List BoundPair, Record.Continues f r
      (pairs.foldl Record.boundPair ((((r.byte b₀).byte b₁).byte b₂).byte b₃)) := fun _ _ _ _ _ =>
    ((((Record.continues_byte _).trans (Record.continues_byte _)).trans
      (Record.continues_byte _)).trans (Record.continues_byte _)).trans (continues_boundPairs _ _)
  refine (hw s.element _ ((hhead _ _ _ _ _).sound hr.1)).bind fun w hc => adds_emit ?_
  exact (Record.continues_op _).sound (hc.sound ((hhead _ _ _ _ _).sound hr.1))

theorem adds_emitArm (room : Nat) (spec : TypeSpec) :
    Adds f g (fun _ => True) (emitArm room write spec) := by
  unfold emitArm
  refine .get fun a => (Adds.lift _ a).bind fun props _ => ?_
  refine (adds_emitStream hw spec a).bind fun stream _ => ?_
  exact Keeps.bind (P := fun _ => True) (Keeps.get.weaken) fun _ _ => .pure trivial

theorem adds_emitCases (room : Nat) (arms : List (UInt32 × Option TypeSpec)) :
    Adds f g (fun _ => True) (emitCases room write arms) := by
  induction arms with
  | nil => exact .pure trivial
  | cons arm arms ih =>
    obtain ⟨label, arm⟩ := arm
    unfold emitCases
    cases arm with
    | some spec => exact (adds_emitArm hw room spec).bind fun _ _ => ih.bind fun _ _ => .pure trivial
    | none => exact ih.bind fun _ _ => .pure trivial

end

theorem continues_arm (label : UInt32) (arm : ArmRecord) (r : Record) :
    Record.Continues f r (arm.write label r) :=
  ((((((Record.continues_word _).trans (Record.continues_byte _)).trans
    (Record.continues_byte _)).trans (Record.continues_byte _)).trans
    (Record.continues_byte _)).trans (Record.continues_word _)).trans (Record.continues_word _)

/-- The records of arms, one behind the other. -/
def writeArms (arms : List (UInt32 × ArmRecord)) (r : Record) : Record :=
  arms.foldl (fun r (label, arm) => arm.write label r) r

theorem continues_arms (arms : List (UInt32 × ArmRecord)) (r : Record) :
    Record.Continues f r (writeArms arms r) := by
  induction arms generalizing r with
  | nil => exact .refl
  | cons arm arms ih => exact (continues_arm _ _ _).trans (ih _)

/-- The head of the definition of a union. -/
def unionHead (u : UnionSpec) (align : Nat) (r : Record) : Record :=
  ((((r.op (.scalar u.switch)).byte (if u.optional then 1 else 0)).byte
    (UInt8.ofNat align)).byte filler).word u.arms.length

theorem continues_unionHead (u : UnionSpec) (align : Nat) (r : Record) :
    Record.Continues f r (unionHead u align r) :=
  ((((Record.continues_op _).trans (Record.continues_byte _)).trans
    (Record.continues_byte _)).trans (Record.continues_byte _)).trans (Record.continues_word _)

section

variable {write : Write} (hw : WriteAdds f g write)

include hw

theorem adds_emitUnion (room : Nat) (u : UnionSpec) :
    Adds f g (fun _ => True) (emitUnion room write u) := by
  unfold emitUnion
  refine .guard (.get fun a => (Adds.lift _ a).bind fun align _ => ?_)
  refine (adds_emitCases hw room u.arms a).bind fun cases _ => ?_
  have hrest : ∀ default : ArmRecord, Adds f g (fun _ => True) (do
      emit (writeArms (cases ++ [(0, default)]) (unionHead u align (← record)))) :=
    fun default => adds_record.bind fun r hr => adds_emit <|
      (continues_arms _ _).sound ((continues_unionHead u align r).sound hr.1)
  cases u.default with
  | missing | empty => exact hrest _ a
  | arm spec => exact (adds_emitArm hw room spec a).bind fun _ _ => hrest _ a

theorem adds_writeFields (specs : List TypeSpec) (r : Record) (last : Option Nat)
    (hr : (r.sheet f).Sound) :
    Adds f g (fun w => Record.Continues f r w.1) (writeFields write specs r last) := by
  induction specs generalizing r last with
  | nil => exact .pure .refl
  | cons spec specs ih =>
    refine (hw spec r hr).bind fun w hc => ?_
    exact (ih w.1 _ (hc.sound hr)).mono fun _ hc' => hc.trans hc'

omit hw in
/-- A marker is laid down as one of three. -/
theorem writeStep_align (room : Nat) (r : Record) (boundary : Nat) :
    (∃ b : Boundary, b.toNat = boundary ∧
      writeStep room write (.align boundary) r = pure (r.op (.align b), none)) ∨
    writeStep room write (.align boundary) r = malformed .badMarker := by
  by_cases h2 : boundary = 2
  · exact .inl ⟨.two, h2.symm, by subst h2; rfl⟩
  by_cases h4 : boundary = 4
  · exact .inl ⟨.four, h4.symm, by subst h4; rfl⟩
  by_cases h8 : boundary = 8
  · exact .inl ⟨.eight, h8.symm, by subst h8; rfl⟩
  · refine .inr ?_
    unfold writeStep
    split
    all_goals first | rfl | simp_all

/-- A level of writing types only adds where the levels below do. -/
theorem writeAdds_step (room : Nat) : WriteAdds f g (writeStep room write) := by
  intro spec r hr
  cases spec with
  | scalar kind => exact .pure (Record.continues_op _)
  | range kind lower upper =>
    exact .pure ((((Record.continues_op _).trans (Record.continues_word _)).trans
      (Record.continues_word _)).trans (Record.continues_op _))
  | struct id =>
    refine .get fun a => (Adds.lift _ a).bind fun s _ => ?_
    refine (Adds.lift _ a).bind fun array _ => (Adds.lift _ a).bind fun props _ => ?_
    refine Keeps.bind (P := fun _ => True) (fun _ _ => ⟨grown_queue id, trivial⟩) fun _ _ => ?_
    exact .pure (((Record.continues_op _).trans (Record.continues_byte _)).trans
      (Record.continues_reference _))
  | nested s =>
    refine .get fun a => (Adds.lift _ a).bind fun align _ => ?_
    refine (adds_emitLayout s a).bind fun layout _ => ?_
    have hc : Record.Continues f r (((r.op .beginNested).byte (UInt8.ofNat align)).word layout) :=
      ((Record.continues_op _).trans (Record.continues_byte _)).trans (Record.continues_word _)
    refine (adds_writeFields hw s.fields _ none (hc.sound hr) a).bind fun w hw => .pure ?_
    exact (hc.trans hw).trans (Record.continues_op _)
  | array s =>
    refine .get fun a => (Adds.lift _ a).bind fun props _ => ?_
    refine (adds_emitArray hw s a).bind fun definition _ => .pure ?_
    refine (((Record.Continues.trans ?_ (Record.continues_op _)).trans
      (Record.continues_byte _)).trans (Record.continues_byte _)).trans (Record.continues_word _)
    -- the array stands behind its mark, if it has one
    split
    · exact Record.continues_op _
    · exact .refl
  | union u =>
    obtain ⟨switch, field, arms, default, optional⟩ := u
    refine .get fun a => (Adds.lift _ a).bind fun props _ => ?_
    refine (adds_emitUnion hw room _ a).bind fun definition _ => .pure ?_
    cases field with
    | none =>
      exact ((Record.continues_op _).trans (Record.continues_byte _)).trans
        (Record.continues_word _)
    | some field =>
      exact (((Record.continues_op _).trans (Record.continues_byte _)).trans
        (Record.continues_word _)).trans (Record.continues_word _)
  | pointer kind pointee =>
    refine .get fun a => (Adds.lift _ a).bind fun props _ => ?_
    refine (adds_emitStream hw pointee a).bind fun stream _ => .pure ?_
    exact ((Record.continues_op _).trans (Record.continues_byte _)).trans (Record.continues_word _)
  | converted kind routine wire =>
    refine .get fun a => (Adds.lift _ a).bind fun props _ => ?_
    refine (adds_emitStream hw wire a).bind fun stream _ => .pure ?_
    exact (((Record.continues_op _).trans (Record.continues_byte _)).trans
      (Record.continues_word _)).trans (Record.continues_word _)
  | freeRep routine inner =>
    have hc : Record.Continues f r ((r.op .freeRep).word routine.toNat) :=
      (Record.continues_op _).trans (Record.continues_word _)
    exact (hw inner _ (hc.sound hr)).mono fun _ h => hc.trans h
  | pipe element =>
    refine .get fun a => (Adds.lift _ a).bind fun props _ => ?_
    refine (adds_emitStream hw element a).bind fun stream _ => .pure ?_
    exact ((Record.continues_op _).trans (Record.continues_byte _)).trans (Record.continues_word _)
  | align boundary =>
    rcases writeStep_align room r boundary with ⟨b, -, h⟩ | h
    · rw [h]
      exact .pure (Record.continues_op _)
    · rw [h]
      exact adds_malformed _
  | ignore | context | deletedNodes | void | opcode => exact .pure (Record.continues_op _)

end

theorem writeAdds_write (room : Nat) : WriteAdds f g (write room) := by
  induction room with
  | zero => exact fun _ _ _ => adds_malformed _
  | succ room ih => exact writeAdds_step ih room

end Assembler

end Ndr
