import Ndr.Proofs.Assembly.Descriptor
import Ndr.Proofs.Assembly.Wrapping

/-!
What laying down types keeps to. Whatever holds of an assembler and of the records under way, it does so
throughout where bytes, words and references may be added to records, records to the assembler, layouts to
it, and structs queued. A reference tells what is known of its struct when it is laid down.
-/

namespace Ndr

namespace Assembler

/-! ### What references tell -/

/-- What a reference to a struct tells of it: its kind and its properties. -/
def Tells (a : Assembler) (id : StructId) (kind : StructKind) (props : UInt8) : Prop :=
  ∃ s array room, a.spec? id = some s ∧ a.trailingArray maxNesting s = .ok array ∧
    a.propsOf room (.struct id) = .ok props ∧ kind = kindOf array

variable {a b : Assembler} {id : StructId} {kind kind' : StructKind} {props props' : UInt8}

/-- Properties stay the same where more structs are known, and more nesting is looked through. -/
theorem propsOf_mono (h : ∀ id s, b.spec? id = some s → a.spec? id = some s) {room room' : Nat}
    (hroom : room' ≤ room) {t : TypeSpec} (e : b.propsOf room' t = .ok props) :
    a.propsOf room t = .ok props := by
  refine propsOf_wraps (fun id s hs => ⟨s, ?_, ?_⟩) hroom (.refl t) e
  · exact structSpec_eq_ok.2 (h id s (structSpec_eq_ok.1 hs))
  · exact List.forall₂_same.2 fun t _ => .refl t

theorem Tells.mono (h : b.Tells id kind props)
    (hspecs : ∀ id s, b.spec? id = some s → a.spec? id = some s) : a.Tells id kind props := by
  obtain ⟨s, array, room, hs, harray, hprops, rfl⟩ := h
  exact ⟨s, array, room, hspecs id s hs, trailingArray_mono hspecs harray,
    propsOf_mono hspecs (Nat.le_refl room) hprops, rfl⟩

/-- What is told of a struct stays the same where more structs are known. -/
theorem Tells.eq (h : b.Tells id kind props)
    (hspecs : ∀ id s, b.spec? id = some s → a.spec? id = some s) (h' : a.Tells id kind' props') :
    kind' = kind ∧ props' = props := by
  obtain ⟨s, array, room, hs, harray, hprops, rfl⟩ := h
  obtain ⟨s', array', room', hs', harray', hprops', rfl⟩ := h'
  obtain rfl := Option.some.inj ((hspecs id s hs).symm.trans hs')
  obtain rfl := Except.ok.inj ((trailingArray_mono hspecs harray).symm.trans harray')
  have h1 := propsOf_mono hspecs (Nat.le_max_left room room') hprops
  have h2 := propsOf_mono (a := a) (fun _ _ h => h) (Nat.le_max_right room room') hprops'
  exact ⟨rfl, Except.ok.inj (h2.symm.trans h1)⟩

/-! ### What is kept -/

/-- What is added to records keeps to `P` where `I` holds of the assembler. -/
structure Carries (I : Assembler → Prop) (P : Record → Prop) : Prop where
  byte : ∀ {r : Record} (b : UInt8), P r → P (r.byte b)
  word : ∀ {r : Record} (v : Nat), P r → P (r.word v)
  reference : ∀ {a : Assembler} {r : Record} {id : StructId} {kind : StructKind} {props : UInt8}, I a →
    a.Tells id kind props → P r → P (((r.op (.struct kind)).byte props).reference id)

/-- What is laid down keeps to `I`, and the records that are begun for it to `P`. -/
structure Upkeep (I : Assembler → Prop) (P : Record → Prop) : Prop extends Carries I P where
  empty : ∀ order, P { order }
  append : ∀ {a : Assembler} {r : Record}, I a → P r → I (a.append r).1
  layout : ∀ {a : Assembler} (layout : Array UInt32), I a → I { a with layout }
  queue : ∀ {a : Assembler} (id : StructId), I a → I (a.queue id)

variable {I : Assembler → Prop} {P Q : Record → Prop} {α : Type} {r : Record} {room : Nat}
  {write : Write}

namespace Carries

variable (h : Carries I P)

include h

theorem op (op : Opcode) (hr : P r) : P (r.op op) := h.byte _ hr

theorem bound (b : Bound) (hr : P r) : P (r.bound b) :=
  h.word _ (h.byte _ (h.byte _ (h.byte _ (h.byte _ hr))))

theorem boundPairs (pairs : List BoundPair) (hr : P r) : P (pairs.foldl Record.boundPair r) := by
  induction pairs generalizing r with
  | nil => exact hr
  | cons p pairs ih => exact ih (h.bound _ (h.bound _ hr))

theorem arms (arms : List (UInt32 × ArmRecord)) (hr : P r) : P (writeArms arms r) := by
  induction arms generalizing r with
  | nil => exact hr
  | cons arm arms ih =>
    exact ih (h.word _ (h.word _ (h.byte _ (h.byte _ (h.byte _ (h.byte _ (h.word _ hr)))))))

theorem unionHead (u : UnionSpec) (align : Nat) (hr : P r) : P (unionHead u align r) :=
  h.word _ (h.byte _ (h.byte _ (h.byte _ (h.op _ hr))))

end Carries

theorem keeps_malformed {P : α → Prop} (reason : Malformation) :
    Keeps I P (malformed reason : Assemble α) := Keeps.get.bind fun _ _ => .throw _

/-- A check ahead of an action. -/
theorem keeps_guard {P : α → Prop} {c : Prop} [Decidable c] {reason : Malformation}
    {y : PUnit → Assemble α} (h : Keeps I P (y ⟨⟩)) :
    Keeps I P (if c then malformed reason >>= y else y ⟨⟩) :=
  .ite (Keeps.bind (P := fun _ => False) (keeps_malformed reason) fun _ hu => hu.elim) h

/-- A way to write types that keeps to `I`, and to whatever the records keep to. -/
def WriteKeeps (I : Assembler → Prop) (write : Write) : Prop :=
  ∀ Q, Carries I Q → ∀ t r, Q r → Keeps I (fun w => Q w.1) (write t r)

namespace Upkeep

variable (h : Upkeep I P)

include h

theorem record : Keeps I P record := Keeps.get.bind fun _ _ => .pure (h.empty _)

theorem emit (hr : P r) : Keeps I (fun _ => True) (emit r) :=
  .modifyGet fun _ ha => ⟨h.append ha hr, trivial⟩

theorem emitLayout (s : StructSpec) : Keeps I (fun _ => True) (emitLayout s) := by
  refine Keeps.get.bind fun a ha => ?_
  dsimp only
  have hset : ∀ slots : List UInt32, Keeps I (fun _ => True) (do
      set { a with
        layout := a.layout.push (UInt32.ofNat s.slotted.length) ++ slots.toArray }
      return a.layout.size : Assemble Nat) := fun slots =>
    Keeps.bind (P := fun _ => True) (fun _ _ => ⟨h.layout _ ha, trivial⟩) fun _ _ => .pure trivial
  split
  · split
    · exact hset _
    · exact Keeps.bind (P := fun _ => True) (keeps_malformed _) fun _ _ => hset _
  · exact hset _

/-! #### Streams, arrays and unions -/

variable (hw : WriteKeeps I write)

include hw

theorem emitStream (t : TypeSpec) : Keeps I (fun _ => True) (emitStream write t) :=
  h.record.bind fun r hr => (hw P h.toCarries t r hr).bind fun _ hw => h.emit (h.op _ hw)

theorem emitArray (s : ArraySpec) : Keeps I (fun _ => True) (emitArray write s) := by
  unfold Assembler.emitArray
  refine keeps_guard (keeps_guard (h.record.bind fun r hr => ?_))
  have hhead := h.boundPairs (s.bounds ++ if s.kind.isVarying then s.limits else [])
    (h.byte filler (h.byte filler (h.byte filler (h.byte (UInt8.ofNat s.bounds.length) hr))))
  exact (hw P h.toCarries s.element _ hhead).bind fun _ hw => h.emit (h.op _ hw)

theorem emitArm (t : TypeSpec) : Keeps I (fun _ => True) (emitArm room write t) :=
  Keeps.get.bind fun _ _ => (Keeps.lift _).bind fun _ _ => (h.emitStream hw t).bind fun _ _ =>
    Keeps.get.bind fun _ _ => .pure trivial

theorem emitCases (arms : List (UInt32 × Option TypeSpec)) :
    Keeps I (fun _ => True) (emitCases room write arms) := by
  induction arms with
  | nil => exact .pure trivial
  | cons arm arms ih =>
    obtain ⟨label, arm⟩ := arm
    unfold Assembler.emitCases
    cases arm with
    | some t => exact (h.emitArm hw t).bind fun _ _ => ih.bind fun _ _ => .pure trivial
    | none => exact ih.bind fun _ _ => .pure trivial

theorem emitUnion (u : UnionSpec) : Keeps I (fun _ => True) (emitUnion room write u) := by
  unfold Assembler.emitUnion
  refine keeps_guard (Keeps.get.bind fun a _ => (Keeps.lift _).bind fun align _ => ?_)
  refine (h.emitCases hw u.arms).bind fun cases _ => ?_
  have hrest : ∀ default : ArmRecord, Keeps I (fun _ => True) (do
      Assembler.emit (writeArms (cases ++ [(0, default)])
        (Assembler.unionHead u align (← Assembler.record)))) :=
    fun default => h.record.bind fun r hr => h.emit (h.arms _ (h.unionHead u align hr))
  cases u.default with
  | missing | empty => exact hrest _
  | arm t => exact (h.emitArm hw t).bind fun _ _ => hrest _

end Upkeep

/-! #### Types -/

theorem keeps_writeFields (hw : WriteKeeps I write) (hq : Carries I Q) (specs : List TypeSpec)
    (last : Option Nat) (hr : Q r) : Keeps I (fun w => Q w.1) (writeFields write specs r last) := by
  induction specs generalizing r last with
  | nil => exact .pure hr
  | cons t specs ih => exact (hw Q hq t r hr).bind fun _ hw => ih _ hw

/-- A level of writing types keeps to what the levels below do. -/
theorem Upkeep.writeStep (h : Upkeep I P) (hw : WriteKeeps I write) (room : Nat) :
    WriteKeeps I (writeStep room write) := by
  intro Q hq t r hr
  cases t with
  | scalar kind => exact .pure (hq.op _ hr)
  | range kind lower upper => exact .pure (hq.op _ (hq.word _ (hq.word _ (hq.op _ hr))))
  | struct id =>
    refine Keeps.get.bind fun a ha => (Keeps.lift _).bind fun s hs => (Keeps.lift _).bind
      fun array harray => (Keeps.lift _).bind fun props hprops => ?_
    have htells : a.Tells id (kindOf array) props :=
      ⟨s, array, room + 1, structSpec_eq_ok.1 hs, harray, hprops, rfl⟩
    refine Keeps.bind (P := fun _ => True) (fun _ _ => ⟨h.queue id ha, trivial⟩) fun _ _ => ?_
    exact .pure (hq.reference ha htells hr)
  | nested s =>
    refine Keeps.get.bind fun a _ => (Keeps.lift _).bind fun align _ =>
      (h.emitLayout s).bind fun layout _ => ?_
    refine (keeps_writeFields hw hq s.fields none (hq.word _ (hq.byte _ (hq.op _ hr)))).bind
      fun w hw => .pure (hq.op _ hw)
  | array s =>
    refine Keeps.get.bind fun a _ => (Keeps.lift _).bind fun props _ =>
      (h.emitArray hw s).bind fun definition _ => .pure (hq.word _ (hq.byte _ (hq.byte _ (hq.op _ ?_))))
    split
    · exact hq.op _ hr
    · exact hr
  | union u =>
    obtain ⟨switch, field, arms, default, optional⟩ := u
    refine Keeps.get.bind fun a _ => (Keeps.lift _).bind fun props _ =>
      (h.emitUnion hw _).bind fun definition _ => .pure (hq.word _ ?_)
    cases field with
    | none => exact hq.byte _ (hq.op _ hr)
    | some field => exact hq.word _ (hq.byte _ (hq.op _ hr))
  | pointer kind pointee =>
    exact Keeps.get.bind fun a _ => (Keeps.lift _).bind fun props _ => (h.emitStream hw pointee).bind
      fun _ _ => .pure (hq.word _ (hq.byte _ (hq.op _ hr)))
  | converted kind routine wire =>
    exact Keeps.get.bind fun a _ => (Keeps.lift _).bind fun props _ => (h.emitStream hw wire).bind
      fun _ _ => .pure (hq.word _ (hq.word _ (hq.byte _ (hq.op _ hr))))
  | freeRep routine inner => exact hw Q hq inner _ (hq.word _ (hq.op _ hr))
  | pipe element =>
    exact Keeps.get.bind fun a _ => (Keeps.lift _).bind fun props _ => (h.emitStream hw element).bind
      fun _ _ => .pure (hq.word _ (hq.byte _ (hq.op _ hr)))
  | align boundary =>
    rcases writeStep_align room r boundary with ⟨b, -, he⟩ | he
    · rw [he]
      exact .pure (hq.op _ hr)
    · rw [he]
      exact keeps_malformed _
  | ignore | context | deletedNodes | void | opcode => exact .pure (hq.op _ hr)

theorem Upkeep.keeps_write (h : Upkeep I P) (room : Nat) : WriteKeeps I (Assembler.write room) := by
  induction room with
  | zero => exact fun _ _ _ _ _ => keeps_malformed _
  | succ room ih => exact h.writeStep ih room

/-! ### What is asked for -/

theorem Upkeep.writeParameters (h : Upkeep I P) (ps : List (UInt32 × TypeSpec)) (hr : P r) :
    Keeps I P (writeParameters ps r) := by
  induction ps generalizing r with
  | nil => exact .pure hr
  | cons p ps ih =>
    exact (h.keeps_write _ P h.toCarries p.2 _ (h.word _ hr)).bind fun _ hw => ih (h.op _ hw)

theorem Upkeep.parameters (h : Upkeep I P) (ps : List (UInt32 × TypeSpec)) :
    Keeps I (fun _ => True) (parameters ps) :=
  h.record.bind fun _ hr => (h.writeParameters ps (h.word _ hr)).bind fun _ hr => h.emit hr

theorem Upkeep.stream (h : Upkeep I P) (t : TypeSpec) : Keeps I (fun _ => True) (stream t) :=
  h.emitStream (h.keeps_write _) t

end Assembler

end Ndr
