import Ndr.Marshal.Walk
import Ndr.Proofs.TypeVector.Alignment

/-!
What a walk looks up on its way fails for reasons of its own, and never for want of room in a
chunk, nor because a type has no end.
-/

namespace Ndr

variable {σ α β : Type}

/-! ### Lookups -/

/-- A fault of a transport without room. -/
@[simp] def Fault.IsExhaustion : Fault → Prop
  | .bufferExhausted _ => True
  | _ => False

/-- A fault that has nothing to do with lookups: that of a transport without room, or of a type that
contains itself. -/
@[simp] def Fault.IsForeign : Fault → Prop
  | .bufferExhausted _ | .endlessType _ => True
  | _ => False

theorem Fault.not_isExhaustion {e : Fault} (h : ¬e.IsForeign) : ¬e.IsExhaustion := by
  cases e <;> simp_all

/-- A lookup that fails for reasons of its own. -/
def Dry (x : Except Fault α) : Prop := ∀ e, x = .error e → ¬e.IsForeign

/-- A scan that fails for reasons of its own. -/
def DryScan (x : EStateM Fault σ α) : Prop := ∀ s e t, x s = .error e t → ¬e.IsForeign

namespace Dry

@[simp] theorem ok_iff (a : α) : Dry (.ok a) ↔ True := by simp [Dry]

@[simp] theorem pure_iff (a : α) : Dry (pure a) ↔ True := ok_iff a

@[simp] theorem error_iff (e : Fault) : Dry (.error e : Except Fault α) ↔ ¬e.IsForeign := by
  simp [Dry]

@[simp] theorem throw_iff (e : Fault) : Dry (throw e : Except Fault α) ↔ ¬e.IsForeign :=
  error_iff e

@[simp] theorem bind_iff (x : Except Fault α) (f : α → Except Fault β) :
    Dry (x >>= f) ↔ Dry x ∧ ∀ a, x = .ok a → Dry (f a) := by
  cases x with
  | error e => simp [bind, Except.bind]
  | ok a => simp [bind, Except.bind]

@[simp] theorem map_iff (x : Except Fault α) (f : α → β) : Dry (f <$> x) ↔ Dry x := by
  cases x <;> simp [Functor.map, Except.map]

@[simp] theorem ite_iff {c : Prop} [Decidable c] {x y : Except Fault α} :
    Dry (if c then x else y) ↔ (c → Dry x) ∧ (¬c → Dry y) := by
  split <;> simp_all

theorem mapM {f : α → Except Fault β} (h : ∀ a, Dry (f a)) (l : List α) : Dry (l.mapM f) := by
  induction l with
  | nil => simp
  | cons a l ih => simp [h, ih]

end Dry

namespace DryScan

@[simp] theorem pure_iff (a : α) : DryScan (pure a : EStateM Fault σ α) ↔ True := by
  simp [DryScan, Pure.pure, EStateM.pure]

@[simp] theorem get_iff : DryScan (get : EStateM Fault σ σ) ↔ True := by
  exact iff_true_intro fun s e t h => by cases h

@[simp] theorem set_iff (s : σ) : DryScan (set s : EStateM Fault σ PUnit) ↔ True := by
  exact iff_true_intro fun s e t h => by cases h

@[simp] theorem modify_iff (f : σ → σ) : DryScan (modify f : EStateM Fault σ PUnit) ↔ True := by
  exact iff_true_intro fun s e t h => by cases h

theorem throw {e : Fault} (h : ¬e.IsForeign) : DryScan (throw e : EStateM Fault σ α) := by
  rintro s _ t ⟨⟩
  exact h

theorem bind {x : EStateM Fault σ α} {f : α → EStateM Fault σ β} (hx : DryScan x)
    (hf : ∀ a, DryScan (f a)) : DryScan (x >>= f) := by
  intro s e t h
  rw [show (x >>= f) s = EStateM.bind x f s from rfl, EStateM.bind] at h
  split at h
  · exact hf _ _ e t h
  · cases h
    exact hx s e t ‹_›

theorem ite {c : Prop} [Decidable c] {x y : EStateM Fault σ α} (hx : DryScan x) (hy : DryScan y) :
    DryScan (if c then x else y) := by
  split
  · exact hx
  · exact hy

theorem lift {x : Except Fault α} (h : Dry x) : DryScan (liftM x : EStateM Fault σ α) := by
  cases x with
  | ok a => exact (pure_iff a).2 trivial
  | error e => exact throw ((Dry.error_iff e).1 h)

theorem map {x : EStateM Fault σ α} {f : α → β} (h : DryScan x) : DryScan (f <$> x) := by
  rw [map_eq_pure_bind]
  exact h.bind fun a => (pure_iff _).2 trivial

theorem repeatM {x : EStateM Fault σ α} (h : DryScan x) (n : Nat) : DryScan (repeatM n x) := by
  induction n with
  | zero => exact (pure_iff _).2 trivial
  | succ n ih =>
    rw [repeatM_succ]
    exact h.bind fun _ => ih.map

end DryScan

/-! ### Type vectors -/

namespace TypeVector

variable (tv : TypeVector)

theorem dry_readAt {offset : Nat} {scan : Scan α} (h : DryScan scan) : Dry (readAt offset scan) := by
  intro e he
  unfold readAt EStateM.run at he
  split at he
  · exact absurd he (by simp)
  · cases he
    exact h _ _ _ ‹_›

theorem dry_readByte : DryScan tv.readByte := by
  refine .bind (by simp) fun here => ?_
  split
  · exact .bind (by simp) fun _ => by simp
  · exact .throw (by simp)

theorem dry_skip (n : Nat) : DryScan (tv.skip n) :=
  .bind (by simp) fun _ => .ite (.bind (.throw (by simp)) fun _ => by simp) (by simp)

theorem dry_readWord : DryScan tv.readWord := by
  refine .bind (by simp) fun _ => .bind (by simp) fun here => ?_
  split
  · exact .bind (by simp) fun _ => by simp
  · exact .throw (by simp)

theorem dry_readNat : DryScan tv.readNat := tv.dry_readWord.bind fun _ => by simp

theorem dry_readOpcode : DryScan tv.readOpcode := by
  refine .bind (by simp) fun here => tv.dry_readByte.bind fun b => ?_
  split
  · simp
  · exact .throw (by simp)

theorem dry_expectEnd : DryScan tv.expectEnd := by
  refine .bind (by simp) fun here => tv.dry_readOpcode.bind fun op => ?_
  split
  · simp
  · exact .throw (by simp)

theorem dry_checkAlign (align : UInt8) (offset : Nat) : Dry (checkAlign align offset) := by
  simp [checkAlign]

theorem dry_readFields {next : Scan (Option Descriptor)} (h : DryScan next) (nested : Bool) (fuel : Nat)
    (before : List Descriptor) : DryScan (tv.readFields next nested fuel before) := by
  induction fuel generalizing before with
  | zero => exact .bind (by simp) fun _ => .throw (by simp)
  | succ fuel ih =>
    refine .bind (by simp) fun here => ?_
    split
    · exact .throw (by simp)
    · refine .ite (.ite (.bind (by simp) fun _ => by simp) (.throw (by simp))) ?_
      refine h.bind fun d => ?_
      split
      · exact ih _
      · exact .ite (.throw (by simp)) (by simp)

theorem dry_readDescriptorFrom (fuel start : Nat) (m : Modifiers) :
    DryScan (tv.readDescriptorFrom fuel start m) := by
  have hbyte := tv.dry_readByte
  have hnat := tv.dry_readNat
  induction fuel generalizing start m with
  | zero => exact .bind (by simp) fun _ => .throw (by simp)
  | succ fuel ih =>
    refine .bind (by simp) fun here => tv.dry_readOpcode.bind fun op => ?_
    cases op with
    | endOfList => exact .ite (by simp) (.throw (by simp))
    | mark mark => exact ih _ _
    | range => exact tv.dry_readWord.bind fun _ => tv.dry_readWord.bind fun _ => ih _ _
    | freeRep => exact hnat.bind fun _ => ih _ _
    | struct kind => exact hbyte.bind fun _ => hnat.bind fun _ => by simp
    | beginNested =>
      refine hbyte.bind fun _ => (DryScan.lift (dry_checkAlign _ _)).bind fun _ => hnat.bind fun _ => ?_
      exact (tv.dry_readFields (.bind (by simp) fun _ => ih _ _) _ _ _).bind fun _ => by simp
    | array kind => exact hbyte.bind fun _ => hbyte.bind fun _ => hnat.bind fun _ => by simp
    | encapsulatedUnion | pointer | pipe => exact hbyte.bind fun _ => hnat.bind fun _ => by simp
    | switchedUnion | conversion =>
      exact hbyte.bind fun _ => hnat.bind fun _ => hnat.bind fun _ => by simp
    | scalar | ignore | context | align | deletedNodes | void | unhosted => simp
    | noArm | endNested => exact .throw (by simp)

theorem dry_readDescriptor : DryScan tv.readDescriptor :=
  .bind (by simp) fun _ => tv.dry_readDescriptorFrom _ _ _

/-- A descriptor and the end of its list. -/
theorem dry_stream (offset : Nat) : Dry (tv.stream offset) := by
  refine dry_readAt (tv.dry_readDescriptor.bind fun d => ?_)
  split
  · exact tv.dry_expectEnd.bind fun _ => by simp
  · exact .throw (by simp)

theorem dry_readParameter : DryScan tv.readParameter := by
  refine tv.dry_readNat.bind fun _ => .bind (by simp) fun _ => tv.dry_readDescriptor.bind fun d => ?_
  split
  · exact tv.dry_expectEnd.bind fun _ => by simp
  · exact .throw (by simp)

theorem dry_parameters (offset : Nat) : Dry (tv.parameters offset) :=
  dry_readAt (tv.dry_readNat.bind fun _ => tv.dry_readParameter.repeatM _)

theorem dry_structDefinition (offset : Nat) : Dry (tv.structDefinition offset) :=
  dry_readAt <| tv.dry_readByte.bind fun _ => tv.dry_readByte.bind fun _ => (tv.dry_skip 2).bind fun _ =>
    tv.dry_readNat.bind fun _ => tv.dry_readNat.bind fun _ =>
    (tv.dry_readFields tv.dry_readDescriptor _ _ _).bind fun _ =>
    (DryScan.lift (dry_checkAlign _ _)).bind fun _ => by simp

theorem dry_readBoundPair : DryScan tv.readBoundPair := by
  have hbound : DryScan tv.readBound :=
    tv.dry_readByte.bind fun _ => tv.dry_readByte.bind fun _ => tv.dry_readByte.bind fun _ =>
      (tv.dry_skip 1).bind fun _ => tv.dry_readWord.bind fun _ => by simp
  exact hbound.bind fun _ => hbound.bind fun _ => by simp

theorem dry_arrayDefinition (offset : Nat) (varying : Bool) :
    Dry (tv.arrayDefinition offset varying) := by
  have helement : ∀ dims, DryScan (tv.readElement offset dims) := by
    refine fun dims => .bind (by simp) fun here => tv.dry_readDescriptor.bind fun d => ?_
    cases d with
    | some d => exact tv.dry_expectEnd.bind fun _ => by simp
    | none => exact .throw (by simp)
  have hpairs := fun n => tv.dry_readBoundPair.repeatM n
  refine dry_readAt (tv.dry_readByte.bind fun dims => .ite (.bind (.throw (by simp)) fun _ => ?_) ?_)
  all_goals
    refine (tv.dry_skip 3).bind fun _ => (hpairs _).bind fun bounds => ?_
    exact .ite ((hpairs _).map.bind fun limits => helement _)
      (.bind (by simp) fun limits => helement _)

theorem dry_unionDefinition (offset : Nat) : Dry (tv.unionDefinition offset) := by
  refine dry_readAt (tv.dry_readOpcode.bind fun op => ?_)
  cases op with
  | scalar switch =>
    have hrest : DryScan (do
        let flags ← tv.readByte
        let align ← tv.readByte
        tv.skip 1
        let armCount ← tv.readNat
        let armsAt ← get
        let needed := (armCount + 1) * armWidth
        if tv.size < armsAt + needed then throw (.truncatedVector armsAt needed)
        let align ← checkAlign align offset
        return { offset, switch, align, armCount, armsAt, optional := flags &&& optionalFlag ≠ 0 } :
          Scan UnionDefinition) := by
      refine tv.dry_readByte.bind fun _ => tv.dry_readByte.bind fun _ => (tv.dry_skip 1).bind fun _ =>
        tv.dry_readNat.bind fun _ => .bind (by simp) fun _ => ?_
      have halign : ∀ align, DryScan (liftM (checkAlign align offset) : Scan Nat) := fun align =>
        .lift (dry_checkAlign align offset)
      exact .ite (.bind (.throw (by simp)) fun _ => (halign _).bind fun _ => by simp)
        ((halign _).bind fun _ => by simp)
    exact .ite (.bind (.throw (by simp)) fun _ => hrest) hrest
  | _ => exact .throw (by simp)

theorem dry_armAt (offset : Nat) : Dry (tv.armAt offset) :=
  dry_readAt <| tv.dry_readWord.bind fun _ => tv.dry_readOpcode.bind fun _ => tv.dry_readByte.bind fun _ =>
    (tv.dry_skip 2).bind fun _ => tv.dry_readNat.bind fun _ => tv.dry_readWord.bind fun _ => by simp

theorem dry_findArm (u : UnionDefinition) (switch : Int) : Dry (tv.findArm u switch) := by
  have hcase : ∀ n offset, Dry (tv.findCase u.switch switch n offset) := by
    intro n
    induction n with
    | zero => simp [findCase]
    | succ n ih => simp [findCase, dry_armAt, ih]
  unfold findArm
  simp only [Dry.bind_iff, hcase, true_and]
  intro found _
  split <;> simp [dry_armAt]

end TypeVector

/-! ### Layouts, bounds and shapes -/

theorem Layout.dry_slotCount (l : Layout) (index : Nat) : Dry (l.slotCount index) := by
  unfold slotCount
  split <;> simp

theorem Layout.dry_slot (l : Layout) (index field : Nat) : Dry (l.slot index field) := by
  unfold slot
  simp only [Dry.bind_iff, l.dry_slotCount, true_and]
  intro count _
  split
  · simp
  · split <;> simp

theorem dry_checked (v : Int) : Dry (checked v) := by simp [checked]

theorem dry_applyOperator (operator : UInt8) (v : Int) : Dry (applyOperator operator v) := by
  unfold applyOperator roundUp
  split <;> simp [dry_checked]

theorem Bound.dry_resolve (b : Bound) (s : Scope) : Dry (b.resolve s) := by
  unfold resolve
  repeat' split
  all_goals simp [dry_applyOperator]

theorem dry_extentOf (kind : BoundKind) (lower upper : Int) : Dry (extentOf kind lower upper) := by
  simp [extentOf, countOf, checkedSpan, dry_checked]

theorem dry_lengthOf (kind : BoundKind) (first upper : Int) : Dry (lengthOf kind first upper) := by
  simp [lengthOf, countOf, checkedSpan, dry_checked]

theorem Shape.dry_checkedProduct (counts : List Nat) (acc : Nat) :
    Dry (checkedProduct counts acc) := by
  induction counts generalizing acc with
  | nil => simp [checkedProduct]
  | cons n counts ih => simp [checkedProduct, ih]

namespace ArrayDefinition

variable (d : ArrayDefinition)

theorem dry_checkDims (declared : Nat) : Dry (d.checkDims declared) := by simp [checkDims]

theorem dry_checkBounds (kind : ArrayKind) : Dry (d.checkBounds kind) := by simp [checkBounds]

theorem dry_characterKind : Dry d.characterKind := by
  unfold characterKind
  repeat' split
  all_goals simp

end ArrayDefinition

namespace Marshal

variable (env : Env) (d : ArrayDefinition)

theorem dry_boundValue (b : Bound) (scope : Scope) : Dry (boundValue b scope) := by
  simp only [boundValue, Dry.bind_iff, b.dry_resolve, true_and]
  intro r _
  split <;> simp

theorem dry_stringCount (text : Option Nat) : Dry (stringCount d text) := by
  unfold stringCount
  split <;> simp

theorem dry_partOf (text : Option Nat) (scope : Scope) (lower : Int) (extent : Nat)
    (limits : BoundPair) : Dry (partOf d text scope lower extent limits) := by
  simp [partOf, countOf, dry_boundValue, dry_stringCount, dry_lengthOf]

theorem dry_spanOf (text : Option Nat) (scope : Scope) (dim : Dimension) :
    Dry (spanOf d text scope dim) := by
  have hpart := dry_partOf d text scope
  cases hlimits : dim.limits <;>
    simp [spanOf, hlimits, hpart, dry_boundValue, dry_stringCount, dry_extentOf]

theorem dry_shapeOf (kind : ArrayKind) (isString : Bool) (elements : List Value) (scope : Scope) :
    Dry (shapeOf d kind isString elements scope) := by
  have hspans : ∀ text, Dry (d.dimensions.mapM (spanOf d text scope)) := fun text =>
    Dry.mapM (dry_spanOf d text scope) _
  simp [shapeOf, d.dry_checkBounds, d.dry_characterKind, hspans, Shape.total,
    Shape.dry_checkedProduct]

theorem dry_arrayParts (kind : ArrayKind) (dims definition : Nat) (v : Value) :
    Dry (arrayParts env kind dims definition v) := by
  simp only [arrayParts, Dry.bind_iff, TypeVector.dry_arrayDefinition, ArrayDefinition.dry_checkDims,
    true_and]
  intro _ _ _ _
  split <;> simp

/-! ### Structs -/

theorem dry_slotValue (layout : Nat) (slots : List Value) (field : Nat) :
    Dry (slotValue env layout slots field) := by
  simp only [slotValue, Dry.bind_iff, Layout.dry_slot, true_and]
  intro _ _
  split <;> simp

theorem dry_structSlots (v : Value) : Dry (structSlots v) := by
  unfold structSlots
  split <;> simp

theorem dry_scopeOf (layout : Nat) (fields : List Descriptor) (slots : List Value) :
    Dry (scopeOf env layout fields slots) := by
  have hvalues := fun l => Dry.mapM (f := fun field => Value.toInt? <$> slotValue env layout slots field)
    (fun field => by simp [dry_slotValue]) l
  simp [scopeOf, Layout.dry_slotCount, hvalues]

theorem dry_structParts (definition : Nat) (v : Value) : Dry (structParts env definition v) := by
  simp [structParts, TypeVector.dry_structDefinition, dry_structSlots, dry_scopeOf]

theorem dry_hoistedShape (s : StructDefinition) (slots : List Value) (scope : Scope) :
    Dry (hoistedShape env s slots scope) := by
  have hshape : ∀ outermost trailing levels s slots scope,
      Dry (trailingShape env outermost trailing levels s slots scope) := by
    intro outermost trailing levels
    induction levels with
    | zero => simp [trailingShape]
    | succ levels ih =>
      intro s slots scope
      unfold trailingShape
      split
      · simp
      · simp only [Dry.bind_iff, dry_slotValue, true_and]
        intro _ _
        split
        · simp [dry_arrayParts, dry_shapeOf]
        · simp [dry_structParts, ih]
  unfold hoistedShape
  split
  · simp
  · exact hshape _ _ _ _ _ _

/-! ### Unions, nodes, contexts and pipes -/

theorem dry_checkSwitch (field : Option Nat) (switch : Int) (scope : Scope) :
    Dry (checkSwitch field switch scope) := by
  unfold checkSwitch
  split
  · simp
  · split <;> simp

theorem dry_discriminant (kind : Scalar) (switch : Int) : Dry (discriminant kind switch) := by
  unfold discriminant
  split <;> simp

theorem dry_tokenOf (registry : Registry) (direction : ContextDirection)
    (h : Option ContextHandle) : Dry (tokenOf registry direction h) := by
  unfold tokenOf
  split
  · simp
  · split <;> simp

end Marshal

theorem Heap.dry_load (h : Heap) (c : CellId) : Dry (h.load c) := by
  unfold load
  split <;> simp

theorem NodeTable.dry_sight (t : NodeTable) (c : CellId) : Dry (t.sight c) := by
  unfold sight
  split <;> simp

theorem Interface.dry_routine (i : Interface) (index : Nat) : Dry (i.routine index) := by
  unfold routine
  split <;> simp

theorem Value.dry_context? (v : Value) : Dry v.context? := by
  unfold context?
  split <;> simp

theorem Value.dry_pipe? (v : Value) : Dry v.pipe? := by
  unfold pipe?
  split <;> simp

theorem Descriptor.dry_checkPiped (d : Descriptor) : Dry d.checkPiped := by simp [checkPiped]

theorem Scalar.dry_checkRepresentation (kind : Scalar) (r : Representation) :
    Dry (kind.checkRepresentation r) := by
  unfold checkRepresentation Representation.checkCharacters Representation.checkFloats
  split <;> simp

theorem Scalar.dry_checkEnum (kind : Scalar) (v : Int) : Dry (kind.checkEnum v) := by
  simp [checkEnum]

end Ndr
