import Ndr.Proofs.Lockstep.Array
import Ndr.Proofs.Lockstep.Struct

/-!
Conformant structs in lock-step: the extents of the array at the end travel ahead of the outermost
struct, and the shape that writing takes from the value is the one that reading makes of them.
-/

namespace Ndr

/-! ### What writing has found -/

/-- A struct that ends with a conformant array of this shape, found through at most so many
structs. -/
inductive Marshal.Trails (env : Env) (trailing : Nat) (v1 : Bool) (shape : Shape) :
    Nat → StructDefinition → List Value → Scope → Prop where
  | array {levels dims : Nat} {props : UInt8} {d : StructDefinition} {slots : List Value}
      {scope : Scope} {f : Descriptor} {held : Value} {kind : ArrayKind} {a : ArrayDefinition}
      {elements : List Value}
      (hlast : (d.fields.filter Descriptor.isField).getLast? = some f)
      (hform : f.form = .array kind props dims trailing) (hkind : kind.isConformant)
      (hheld : slotValue env d.layout slots ((d.fields.filter Descriptor.isField).length - 1)
        = .ok held)
      (hparts : arrayParts env kind dims trailing held = .ok (a, elements))
      (hshape : shapeOf a kind f.modifiers.isString elements scope = .ok shape)
      (hv1 : f.modifiers.isV1 = v1) : Trails env trailing v1 shape (levels + 1) d slots scope
  | struct {levels definition : Nat} {props : UInt8} {d s : StructDefinition}
      {slots slots' : List Value} {scope scope' : Scope} {f : Descriptor} {held : Value}
      {kind : StructKind}
      (hlast : (d.fields.filter Descriptor.isField).getLast? = some f)
      (hform : f.form = .struct kind props definition) (hkind : kind ≠ .fixed)
      (hheld : slotValue env d.layout slots ((d.fields.filter Descriptor.isField).length - 1)
        = .ok held)
      (hparts : structParts env definition held = .ok (s, slots', scope'))
      (h : Trails env trailing v1 shape levels s slots' scope') :
      Trails env trailing v1 shape (levels + 1) d slots scope

namespace Marshal

variable {env : Env} {outermost trailing levels : Nat} {d : StructDefinition} {slots : List Value}
  {scope : Scope} {v1 : Bool} {shape : Shape}

theorem trails_of_trailingShape
    (h : trailingShape env outermost trailing levels d slots scope = .ok (v1, shape)) :
    Trails env trailing v1 shape levels d slots scope := by
  induction levels generalizing d slots scope with
  | zero => exact absurd h Except.throw_ne_ok
  | succ levels ih =>
    unfold trailingShape at h
    split at h
    · exact absurd h Except.throw_ne_ok
    rename_i field tail htail
    obtain ⟨rfl, f, hlast, hf⟩ := conformantTail?_eq_some htail
    obtain ⟨held, hheld, h⟩ := Except.bind_eq_ok.1 h
    rcases hf with ⟨kind, props, dims, hform, hkind, rfl⟩ | ⟨kind, props, definition, hform, hkind, rfl⟩
    · obtain ⟨⟨a, elements⟩, hparts, h⟩ := Except.bind_eq_ok.1 h
      obtain ⟨s, hs, h⟩ := Except.bind_eq_ok.1 h
      obtain ⟨hv1, rfl⟩ := Prod.mk.inj (Except.pure_eq_ok.1 h)
      exact .array hlast hform hkind hheld hparts hs hv1
    · obtain ⟨⟨s, slots', scope'⟩, hparts, h⟩ := Except.bind_eq_ok.1 h
      exact .struct hlast hform hkind hheld hparts (ih h)

/-- Reading finds as many dimensions without a value. -/
theorem Trails.dims (side : Side) (previous : NodeTable)
    (h : Trails env trailing v1 shape levels d slots scope) :
    Unmarshal.trailingDims (env.receiver side previous) outermost trailing levels d =
      .ok (shape.length, v1) := by
  induction h with
  | @array levels dims props d slots scope f held kind a elements hlast hform hkind hheld hparts
      hshape hv1 =>
    have htail : conformantTail? d.fields trailing = some
        ((d.fields.filter Descriptor.isField).length - 1, .array f.modifiers kind dims trailing) := by
      unfold conformantTail?
      simp [hlast, hform, hkind]
    unfold Unmarshal.trailingDims
    obtain ⟨-, hdims, -⟩ := arrayParts_eq_ok hparts
    obtain ⟨-, -, hshapes⟩ := shapeOf_eq_ok hshape
    have hlength : dims = shape.length := by
      unfold ArrayDefinition.checkDims at hdims
      split at hdims
      · rename_i hdims'
        rw [hdims', hshapes.length_eq]
      · exact absurd hdims (by simp)
    simp only [htail, hlength, hv1]
  | @struct levels definition props d s slots slots' scope scope' f held kind hlast hform hkind
      hheld hparts h ih =>
    have htail : conformantTail? d.fields trailing = some
        ((d.fields.filter Descriptor.isField).length - 1, .struct definition) := by
      unfold conformantTail?
      simp [hlast, hform, hkind]
    unfold Unmarshal.trailingDims
    obtain ⟨hs, -, -⟩ := structParts_eq_ok hparts
    simp only [htail]
    exact Except.bind_eq_ok.2 ⟨s, hs, ih⟩

end Marshal

namespace Lockstep

/-! ### What is asked of the end of a struct -/

/-- What is asked of the end of a struct whose array is to have this shape, through at most
`levels` structs: the fields ahead of the end are as `P` asks. -/
def TailHolds (env : Marshal.Env) (env' : Unmarshal.Env) (P : Descriptor → Value → Frame → Prop)
    (room : Nat) (shape : Shape) : Nat → Descriptor → Value → Frame → Prop
  | levels, d, v, F =>
    match d.form with
    | .array kind _ dims definition =>
      if kind.isConformant then
        ArrayValueHolds env env' P room F d.modifiers kind definition v ∧
          ∀ a elements, Marshal.arrayParts env kind dims definition v = .ok (a, elements) →
            Marshal.shapeOf a kind d.modifiers.isString elements F.scope = .ok shape
      else P d v F
    | .struct kind _ definition =>
      if kind = .fixed then P d v F
      else
        match levels with
        | 0 => True
        | levels + 1 => DefinitionHolds env P (TailHolds env env' P room shape levels) definition v
    | _ => P d v F

section

variable {env : Marshal.Env} {T : Terms} {N : Naming} {P : Descriptor → Value → Frame → Prop}
  {G : List Frame} {F : Frame} {x : Site Scope} {y : Site ScopeId} {room : Nat} {shape : Shape}
  (side : Side) (previous : NodeTable)

/-- The end of a struct is read with the extents of the shape that was written. -/
theorem lockedWalks_tail (hw : LockedWalks env T N P (Marshal.walk env room)
      (Unmarshal.walk (env.receiver side previous) room)) (levels : Nat) :
    LockedWalks env T N (TailHolds env (env.receiver side previous) P room shape levels)
      (Marshal.putTail env (Marshal.walk env room) shape levels)
      (Unmarshal.getTail (env.receiver side previous)
        (Unmarshal.walk (env.receiver side previous) room) (shape.map (·.extent)) levels) := by
  induction levels using Nat.strong_induction_on with
  | _ levels ih =>
  refine ⟨(Marshal.composes_grows _).putTail hw.grows _ _, fun {d v F G x y} h hm => ?_⟩
  obtain ⟨offset, modifiers, form⟩ := d
  unfold TailHolds at h
  unfold Marshal.putTail Unmarshal.getTail
  cases form with
  | array kind props dims definition =>
    cases hkind : kind.isConformant with
    | true =>
      simp only [hkind, if_true] at h ⊢
      exact locked_putArray side previous hw hm (some shape)
        (fun s hs => Option.some.inj hs ▸ ⟨hkind, h.2⟩) h.1
    | false =>
      simp only [hkind, Bool.false_eq_true, if_false] at h ⊢
      exact hw.reads h hm
  | struct kind props definition =>
    by_cases hkind : kind = .fixed
    · simp only [if_pos hkind] at h ⊢
      exact hw.reads h hm
    · simp only [if_neg hkind] at h ⊢
      cases levels with
      | zero => exact .throw _
      | succ levels =>
        refine .lift (fun _ => .bind (.put (puts_align _)) fun _ =>
          (Marshal.composes_grows _).putFields hw.grows
            (ih levels (Nat.lt_succ_self _)).grows _ _ _ _ _) fun ⟨s, slots, scope⟩ hparts => ?_
        obtain ⟨hs, rfl, hscope⟩ := Marshal.structParts_eq_ok hparts
        exact .right hs (locked_struct side previous hw (ih levels (Nat.lt_succ_self _)) hscope (h s hs))
  | _ => exact hw.reads h hm

/-- What is asked of a struct that ends with a conformant array: once its shape is found, the fields
ahead of the end are as `P` asks, and so is the end. -/
def OpenHolds (env : Marshal.Env) (env' : Unmarshal.Env) (P : Descriptor → Value → Frame → Prop)
    (room : Nat) (definition : Nat) (v : Value) : Prop :=
  ∀ s slots scope trailing v1 shape
    (h : Marshal.scopeOf env s.layout s.fields slots = .ok scope),
    env.vector.structDefinition definition = .ok s → v = .struct slots →
    Marshal.Trails env trailing v1 shape env.config.maxNesting s slots scope →
    env.interface.layout.Covers s.layout (s.fields.countP Descriptor.isField) ∧
      FieldsHold env P (TailHolds env env' P room shape env.config.maxNesting) s.layout slots
        (.ofStruct h) 0 s.fields

/-- A struct that ends with a conformant array is read with the extents ahead of it. -/
theorem locked_putStruct_open (hw : LockedWalks env T N P (Marshal.walk env room)
      (Unmarshal.walk (env.receiver side previous) room)) {kind : StructKind} (hkind : kind ≠ .fixed)
    {definition : Nat} {v : Value}
    (h : OpenHolds env (env.receiver side previous) P room definition v) :
    Locked env T N (fun _ => False) G
      (Marshal.putStruct env (Marshal.walk env room) kind definition v x)
      (Unmarshal.getStruct (env.receiver side previous)
        (Unmarshal.walk (env.receiver side previous) room) kind definition y)
      fun _ w => N.Copy v w := by
  have hfields : ∀ (s : StructDefinition) slots scope shape, Marshal.Grows (do
      Marshal.put (Writer.align s.align)
      Marshal.putFields env (Marshal.walk env room)
        (Marshal.putTail env (Marshal.walk env room) shape env.config.maxNesting) s.layout slots
        { x with scope, embedded := true } 0 s.fields) := fun _ _ _ _ =>
    .bind (.put (puts_align _)) fun _ =>
      (Marshal.composes_grows _).putFields hw.grows
        ((Marshal.composes_grows _).putTail hw.grows _ _) _ _ _ _ _
  unfold Marshal.putStruct Unmarshal.getStruct
  simp only [if_neg hkind]
  refine .lift (fun _ => .bind (.lift _) fun _ =>
    .bind ((Marshal.composes_grows _).putExtents _ _) fun _ => hfields _ _ _ _)
    fun ⟨s, slots, scope⟩ hparts => ?_
  obtain ⟨hs, rfl, hscope⟩ := Marshal.structParts_eq_ok hparts
  obtain ⟨hcount, -⟩ := Marshal.scopeOf_eq_ok hscope
  refine .right hs (.right hcount (.lift (fun _ =>
    .bind ((Marshal.composes_grows _).putExtents _ _) fun _ => hfields _ _ _ _) fun ⟨v1, shape⟩ hhoisted => ?_))
  refine .openStruct (.ofStruct hscope) _ (.bind ((Marshal.composes_grows _).putExtents _ _) fun _ =>
    hfields _ _ _ _) fun G' _ => ?_
  unfold Marshal.hoistedShape at hhoisted
  unfold Unmarshal.hoistedDims
  cases htrailing : s.trailing with
  | none => simp [htrailing] at hhoisted
  | some trailing =>
    simp only [htrailing] at hhoisted ⊢
    have htrails := Marshal.trails_of_trailingShape hhoisted
    obtain ⟨hcover, hholds⟩ := h s slots scope trailing v1 shape hscope hs rfl htrails
    refine .right (htrails.dims side previous)
      (.bind (locked_extents side previous shape) (fun _ => hfields _ _ _ _) ?_)
    rintro _ _ rfl
    exact locked_body side previous hw (lockedWalks_tail side previous hw _) hscope hcount hcover
      (meets_opened x y) hholds

end

end Lockstep

end Ndr
