import Mathlib.Data.List.Forall2
import Ndr.Interface
import Ndr.Proofs.Assembly.Growth

/-!
What it means that a descriptor spells a type: what a vector holds for the parts of the type is
found from the descriptor, wherever it stands.
-/

namespace Ndr

/-! ### Parts of types -/

/-- The types that a type is made of. Those of a struct are found by its number. -/
def TypeSpec.parts : TypeSpec → List TypeSpec
  | .nested s => s.fields
  | .array s => [s.element]
  | .union u => u.armTypes
  | .pointer _ t | .converted _ _ t | .freeRep _ t | .pipe t => [t]
  | .scalar _ | .range .. | .struct _ | .ignore | .context _ | .align _ | .deletedNodes | .void
  | .opcode _ => []

/-- A bound whose kind and flags fit one byte. -/
structure Bound.Fits (b : Bound) : Prop where
  kind : b.kind < 16
  flags : b.flags &&& BoundFlag.kindMask = 0

/-- A type that is spelled out: none of its parts is a bare opcode, none has a routine to release
it ahead of a marker or of another such routine, and the bounds are whole. -/
inductive TypeSpec.Plain : TypeSpec → Prop where
  | intro {t : TypeSpec} (opcode : ∀ op, t ≠ .opcode op)
      (freeRep : ∀ routine inner, t = .freeRep routine inner →
        inner.isMarker = false ∧ ∀ other u, inner ≠ .freeRep other u)
      (bounds : ∀ s, t = .array s → ∀ p ∈ s.bounds ++ s.limits, p.lower.Fits ∧ p.upper.Fits)
      (parts : ∀ s ∈ t.parts, s.Plain) : t.Plain

/-- A struct whose fields are spelled out. -/
def StructSpec.Plain (s : StructSpec) : Prop := ∀ t ∈ s.fields, t.Plain

theorem TypeSpec.Plain.part {s t : TypeSpec} (h : t.Plain) (hs : s ∈ t.parts) : s.Plain := by
  obtain ⟨-, -, -, hparts⟩ := h
  exact hparts s hs

/-! ### What is read of a type -/

/-- The dimensions of an array as they are read. -/
def ArraySpec.dimensions (s : ArraySpec) : List Dimension :=
  TypeVector.dimensionsOf s.bounds (if s.kind.isVarying then some s.limits else none)

/-- The modifiers of an array, behind others. -/
def ArraySpec.modify (s : ArraySpec) (m : Modifiers) : Modifiers :=
  match Assembler.markOf s.string s.v1 with
  | some mark => m.add mark
  | none => m

/-- The slots of the fields of a struct. -/
def StructSpec.slots (s : StructSpec) : List UInt32 :=
  s.hostSlots.getD ((List.range s.slotted.length).map UInt32.ofNat)

/-- A struct ends with a conformant array, itself or with a struct that does. -/
inductive StructSpec.EndsWith (a : Assembler) : StructSpec → ArraySpec → Prop where
  | array {s : StructSpec} {array : ArraySpec} (hlast : s.lastField? = some (.array array))
      (harray : array.kind.isConformant) : EndsWith a s array
  | struct {s inner : StructSpec} {id : StructId} {array : ArraySpec}
      (hlast : s.lastField? = some (.struct id)) (hinner : a.spec? id = some inner)
      (harray : EndsWith a inner array) : EndsWith a s array

/-- The kind of a struct tells the array that it ends with. -/
def StructKind.Tells (a : Assembler) (s : StructSpec) : StructKind → Prop
  | .fixed => ∀ array, ¬s.EndsWith a array
  | .conformant => ∃ array, s.EndsWith a array ∧ array.v1 = false
  | .v1Conformant => ∃ array, s.EndsWith a array ∧ array.v1 = true

/-- What an arm holds whose stream begins with `op`. -/
def ArmBody.of (op : Opcode) (stream : Nat) : ArmBody :=
  match op with
  | .void => .empty
  | .noArm => .absent
  | _ => .stream stream

/-- The definition of an array. -/
def TypeForm.arrayAt? : TypeForm → Option Nat
  | .array _ _ _ definition => some definition
  | _ => none

/-- The layout of a struct is at `index`. -/
structure Layout.Lays (l : Layout) (index : Nat) (s : StructSpec) : Prop where
  count : l.slotCount index = .ok s.slotted.length
  length : s.slots.length = s.slotted.length
  slots : ∀ k slot, s.slots[k]? = some slot → l.slot index k = .ok slot.toNat

/-! ### Spelling -/

mutual

/-- A descriptor, behind some modifiers, spells a type of a finished assembly. -/
inductive Spells (i : Interface) (a : Assembler) : Modifiers → TypeSpec → Descriptor → Prop where
  | scalar {m : Modifiers} {o : Nat} {kind : Scalar} :
      Spells i a m (.scalar kind) ⟨o, m, .scalar kind⟩
  | range {m : Modifiers} {o : Nat} {kind : Scalar} {lower upper : UInt32} :
      Spells i a m (.range kind lower upper)
        ⟨o, { m with range := some (lower, upper) }, .scalar kind⟩
  | struct {m : Modifiers} {o definition : Nat} {id : StructId} {s : StructSpec} {props : UInt8}
      {kind : StructKind} (hs : a.spec? id = some s) (hkind : kind.Tells a s)
      (hoffset : a.offset? id = some definition) :
      Spells i a m (.struct id) ⟨o, m, .struct kind props definition⟩
  | nested {m : Modifiers} {o align layout : Nat} {s : StructSpec} {fields : List Descriptor}
      (hlayout : i.layout.Lays layout s)
      (hfields : List.Forall₂ (Spells i a {}) s.fields fields) :
      Spells i a m (.nested s) ⟨o, m, .nested align layout fields⟩
  | array {m : Modifiers} {o definition : Nat} {s : ArraySpec} {props : UInt8} {e : Descriptor}
      (hdefinition : i.vector.arrayDefinition definition s.kind.isVarying =
        .ok ⟨definition, s.dimensions, e⟩)
      (helement : Spells i a {} s.element e) :
      Spells i a m (.array s) ⟨o, s.modify m, .array s.kind props s.bounds.length definition⟩
  | encapsulated {m : Modifiers} {o definition : Nat} {u : UnionSpec} {props : UInt8}
      (hfield : u.switchField = none) (hunion : SpellsUnion i a u definition) :
      Spells i a m (.union u) ⟨o, m, .encapsulatedUnion props definition⟩
  | switched {m : Modifiers} {o definition : Nat} {u : UnionSpec} {props : UInt8} {field : UInt32}
      (hfield : u.switchField = some field) (hunion : SpellsUnion i a u definition) :
      Spells i a m (.union u) ⟨o, m, .switchedUnion props field.toNat definition⟩
  | pointer {m : Modifiers} {o pointee : Nat} {kind : PointerKind} {props : UInt8} {t : TypeSpec}
      {d : Descriptor} (hstream : i.vector.stream pointee = .ok d) (hd : Spells i a {} t d) :
      Spells i a m (.pointer kind t) ⟨o, m, .pointer kind props pointee⟩
  | ignore {m : Modifiers} {o : Nat} : Spells i a m .ignore ⟨o, m, .ignore⟩
  | converted {m : Modifiers} {o wire : Nat} {kind : ConversionKind} {routine : UInt32}
      {props : UInt8} {t : TypeSpec} {d : Descriptor} (hstream : i.vector.stream wire = .ok d)
      (hd : Spells i a {} t d) :
      Spells i a m (.converted kind routine t) ⟨o, m, .converted kind props routine.toNat wire⟩
  | freeRep {m : Modifiers} {routine : UInt32} {t : TypeSpec} {d : Descriptor}
      (hd : Spells i a { m with freeRep := some routine.toNat } t d) :
      Spells i a m (.freeRep routine t) d
  | pipe {m : Modifiers} {o element : Nat} {props : UInt8} {t : TypeSpec} {d : Descriptor}
      (hstream : i.vector.stream element = .ok d) (hd : Spells i a {} t d) :
      Spells i a m (.pipe t) ⟨o, m, .pipe props element⟩
  | context {m : Modifiers} {o : Nat} {direction : ContextDirection} :
      Spells i a m (.context direction) ⟨o, m, .context direction⟩
  | align {m : Modifiers} {o : Nat} {boundary : Boundary} :
      Spells i a m (.align boundary.toNat) ⟨o, m, .align boundary⟩
  | deletedNodes {m : Modifiers} {o : Nat} : Spells i a m .deletedNodes ⟨o, m, .deletedNodes⟩
  | void {m : Modifiers} {o : Nat} : Spells i a m .void ⟨o, m, .void⟩

/-- The definition of a union spells it. -/
inductive SpellsUnion (i : Interface) (a : Assembler) : UnionSpec → Nat → Prop where
  | intro {definition : Nat} {u : UnionSpec} {d : UnionDefinition} {arms : Nat → Arm}
      (hswitch : u.switch.isIntegral)
      (hdefinition : i.vector.unionDefinition definition = .ok d)
      (hd : d.switch = u.switch ∧ d.optional = u.optional ∧ d.armCount = u.arms.length)
      (hat : ∀ k ≤ u.arms.length,
        i.vector.armAt (d.armsAt + k * TypeVector.armWidth) = .ok (arms k))
      (hlabel : ∀ k label arm, u.arms[k]? = some (label, arm) → (arms k).label = label)
      (harm : ∀ k label arm, u.arms[k]? = some (label, arm) → SpellsArm i a arm (arms k).body)
      (hdefault : SpellsDefault i a u.default (arms u.arms.length).body) :
      SpellsUnion i a u definition

/-- The record of an arm spells its type. -/
inductive SpellsArm (i : Interface) (a : Assembler) : Option TypeSpec → ArmBody → Prop where
  | empty : SpellsArm i a none .empty
  | void : SpellsArm i a (some .void) .empty
  | stream {offset : Nat} {t : TypeSpec} {d : Descriptor} (ht : t ≠ .void)
      (hstream : i.vector.stream offset = .ok d) (hd : Spells i a {} t d) :
      SpellsArm i a (some t) (.stream offset)

inductive SpellsDefault (i : Interface) (a : Assembler) : DefaultArm → ArmBody → Prop where
  | missing : SpellsDefault i a .missing .absent
  | empty : SpellsDefault i a .empty .empty
  | arm {t : TypeSpec} {body : ArmBody} (h : SpellsArm i a (some t) body) :
      SpellsDefault i a (.arm t) body

end

end Ndr
