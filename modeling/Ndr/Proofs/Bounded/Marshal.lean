import Ndr.Proofs.Bounded.Odometer
import Ndr.Proofs.Lockstep.Tail

/-!
Writing in words: the slots of a struct, the text of a string, the elements of an array and the numbers
of the fields are looked up and counted on a machine that may come to a trap. Struct values have as many
slots as their layout, shapes come from definitions that were checked, and the array at the end of a
struct is the one whose shape was found ahead of it; so the walk does the same as without traps.
-/

namespace Ndr

open Bounded (fit item leading)

/-! ### Slots and ends of structs -/

theorem Layout.slotCount_lt {l : Layout} {index n : Nat} (h : l.slotCount index = .ok n) : n < 2 ^ 32 := by
  obtain ⟨e, -, rfl⟩ := Layout.slotCount_eq_ok_iff.1 h
  exact e.toNat_lt

/-- The last field of the rest is the last of all. -/
theorem getLast?_filter_cons {d f : Descriptor} {ds : List Descriptor}
    (h : (ds.filter Descriptor.isField).getLast? = some f) :
    ((d :: ds).filter Descriptor.isField).getLast? = some f := by
  by_cases hd : d.isField
  · rw [List.filter_cons_of_pos hd, List.getLast?_cons, h]
    rfl
  · rwa [List.filter_cons_of_neg hd]

/-- A field behind which there is none is the last of all. -/
theorem getLast?_filter_of_not_any {d : Descriptor} {ds : List Descriptor} (hd : d.isField)
    (h : ¬ds.any Descriptor.isField) : ((d :: ds).filter Descriptor.isField).getLast? = some d := by
  have hnone : ds.filter Descriptor.isField = [] :=
    List.filter_eq_nil_iff.2 fun e he hfield => h (List.any_eq_true.2 ⟨e, he, hfield⟩)
  rw [List.filter_cons_of_pos hd, hnone]
  rfl

/-- The conformant array at the end of a type, found through at most `levels` structs, is as `P` asks. -/
def TypeVector.EndsWith (tv : TypeVector) (P : Modifiers → Nat → Prop) : Nat → Descriptor → Prop
  | levels, d =>
    match d.form with
    | .array kind _ dims _ => kind.isConformant → P d.modifiers dims
    | .struct kind _ definition => kind ≠ .fixed →
      match levels with
      | 0 => True
      | levels + 1 => ∀ s, tv.structDefinition definition = .ok s →
        ∀ f, (s.fields.filter Descriptor.isField).getLast? = some f → EndsWith tv P levels f
    | _ => True

namespace Marshal

namespace Bounded

variable (trap : Fault) (env : Env)

/-! ### Arrays -/

/-- The elements of a string that are sent. A list that a machine holds has fewer than `2 ^ 63`
values; others do not count. -/
def transmitCount (elements : List Value) : Except Fault Nat :=
  let text := (Value.textOf elements).length
  if elements.length < 2 ^ 63 then fit trap (text + 1) else .ok (text + 1)

/-- The shape of an array of these elements. -/
def shapeOf (d : ArrayDefinition) (kind : ArrayKind) (isString : Bool) (elements : List Value)
    (scope : Scope) : Except Fault Shape := do
  d.checkBounds kind
  let text ← if isString then do
      let _ ← d.characterKind
      some <$> transmitCount trap elements
    else pure none
  let spans ← d.dimensions.mapM (spanOf d text scope)
  let shape ← Ndr.Bounded.Dims.collect trap d.dimensions.length spans
  if !isString then
    let total ← Shape.total shape
    if elements.length < total then throw (.arraySizeMismatch total elements.length)
  return shape

/-- Write the elements that are sent. -/
def putPart (walk : Walk) (element : Descriptor) (shape : Shape) (elements : List Value)
    (site : Site Scope) : Marshalling Unit := do
  match shape.contiguous? with
  | some (start, count) =>
    let stop ← fit trap (start + count)
    let run := (elements.drop start).take count
    if run.length < count then throw (.arraySizeMismatch stop elements.length)
    putElements env walk element run site
  | none =>
    let cells := elements.toArray
    Shape.Bounded.foldIndices trap shape (fun _ place => do
      let behind ← fit trap (place + 1)
      match cells[place]? with
      | some v => walk element v site
      | none => throw (.arraySizeMismatch behind cells.size)) ()

/-- Write the text of a string and its terminator. -/
def putString (walk : Walk) (d : ArrayDefinition) (elements : List Value) (site : Site Scope) :
    Marshalling Unit := do
  let kind ← d.characterKind
  let text ← leading trap elements (Value.textOf elements).length
  putElements env walk d.element text site
  walk d.element kind.zero site

/-- Write what follows the extents of an array. -/
def putContents (walk : Walk) (m : Modifiers) (kind : ArrayKind) (a : ArrayDefinition) (shape : Shape)
    (elements : List Value) (site : Site Scope) : Marshalling Unit := do
  (if kind.isVarying then putRanges env shape m.isV1 else pure ())
  if m.isString then putString trap env walk a elements site.inside
  else putPart trap env walk a.element shape elements site.inside

/-- Write an array. -/
def putArray (walk : Walk) (m : Modifiers) (kind : ArrayKind) (dims definition : Nat) (v : Value)
    (site : Site Scope) (preset : Option Shape) : Marshalling Unit := do
  let parts ← arrayParts env kind dims definition v
  let shape ← match preset with
    | some shape => pure shape
    | none => do
      let shape ← shapeOf trap parts.1 kind m.isString parts.2 site.scope
      (if kind.isConformant then putExtents env shape m.isV1 else pure ())
      pure shape
  putContents trap env walk m kind parts.1 shape parts.2 site

/-! ### Structs -/

/-- The value in the slot of a field. -/
def slotValue (layout : Nat) (slots : List Value) (field : Nat) : Except Fault Value := do
  item trap slots (← env.interface.layout.slot layout field)

/-- The scope of a struct, from all its fields. -/
def scopeOf (layout : Nat) (fields : List Descriptor) (slots : List Value) : Except Fault Scope := do
  let count ← env.interface.layout.slotCount layout
  if slots.length ≠ count then throw (.slotMismatch slots.length count)
  let values ← (List.range (fields.countP Descriptor.isField)).mapM fun field =>
    return (← slotValue trap env layout slots field).toInt?
  return values.toArray

/-- A struct with its definition, its slots and its scope. -/
def structParts (definition : Nat) (v : Value) :
    Except Fault (StructDefinition × List Value × Scope) := do
  let d ← env.vector.structDefinition definition
  let slots ← structSlots v
  return (d, slots, ← scopeOf trap env d.layout d.fields slots)

/-- The value at the end of a struct. -/
def trailingValue (layout : Nat) (slots : List Value) (field : Nat) : Except Fault Value := do
  let slot ← env.interface.layout.slot layout field
  let behind ← fit trap (slot + 1)
  match slots[slot]? with
  | some v => return v
  | none => throw (.arraySizeMismatch behind slots.length)

/-- The shape of the conformant array that ends a struct, found through at most `levels` structs, and
whether its counts have 16 bits. -/
def trailingShape (outermost trailing : Nat) :
    Nat → StructDefinition → List Value → Scope → Except Fault (Bool × Shape)
  | 0, _, _, _ => throw (.nestingTooDeep env.config.maxNesting outermost)
  | levels + 1, d, slots, scope =>
    match conformantTail? d.fields trailing with
    | none => throw (.invalidDescriptor d.offset .trailingArrayNotLast)
    | some (field, tail) => do
      let held ← trailingValue trap env d.layout slots field
      match tail with
      | .array modifiers kind dims _ =>
        let (d, elements) ← arrayParts env kind dims trailing held
        return (modifiers.isV1, ← shapeOf trap d kind modifiers.isString elements scope)
      | .struct definition =>
        let (d, slots, scope) ← structParts trap env definition held
        trailingShape outermost trailing levels d slots scope

/-- The shape of the conformant array that ends a struct. -/
def hoistedShape (d : StructDefinition) (slots : List Value) (scope : Scope) :
    Except Fault (Bool × Shape) :=
  match d.trailing with
  | none => .error (.invalidDescriptor d.offset .noTrailingArray)
  | some trailing => trailingShape trap env d.offset trailing env.config.maxNesting d slots scope

/-- Write fields of a struct from the number `index` on, the last of them by `last`. -/
def putFields (walk last : Walk) (layout : Nat) (slots : List Value) (site : Site Scope) :
    Nat → List Descriptor → Marshalling Unit
  | _, [] => return
  | index, d :: ds => do
    if d.isField then
      let v ← slotValue trap env layout slots index
      let next ← fit trap (index + 1)
      if ds.any Descriptor.isField then walk d v site else last d v site
      putFields walk last layout slots site next ds
    else
      walk d .void site
      putFields walk last layout slots site index ds

/-- Write the end of a struct whose array has this shape, through at most `levels` structs. -/
def putTail (walk : Walk) (shape : Shape) : Nat → Walk
  | levels, d, v, site =>
    match d.form with
    | .array kind _ dims definition =>
      if kind.isConformant then
        putArray trap env walk d.modifiers kind dims definition v site (some shape)
      else walk d v site
    | .struct kind _ definition =>
      if kind = .fixed then walk d v site
      else
        match levels with
        | 0 => throw (.nestingTooDeep env.config.maxNesting d.offset)
        | levels + 1 => do
          let (s, slots, scope) ← structParts trap env definition v
          put (Writer.align s.align)
          putFields trap env walk (putTail walk shape levels) s.layout slots
            { site with scope, embedded := true } 0 s.fields
    | _ => walk d v site

/-- Write a struct. -/
def putStruct (walk : Walk) (kind : StructKind) (definition : Nat) (v : Value)
    (site : Site Scope) : Marshalling Unit := do
  let (d, slots, scope) ← structParts trap env definition v
  let inner := { site with scope, embedded := true }
  if kind = .fixed then
    put (Writer.align d.align)
    putFields trap env walk walk d.layout slots inner 0 d.fields
  else
    let (v1, shape) ← hoistedShape trap env d slots scope
    putExtents env shape (kind = .v1Conformant ∨ v1)
    put (Writer.align d.align)
    let tail := putTail trap env walk shape env.config.maxNesting
    putFields trap env walk tail d.layout slots inner 0 d.fields

/-- Write a struct whose fields stand in the descriptor of its parent. -/
def putNested (walk : Walk) (align layout : Nat) (fields : List Descriptor) (v : Value)
    (site : Site Scope) : Marshalling Unit := do
  let slots ← structSlots v
  let scope ← scopeOf trap env layout fields slots
  put (Writer.align align)
  putFields trap env walk walk layout slots { site with scope, embedded := true } 0 fields

/-! ### Values -/

/-- Write a value under a form. Scalars, unions, pointers, pipes and contexts take no step that could
come to a trap. -/
def putForm (walk : Walk) (d : Descriptor) (v : Value) (site : Site Scope) : Marshalling Unit :=
  match d.form with
  | .struct kind _ definition => putStruct trap env walk kind definition v site
  | .nested align layout fields => putNested trap env walk align layout fields v site
  | .array kind _ dims definition =>
    putArray trap env walk d.modifiers kind dims definition v site none
  | _ => Marshal.putForm env walk d v site

/-- Write a value under a descriptor. -/
def walk : Nat → Walk
  | 0, d, _, _ => throw (.nestingTooDeep env.config.maxNesting d.offset)
  | room + 1, d, v, site => do
    putForm trap env (walk room) d v site
    match d.modifiers.freeRep with
    | some routine => freeInstance env routine v
    | none => return

/-- Write the parameters of an operation, each with its pointees. -/
def putParameters (offset : Nat) (params : List Value) : Marshalling Unit := do
  let list ← env.vector.parameters offset
  let scope := (params.map (correlationOf env.heap)).toArray
  let walk := walk trap env env.config.maxNesting
  list.forM fun p => do
    match params[p.index]? with
    | none => throw (.parameterIndex p.index params.length)
    | some v =>
      walk p.descriptor v { scope, embedded := false }
      flush env walk

/-! ### The same without traps -/

variable {walk last last' : Walk} {site : Site Scope} {layout : Nat} {slots : List Value}

theorem transmitCount_eq (elements : List Value) :
    transmitCount trap elements = .ok (Value.transmitCount elements) := by
  have hle : (Value.textOf elements).length ≤ elements.length := (List.takeWhile_prefix _).length_le
  unfold transmitCount
  dsimp only
  split
  · exact Ndr.Bounded.fit_eq trap (by omega)
  · rfl

theorem shapeOf_eq : shapeOf trap = Marshal.shapeOf := by
  funext d kind isString elements scope
  unfold shapeOf Marshal.shapeOf
  simp only [transmitCount_eq, Ndr.Bounded.Dims.collect_eq]
  cases isString <;> rfl

/-- A shape that was found for an array that is no string counts its elements by a word. -/
theorem countable_of_shapeOf {d : ArrayDefinition} {kind : ArrayKind} {elements : List Value}
    {scope : Scope} {shape : Shape} (h : Marshal.shapeOf d kind false elements scope = .ok shape) :
    shape.Countable := by
  obtain ⟨-, -, hshapes⟩ := shapeOf_eq_ok h
  have hwithin : ∀ p ∈ shape, p.first + p.length ≤ p.extent := by
    intro p hp
    obtain ⟨dim, -, lower, hspans⟩ := exists_of_forall₂ hshapes.flip hp
    exact hspans.within
  obtain ⟨⟨⟩, -, h⟩ := Except.bind_eq_ok.1 h
  simp only [Bool.false_eq_true, if_false, Bool.not_false, if_true, pure_bind] at h
  obtain ⟨s, -, h⟩ := Except.bind_eq_ok.1 h
  obtain ⟨total, htotal, h⟩ := Except.bind_eq_ok.1 h
  split at h
  · obtain ⟨_, h, -⟩ := Except.bind_eq_ok.1 h
    exact absurd h Except.throw_ne_ok
  · obtain rfl := Except.pure_eq_ok.1 h
    exact .of_total hwithin htotal

/-! #### Arrays -/

theorem putPart_eq {shape : Shape} (h : shape.Countable) (element : Descriptor)
    (elements : List Value) : putPart trap env walk element shape elements site
      = Marshal.putPart env walk element shape elements site := by
  unfold putPart Marshal.putPart
  cases hrun : shape.contiguous? with
  | some run =>
    obtain ⟨start, count⟩ := run
    have hword : start + count < 2 ^ 64 := h.contiguous hrun
    simp only [Ndr.Bounded.fit_eq trap hword, lift_ok_bind]
  | none =>
    refine Shape.Bounded.foldIndices_eq trap h (fun _ place hplace => ?_) ()
    have hword : place + 1 < 2 ^ 64 := Nat.lt_of_le_of_lt hplace h.small
    rw [Ndr.Bounded.fit_eq trap hword]
    rfl

theorem putString_eq (d : ArrayDefinition) (elements : List Value) :
    putString trap env walk d elements site = Marshal.putString env walk d elements site := by
  have hprefix : Value.textOf elements <+: elements := List.takeWhile_prefix _
  have htake : elements.take (Value.textOf elements).length = Value.textOf elements :=
    (List.prefix_iff_eq_take.1 hprefix).symm
  have hlead : leading trap elements (Value.textOf elements).length = .ok (Value.textOf elements) := by
    rw [Ndr.Bounded.leading_eq trap hprefix.length_le, htake]
  unfold putString Marshal.putString
  simp only [hlead, lift_ok_bind]

theorem putContents_eq {m : Modifiers} {shape : Shape} (h : m.isString = false → shape.Countable)
    (kind : ArrayKind) (a : ArrayDefinition) (elements : List Value) :
    putContents trap env walk m kind a shape elements site
      = Marshal.putContents env walk m kind a shape elements site := by
  unfold putContents Marshal.putContents
  rw [putString_eq]
  cases hs : m.isString with
  | true => rfl
  | false =>
    rw [putPart_eq trap env (h hs)]

theorem putArray_eq {m : Modifiers} {preset : Option Shape}
    (h : ∀ shape, preset = some shape → m.isString = false → shape.Countable) (kind : ArrayKind)
    (dims definition : Nat) (v : Value) : putArray trap env walk m kind dims definition v site preset
      = Marshal.putArray env walk m kind dims definition v site preset := by
  rw [Marshal.putArray_eq]
  unfold putArray
  refine bind_congr fun parts => ?_
  cases preset with
  | some shape => exact bind_congr_of (.pure (h shape rfl)) fun shape hshape => putContents_eq trap env hshape ..
  | none =>
    rewrite [shapeOf_eq]
    simp only [bind_assoc, pure_bind]
    refine lift_bind_congr fun shape hshape => ?_
    have hcountable : m.isString = false → shape.Countable := fun hs =>
      countable_of_shapeOf (hs ▸ hshape)
    simp only [putContents_eq trap env hcountable]

/-! #### Structs -/

theorem slotValue_eq (h : env.interface.layout.slotCount layout = .ok slots.length) (field : Nat) :
    slotValue trap env layout slots field = Marshal.slotValue env layout slots field := by
  refine Except.bind_congr_of fun slot hslot => ?_
  obtain ⟨count, hcount, -, hlt⟩ := Layout.slot_lt hslot
  obtain rfl := Except.ok.inj (h.symm.trans hcount)
  have hat : slots[slot]? = some slots[slot] := List.getElem?_eq_getElem hlt
  rw [Ndr.Bounded.item_eq trap hat, hat]
  rfl

theorem scopeOf_eq (fields : List Descriptor) :
    scopeOf trap env layout fields slots = Marshal.scopeOf env layout fields slots := by
  refine Except.bind_congr_of fun count hcount => ?_
  by_cases hlen : slots.length = count
  · subst hlen
    simp only [slotValue_eq trap env hcount]
  · simp only [ne_eq, hlen, not_false_eq_true, if_true]
    rfl

theorem structParts_eq : structParts trap env = Marshal.structParts env := by
  funext definition v
  unfold structParts Marshal.structParts
  simp only [scopeOf_eq]

theorem slotCount_of_structParts {definition : Nat} {v : Value} {d : StructDefinition} {scope : Scope}
    (h : Marshal.structParts env definition v = .ok (d, slots, scope)) :
    env.interface.layout.slotCount d.layout = .ok slots.length := by
  obtain ⟨-, -, hscope⟩ := structParts_eq_ok h
  exact (scopeOf_eq_ok hscope).1

theorem trailingValue_eq : trailingValue trap env = Marshal.slotValue env := by
  funext layout slots field
  refine Except.bind_congr_of fun slot hslot => ?_
  obtain ⟨count, hcount, -, hlt⟩ := Layout.slot_lt hslot
  have hword : slot + 1 < 2 ^ 64 := by
    have := Layout.slotCount_lt hcount
    omega
  rw [Ndr.Bounded.fit_eq trap hword]
  rfl

theorem trailingShape_eq : trailingShape trap env = Marshal.trailingShape env := by
  funext outermost trailing levels
  induction levels with
  | zero => rfl
  | succ levels ih =>
    funext d slots scope
    unfold trailingShape Marshal.trailingShape
    rewrite [trailingValue_eq, shapeOf_eq, structParts_eq, ih]
    rfl

theorem hoistedShape_eq : hoistedShape trap env = Marshal.hoistedShape env := by
  funext d slots scope
  unfold hoistedShape Marshal.hoistedShape
  rewrite [trailingShape_eq]
  rfl

theorem putFields_eq {fields : List Descriptor} {index : Nat}
    (h : env.interface.layout.slotCount layout = .ok slots.length)
    (hlast : ∀ d, (fields.filter Descriptor.isField).getLast? = some d →
      ∀ v, last d v site = last' d v site) :
    putFields trap env walk last layout slots site index fields
      = Marshal.putFields env walk last' layout slots site index fields := by
  induction fields generalizing index with
  | nil => rfl
  | cons d ds ih =>
    have hrest : ∀ {index}, putFields trap env walk last layout slots site index ds
        = Marshal.putFields env walk last' layout slots site index ds :=
      ih fun e he => hlast e (getLast?_filter_cons he)
    unfold putFields Marshal.putFields
    by_cases hd : d.isField
    · rw [if_pos hd, if_pos hd, slotValue_eq trap env h]
      refine lift_bind_congr fun v hv => ?_
      obtain ⟨slot, hslot, -⟩ := slotValue_eq_ok.1 hv
      obtain ⟨count, hcount, hindex, -⟩ := Layout.slot_lt hslot
      have hword : index + 1 < 2 ^ 64 := by
        have := Layout.slotCount_lt hcount
        omega
      rw [Ndr.Bounded.fit_eq trap hword, lift_ok_bind, hrest]
      by_cases hany : ds.any Descriptor.isField
      · rw [if_pos hany, if_pos hany]
      · rw [if_neg hany, if_neg hany, hlast d (getLast?_filter_of_not_any hd hany)]
    · rw [if_neg hd, if_neg hd, hrest]

/-- The end of a struct is the array whose shape was found ahead of it. -/
theorem endsWith_of_trails {trailing levels : Nat} {v1 : Bool} {shape : Shape} {d : StructDefinition}
    {scope : Scope} (h : Trails env trailing v1 shape levels d slots scope) {f : Descriptor}
    (hf : (d.fields.filter Descriptor.isField).getLast? = some f) :
    env.vector.EndsWith (fun m _ => m.isString = false → shape.Countable) levels f := by
  induction h generalizing f with
  | @array levels dims props d slots scope e held kind a elements hlast hform _ _ _ hshape _ =>
    obtain rfl := Option.some.inj (hlast.symm.trans hf)
    unfold TypeVector.EndsWith
    simp only [hform]
    exact fun _ hs => countable_of_shapeOf (hs ▸ hshape)
  | @struct levels definition props d s slots slots' scope scope' e held kind hlast hform _ _ hparts _ ih =>
    obtain rfl := Option.some.inj (hlast.symm.trans hf)
    obtain ⟨hs, -, -⟩ := structParts_eq_ok hparts
    unfold TypeVector.EndsWith
    simp only [hform]
    intro _ s' hs' g hg
    obtain rfl := Except.ok.inj (hs.symm.trans hs')
    exact ih hg

theorem putTail_eq {shape : Shape} {levels : Nat} {d : Descriptor} {site : Site Scope}
    (h : env.vector.EndsWith (fun m _ => m.isString = false → shape.Countable) levels d) (v : Value) :
    putTail trap env walk shape levels d v site = Marshal.putTail env walk shape levels d v site := by
  unfold putTail Marshal.putTail
  unfold TypeVector.EndsWith at h
  cases hform : d.form with
  | array kind props dims definition =>
    simp only [hform] at h ⊢
    by_cases hkind : kind.isConformant
    · rw [if_pos hkind, if_pos hkind]
      exact putArray_eq trap env (fun _ e => Option.some.inj e ▸ h hkind) ..
    · rw [if_neg hkind, if_neg hkind]
  | struct kind props definition =>
    simp only [hform] at h ⊢
    by_cases hkind : kind = .fixed
    · rw [if_pos hkind, if_pos hkind]
    · rewrite [if_neg hkind, if_neg hkind, structParts_eq]
      cases levels with
      | zero => rfl
      | succ levels =>
        refine lift_bind_congr fun parts hparts => ?_
        obtain ⟨s, slots, scope⟩ := parts
        obtain ⟨hs, -, -⟩ := structParts_eq_ok hparts
        refine bind_congr fun _ => ?_
        -- the fields of the struct stand on the next level
        exact putFields_eq trap env (slotCount_of_structParts env hparts) fun f hf v =>
          putTail_eq (h hkind s hs f hf) v
  | _ => rfl

theorem putStruct_eq (kind : StructKind) (definition : Nat) (v : Value) :
    putStruct trap env walk kind definition v site = Marshal.putStruct env walk kind definition v site := by
  unfold putStruct Marshal.putStruct
  rw [structParts_eq, hoistedShape_eq]
  refine lift_bind_congr fun parts hparts => ?_
  obtain ⟨d, slots, scope⟩ := parts
  have hcount := slotCount_of_structParts env hparts
  by_cases hkind : kind = .fixed
  · simp only [if_pos hkind, putFields_eq trap env hcount fun _ _ _ => rfl]
  · simp only [if_neg hkind]
    refine lift_bind_congr fun found hfound => ?_
    obtain ⟨v1, shape⟩ := found
    refine bind_congr fun _ => bind_congr fun _ => ?_
    refine putFields_eq trap env hcount fun f hf v => putTail_eq trap env ?_ v
    unfold Marshal.hoistedShape at hfound
    split at hfound
    · exact absurd hfound (by simp)
    · exact endsWith_of_trails env (trails_of_trailingShape hfound) hf

theorem putNested_eq (align layout : Nat) (fields : List Descriptor) (v : Value) :
    putNested trap env walk align layout fields v site
      = Marshal.putNested env walk align layout fields v site := by
  unfold putNested Marshal.putNested
  refine lift_bind_congr fun slots _ => ?_
  rewrite [scopeOf_eq]
  refine lift_bind_congr fun scope hscope => ?_
  rw [putFields_eq trap env (scopeOf_eq_ok hscope).1 fun _ _ _ => rfl]

/-! #### Values -/

theorem putForm_eq (d : Descriptor) (v : Value) :
    putForm trap env walk d v site = Marshal.putForm env walk d v site := by
  unfold putForm
  split
  case h_1 hform => rw [putStruct_eq, Marshal.putForm, hform]
  case h_2 hform => rw [putNested_eq, Marshal.putForm, hform]
  case h_3 hform => rw [putArray_eq trap env fun _ h => absurd h (by simp), Marshal.putForm, hform]
  · rfl

/-- The walk comes to no trap. -/
theorem walk_eq (room : Nat) : Bounded.walk trap env room = Marshal.walk env room := by
  induction room with
  | zero => rfl
  | succ room ih =>
    funext d v site
    unfold Bounded.walk Marshal.walk
    rewrite [ih, putForm_eq]
    rfl

/-- Writing comes to no trap. -/
theorem putParameters_eq (offset : Nat) (params : List Value) :
    putParameters trap env offset params = Marshal.putParameters env offset params := by
  unfold putParameters Marshal.putParameters
  rewrite [walk_eq]
  rfl

end Bounded

end Marshal

end Ndr
