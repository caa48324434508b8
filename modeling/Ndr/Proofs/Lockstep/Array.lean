import Ndr.Proofs.Lockstep.Element
import Ndr.Proofs.TypeVector.Alignment

/-!
Arrays in lock-step: the extents that may travel ahead, the ranges, and the elements.
-/

namespace Ndr

/-! ### What writing has found -/

namespace Marshal

variable {env : Env} {a : ArrayDefinition} {kind : ArrayKind} {isString : Bool}
  {elements : List Value} {scope : Scope} {shape : Shape}

theorem arrayParts_eq_ok {dims definition : Nat} {v : Value}
    (h : arrayParts env kind dims definition v = .ok (a, elements)) :
    env.vector.arrayDefinition definition kind.isVarying = .ok a ∧ a.checkDims dims = .ok () ∧
      v = .array elements := by
  obtain ⟨d, hd, h⟩ := Except.bind_eq_ok.1 h
  obtain ⟨⟨⟩, hdims, h⟩ := Except.bind_eq_ok.1 h
  split at h
  · obtain ⟨rfl, rfl⟩ := Prod.mk.inj (Except.pure_eq_ok.1 h)
    exact ⟨hd, hdims, rfl⟩
  · exact absurd h Except.throw_ne_ok

/-- The count that the text of a string gives its bounds. -/
def textCount? (isString : Bool) (elements : List Value) : Option Nat :=
  if isString then some (Value.transmitCount elements) else none

theorem shapeOf_eq_ok (h : shapeOf a kind isString elements scope = .ok shape) :
    a.checkBounds kind = .ok () ∧ (isString → ∃ character, a.characterKind = .ok character) ∧
      Lockstep.Shapes a (textCount? isString elements) scope a.dimensions shape := by
  obtain ⟨⟨⟩, hbounds, h⟩ := Except.bind_eq_ok.1 h
  refine ⟨hbounds, ?_⟩
  have hspans : ∀ text, (a.dimensions.mapM (spanOf a text scope) : Except Fault Shape) = .ok shape →
      Lockstep.Shapes a text scope a.dimensions shape :=
    fun _ h => (Except.mapM_eq_ok.1 h).imp fun _ _ => spanOf_eq_ok
  cases isString with
  | true =>
    simp only [if_true, Bool.not_true, Bool.false_eq_true, if_false, pure_bind] at h
    obtain ⟨character, hcharacter, h⟩ := Except.bind_eq_ok.1 h
    obtain ⟨s, hs, h⟩ := Except.bind_eq_ok.1 h
    obtain rfl := Except.pure_eq_ok.1 h
    exact ⟨fun _ => ⟨character, hcharacter⟩, hspans _ hs⟩
  | false =>
    simp only [Bool.false_eq_true, if_false, Bool.not_false, if_true, pure_bind] at h
    obtain ⟨s, hs, h⟩ := Except.bind_eq_ok.1 h
    obtain ⟨total, -, h⟩ := Except.bind_eq_ok.1 h
    split at h
    · obtain ⟨_, h, -⟩ := Except.bind_eq_ok.1 h
      exact absurd h Except.throw_ne_ok
    · obtain rfl := Except.pure_eq_ok.1 h
      exact ⟨fun hfalse => absurd hfalse (by simp), hspans _ hs⟩

/-- What is written of an array behind its extents. -/
def putContents (env : Env) (walk : Walk) (m : Modifiers) (kind : ArrayKind) (a : ArrayDefinition)
    (shape : Shape) (elements : List Value) (site : Site Scope) : Marshalling Unit := do
  (if kind.isVarying then putRanges env shape m.isV1 else pure ())
  if m.isString then putString env walk a elements site.inside
  else putPart env walk a.element shape elements site.inside

end Marshal

theorem Marshal.putArray_eq (env : Env) (walk : Walk) (m : Modifiers) (kind : ArrayKind)
    (dims definition : Nat) (v : Value) (site : Site Scope) (preset : Option Shape) :
    putArray env walk m kind dims definition v site preset = (do
      let parts ← arrayParts env kind dims definition v
      let shape ← (match preset with
        | some shape => pure shape
        | none => do
          let shape ← shapeOf parts.1 kind m.isString parts.2 site.scope
          (if kind.isConformant then putExtents env shape m.isV1 else pure ())
          pure shape)
      putContents env walk m kind parts.1 shape parts.2 site) := by
  unfold putArray putContents
  congr 1
  funext ⟨a, elements⟩
  cases preset with
  | some shape =>
    simp only [pure_bind]
    cases kind.isVarying <;> simp
  | none =>
    simp only [bind_assoc]
    congr 1
    funext shape
    cases kind.isConformant <;> cases kind.isVarying <;> simp

namespace TypeVector

theorem limits_dimensionsOf {bounds : List BoundPair} :
    ∀ dim ∈ dimensionsOf bounds none, dim.limits = none := by
  intro dim hdim
  obtain ⟨b, -, rfl⟩ := List.mem_map.1 hdim
  rfl

/-- Only the definitions of varying arrays record limits. -/
theorem limits_of_arrayDefinition {tv : TypeVector} {offset : Nat} {a : ArrayDefinition}
    (h : tv.arrayDefinition offset false = .ok a) : ∀ dim ∈ a.dimensions, dim.limits = none := by
  refine readAt_of_gives (P := fun a : ArrayDefinition => ∀ dim ∈ a.dimensions, dim.limits = none)
    ((gives_true _).bind fun dims _ => .check ?_) h
  refine (gives_true _).bind fun _ _ => (gives_true _).bind fun bounds _ => ?_
  refine Keeps.bind (P := fun l : Option (List BoundPair) => l = none) (.pure rfl) ?_
  rintro _ rfl
  refine (gives_true _).bind fun here _ => (gives_true _).bind fun d _ => ?_
  split
  · exact (gives_true _).bind fun _ _ => .pure limits_dimensionsOf
  · exact .throw _

end TypeVector

namespace Lockstep

/-! ### What is asked of arrays -/

/-- What is asked of a string: the text gives the part that is sent, holds no terminator, and its
characters are as `P` asks. -/
structure TextHolds (P : Descriptor → Value → Frame → Prop) (F : Frame) (a : ArrayDefinition)
    (elements : List Value) : Prop where
  limits : ∀ dim ∈ a.dimensions, ∃ l, dim.limits = some l ∧ l.lower.kind = .fixed ∧
    l.lower.constant = 0 ∧ l.upper.kind = .string
  text : ∀ v ∈ elements, v.isTerminator = false
  characters : ∀ kind, a.characterKind = .ok kind → ∀ v ∈ elements ++ [kind.zero], P a.element v F

/-- What is asked of the elements of an array that is no string: there are as many as its extents
say, and those that are sent are as `P` asks. -/
structure ElementsHold (env : Unmarshal.Env) (P : Descriptor → Value → Frame → Prop) (room : Nat)
    (F : Frame) (a : ArrayDefinition) (shape : Shape) (elements : List Value) : Prop where
  length : shape.total = .ok elements.length
  sent : ∀ k ∈ shape.indices, ∀ v, elements[k]? = some v → P a.element v F
  part : shape.isFull = false → PartHolds env a.element shape elements ∧
    (a.element.byteElement?.isSome → 0 < room)

/-- What is asked of an array of a shape. -/
structure ArrayHolds (env : Unmarshal.Env) (P : Descriptor → Value → Frame → Prop) (room : Nat)
    (F : Frame) (isString : Bool) (a : ArrayDefinition) (shape : Shape) (elements : List Value) :
    Prop where
  dimensions : ∀ dim ∈ a.dimensions, DimensionHolds F dim
  total : ∃ total, shape.total = .ok total ∧ total ≤ env.config.maxElements
  contents : if isString then TextHolds P F a elements
    else ElementsHold env P room F a shape elements

section

variable {env : Marshal.Env} {T : Terms} {N : Naming} {G : List Frame} {F : Frame}
  {P : Descriptor → Value → Frame → Prop} {x : Site Scope} {y : Site ScopeId} {room : Nat}
  {m : Modifiers} {kind : ArrayKind} {a : ArrayDefinition} {shape : Shape} {elements : List Value}
  (side : Side) (previous : NodeTable)

theorem Shapes.within {text : Option Nat} {scope : Scope} {dims : List Dimension}
    (h : Shapes a text scope dims shape) : ∀ p ∈ shape, p.first + p.length ≤ p.extent := by
  induction h with
  | nil => exact fun p hp => absurd hp List.not_mem_nil
  | cons hp _ ih =>
    obtain ⟨lower, hp⟩ := hp
    exact List.forall_mem_cons.2 ⟨hp.within, ih⟩

/-- The shape of an array whose limits are not recorded. -/
theorem Shapes.whole {text : Option Nat} {scope : Scope} {dims : List Dimension}
    (h : Shapes a text scope dims shape) (hl : ∀ dim ∈ dims, dim.limits = none) :
    (shape.map (·.extent)).map (fun n => { extent := n, first := 0, length := n }) = shape := by
  induction h with
  | nil => rfl
  | @cons dim p dims shape hp _ ih =>
    obtain ⟨lower, hp⟩ := hp
    have hlimits := hp.limits
    rw [hl dim List.mem_cons_self] at hlimits
    obtain ⟨hfirst, hlength⟩ := hlimits
    rw [List.map_cons, List.map_cons, ih fun e he => hl e (List.mem_cons_of_mem _ he)]
    congr 1
    cases p
    simp_all

theorem checkCharacters_eq_ok {isString : Bool}
    (h : isString → ∃ character, a.characterKind = .ok character) :
    a.checkCharacters isString = .ok () := by
  unfold ArrayDefinition.checkCharacters
  split
  · rename_i hs
    obtain ⟨character, hc⟩ := h hs
    rw [hc]
    rfl
  · rfl

theorem constant_of_checkBounds (h : a.checkBounds kind = .ok ()) (hkind : kind.isConformant = false) :
    a.dimensions.all (·.bounds.isConstant) := by
  unfold ArrayDefinition.checkBounds at h
  split at h
  · rename_i hor
    exact hor.resolve_left (by simp [hkind])
  · exact absurd h (by simp)

theorem Naming.Copy.array {vs ws : List Value} (h : List.Forall₂ N.Copy vs ws) :
    N.Copy (.array vs) (.array ws) := by
  refine ⟨?_, ?_⟩
  · rw [Value.rename_array, Value.array.injEq]
    induction h with
    | nil => rfl
    | cons h _ ih => rw [List.map_cons, h.eq, ih]
  · rintro c (_ | _ | ⟨hv, hc⟩)
    obtain ⟨w, -, hcopy⟩ := exists_of_forall₂ h hv
    exact hcopy.knows c hc

/-- The single dimension of a string. -/
theorem Shapes.text {scope : Scope} (h : Shapes a (Marshal.textCount? true elements) scope a.dimensions shape)
    (hdims : a.dimensions.length = 1) (ht : TextHolds P F a elements) :
    ∃ p, shape = [p] ∧ p.first = 0 ∧ p.length = elements.length + 1 := by
  obtain ⟨dim, hdim⟩ := List.length_eq_one_iff.1 hdims
  obtain ⟨l, hl, hfixed, hzero, hstring⟩ := ht.limits dim (by rw [hdim]; exact List.mem_singleton_self _)
  rw [hdim] at h
  obtain ⟨p, _, ⟨lower, hp⟩, hnil, rfl⟩ := List.forall₂_cons_left_iff.1 h
  obtain rfl := List.forall₂_nil_left_iff.1 hnil
  have hlimits := hp.limits
  rw [hl] at hlimits
  obtain ⟨hfirst, hlength⟩ := Marshal.partOf_eq_ok hlimits
  rw [if_neg (by rw [hfixed]; decide), Marshal.boundValue_of_fixed hfixed, hzero] at hfirst
  rw [if_pos hstring] at hlength
  have htext : Value.textOf elements = elements :=
    List.takeWhile_eq_self_iff.2 fun v hv => by rw [ht.text v hv]; rfl
  have hcount : Marshal.textCount? true elements = some (elements.length + 1) := by
    rw [Marshal.textCount?, if_pos rfl, Value.transmitCount, htext]
  rw [hcount] at hlength
  refine ⟨p, rfl, ?_, (Except.ok.inj hlength).symm⟩
  have := Except.ok.inj hfirst
  omega

/-- The ranges of an array make up its shape. -/
theorem locked_shape {text : Option Nat} (hF : G[y.scope]? = some F)
    (hd : ∀ dim ∈ a.dimensions, DimensionHolds F dim)
    (hl : kind.isVarying = false → ∀ dim ∈ a.dimensions, dim.limits = none)
    (h : Shapes a text F.scope a.dimensions shape) {own : ScopeId → Prop} {v1 : Bool} :
    Locked env T N own G (if kind.isVarying then Marshal.putRanges env shape v1 else pure ())
      (Unmarshal.getShape (env.receiver side previous) kind v1 y.scope a (shape.map (·.extent)))
      fun _ read => read = shape := by
  unfold Unmarshal.getShape
  cases hvarying : kind.isVarying with
  | true => exact locked_ranges side previous hF hd h
  | false => exact .pure (h.whole (hl hvarying))

variable (hw : LockedWalks env T N P (Marshal.walk env room)
  (Unmarshal.walk (env.receiver side previous) room)) (hm : Meets G F x y)

omit hm in
include hw in
theorem grows_putContents :
    Marshal.Grows (Marshal.putContents env (Marshal.walk env room) m kind a shape elements x) :=
  .bind (.ite ((Marshal.composes_grows _).putRanges _ _) (.pure _)) fun _ =>
    .ite ((Marshal.composes_grows _).putString hw.grows _ _ _)
      ((Marshal.composes_grows _).putPart hw.grows _ _ _ _)

include hw hm in
/-- What is written of an array behind its extents is read. -/
theorem locked_contents (hbounds : a.checkBounds kind = .ok ())
    (hl : kind.isVarying = false → ∀ dim ∈ a.dimensions, dim.limits = none)
    (hcharacter : m.isString → ∃ character, a.characterKind = .ok character)
    (hshape : Shapes a (Marshal.textCount? m.isString elements) F.scope a.dimensions shape)
    (h : ArrayHolds (env.receiver side previous) P room F m.isString a shape elements) :
    Locked env T N (fun _ => False) G
      (Marshal.putContents env (Marshal.walk env room) m kind a shape elements x)
      (Unmarshal.getContents (env.receiver side previous)
        (Unmarshal.walk (env.receiver side previous) room) m kind a y
        (if kind.isConformant then some (shape.map (·.extent)) else none))
      fun _ w => N.Copy (.array elements) w := by
  have hF : G[y.scope]? = some F := hm.frame
  obtain ⟨total, htotal, hmax⟩ := h.total
  have hread : Silent env T N (fun _ => False) G (Unmarshal.extentsIn y.scope a
      (if kind.isConformant then some (shape.map (·.extent)) else none)) (· = shape.map (·.extent)) := by
    cases hkind : kind.isConformant with
    | true => exact silent_extentsIn hF h.dimensions hshape
    | false =>
      exact silent_extentsIn_constant (constant_of_checkBounds hbounds hkind) hshape
  unfold Unmarshal.getContents
  refine .silent hread (grows_putContents side previous hw) ?_
  rintro _ rfl
  refine .right htotal (.right (if_pos hmax) ?_)
  refine .bind (locked_shape side previous hF h.dimensions hl hshape) (fun _ =>
    .ite ((Marshal.composes_grows _).putString hw.grows _ _ _)
      ((Marshal.composes_grows _).putPart hw.grows _ _ _ _)) ?_
  rintro _ _ rfl
  have hcontents := h.contents
  cases hstring : m.isString with
  | true =>
    rw [hstring] at hcontents hshape
    obtain ⟨character, hkind⟩ := hcharacter hstring
    obtain ⟨p, rfl, hfirst, hlength⟩ := hshape.text (characterKind_eq_ok hkind).1 hcontents
    have hwithin := hshape.within p (List.mem_singleton_self p)
    have hextent : p.extent = total := by
      rw [← Shape.size_of_total htotal]
      simp [Shape.size]
    have hcount : elements.length + 1 ≤ env.config.maxElements :=
      Nat.le_trans (by omega) hmax
    simp only [if_true]
    exact (locked_string side previous hw hm.inside hkind hcontents.text hfirst hlength
      (hcontents.characters _ hkind) hcount).behind fun _ _ hcopies => .pure (.array hcopies)
  | false =>
    rw [hstring] at hcontents
    obtain rfl := Except.ok.inj (hcontents.length.symm.trans htotal)
    simp only [Bool.false_eq_true, if_false]
    exact (locked_part side previous hw hm.inside hcontents.length hshape.within hmax hcontents.sent
      hcontents.part).behind fun _ _ hcopies => .pure (.array hcopies)

/-- What is asked of an array value by its definition. -/
def ArrayValueHolds (env : Marshal.Env) (env' : Unmarshal.Env)
    (P : Descriptor → Value → Frame → Prop) (room : Nat) (F : Frame) (m : Modifiers)
    (kind : ArrayKind) (definition : Nat) (v : Value) : Prop :=
  ∀ a elements shape, env.vector.arrayDefinition definition kind.isVarying = .ok a →
    v = .array elements → Marshal.shapeOf a kind m.isString elements F.scope = .ok shape →
    ArrayHolds env' P room F m.isString a shape elements

include hw hm in
/-- An array is read with its extents, or with those that were read ahead of it. -/
theorem locked_putArray {dims definition : Nat} {v : Value} (preset : Option Shape)
    (hpreset : ∀ s, preset = some s → kind.isConformant ∧ ∀ a elements,
      Marshal.arrayParts env kind dims definition v = .ok (a, elements) →
      Marshal.shapeOf a kind m.isString elements F.scope = .ok s)
    (h : ArrayValueHolds env (env.receiver side previous) P room F m kind definition v) :
    Locked env T N (fun _ => False) G
      (Marshal.putArray env (Marshal.walk env room) m kind dims definition v x preset)
      (Unmarshal.getArray (env.receiver side previous)
        (Unmarshal.walk (env.receiver side previous) room) m kind dims definition y
        (preset.map fun s => s.map (·.extent))) fun _ w => N.Copy v w := by
  rw [Marshal.putArray_eq, Unmarshal.getArray_eq]
  have hextents : ∀ shape : Shape, Marshal.Grows (do
      (if kind.isConformant then Marshal.putExtents env shape m.isV1 else pure ())
      pure shape) := fun _ =>
    .bind (.ite ((Marshal.composes_grows _).putExtents _ _) (.pure _)) fun _ => .pure _
  refine .lift (fun parts => ?_) fun ⟨a, elements⟩ hparts => ?_
  · refine .bind ?_ fun _ => grows_putContents side previous hw
    cases preset with
    | some shape => exact .pure _
    | none => exact .bind (.lift _) hextents
  obtain ⟨ha, hdims, rfl⟩ := Marshal.arrayParts_eq_ok hparts
  have hl : kind.isVarying = false → ∀ dim ∈ a.dimensions, dim.limits = none :=
    fun hk => TypeVector.limits_of_arrayDefinition (hk ▸ ha)
  refine .right ha (.right hdims ?_)
  -- the contents, once the extents are known on both sides
  have hrest : ∀ shape, Marshal.shapeOf a kind m.isString elements F.scope = .ok shape → 
      a.checkBounds kind = .ok () ∧ a.checkCharacters m.isString = .ok () ∧
      shape.length = a.dimensions.length ∧
      Locked env T N (fun _ => False) G
        (Marshal.putContents env (Marshal.walk env room) m kind a shape elements x)
        (Unmarshal.getContents (env.receiver side previous)
          (Unmarshal.walk (env.receiver side previous) room) m kind a y
          (if kind.isConformant then some (shape.map (·.extent)) else none))
        fun _ w => N.Copy (.array elements) w := by
    intro shape hshape
    obtain ⟨hbounds, hcharacter, hshapes⟩ := Marshal.shapeOf_eq_ok hshape
    exact ⟨hbounds, checkCharacters_eq_ok hcharacter, hshapes.length_eq.symm, locked_contents side previous hw hm hbounds
      hl hcharacter hshapes (h a elements shape ha rfl hshape)⟩
  cases preset with
  | some shape =>
    obtain ⟨hconf, hshape⟩ := hpreset shape rfl
    obtain ⟨hbounds, hcharacter, -, hcontents⟩ := hrest shape (hshape a elements hparts)
    refine .right hbounds (.right hcharacter ?_)
    simp only [pure_bind, Option.map_some, hconf, if_true] at hcontents ⊢
    exact hcontents
  | none =>
    simp only [Option.map_none]
    rw [bind_assoc]
    refine .lift (fun _ => .bind (hextents _) fun _ => grows_putContents side previous hw)
      fun shape hshape => ?_
    simp only [bind_assoc, pure_bind]
    rw [← hm.scope] at hshape
    obtain ⟨hbounds, hcharacter, hlength, hcontents⟩ := hrest shape hshape
    refine .right hbounds (.right hcharacter ?_)
    cases hconf : kind.isConformant with
    | true =>
      simp only [hconf, if_true, ← hlength] at hcontents ⊢
      refine .bind ((locked_extents side previous shape).map (g := some) (R := fun _ read =>
        read = some (shape.map (·.extent))) fun _ _ h => congrArg _ h) (fun _ => grows_putContents side previous hw) ?_
      rintro _ _ rfl
      exact hcontents
    | false =>
      simp only [hconf] at hcontents ⊢
      exact hcontents

end

end Lockstep

end Ndr
