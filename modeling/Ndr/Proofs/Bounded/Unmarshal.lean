import Ndr.Proofs.Bounded.Marshal
import Ndr.Proofs.Unmarshal.Steps

/-!
Reading in words: the counts of every dimension, the ranges of the elements that are sent, the scopes
and the fields are looked up and counted on a machine that may come to a trap. Counts have 32 bits where
they are read, an array has as many of them as dimensions even where they were read ahead of a struct,
and the elements of an array are counted before any is read; so the walk does the same as without traps.
-/

namespace Ndr

open Bounded (fit minus signed item)

/-! ### Counts of a message -/

namespace Reader

/-- A word that was read has as many bits as it says. -/
theorem getWord_lt (order : ByteOrder) (width : Nat) :
    Keeps (fun _ => True) (· < 256 ^ width) (getWord order width) := by
  have htogether : Keeps (fun _ => True) (fun bytes => bytes.length ≤ width) (getTogether width) :=
    (Keeps.ofTrue _).bind fun _ _ => .modifyGet fun r _ => ⟨trivial, List.length_take_le _ _⟩
  refine htogether.bind fun bytes hbytes => .pure ?_
  exact Nat.lt_of_lt_of_le (order.decode_lt bytes) (Nat.pow_le_pow_right (by decide) hbytes)

theorem getAligned_lt (order : ByteOrder) (width : Nat) :
    Keeps (fun _ => True) (· < 256 ^ width) (getAligned order width) :=
  (Keeps.ofTrue _).bind fun _ _ => getWord_lt order width

end Reader

namespace TypeVector

variable (tv : TypeVector)

theorem readNat_lt : Gives (· < 2 ^ 32) tv.readNat := (gives_true _).bind fun v _ => .pure v.toNat_lt

/-- The index of a parameter has 32 bits. -/
theorem index_lt_of_parameters {offset : Nat} {list : List Parameter} (h : tv.parameters offset = .ok list) :
    ∀ p ∈ list, p.index < 2 ^ 32 := by
  have hone : Gives (fun p : Parameter => p.index < 2 ^ 32) tv.readParameter := by
    refine (readNat_lt tv).bind fun index hindex => (gives_true _).bind fun here _ =>
      (gives_true _).bind fun d _ => ?_
    cases d with
    | none => exact .throw _
    | some d => exact (gives_true _).bind fun _ _ => .pure hindex
  exact readAt_of_gives ((gives_true _).bind fun n _ => (Keeps.repeatM_all hone n).mono fun _ h => h.2) h

end TypeVector

namespace Unmarshal

theorem getCount_lt (env : Env) : Keeps (fun _ => True) (· < 2 ^ 32) (getCount env) :=
  Keeps.onPart_of (Reader.getAligned_lt env.order 4)

theorem getSize_lt (env : Env) (v1 : Bool) : Keeps (fun _ => True) (· < 2 ^ 32) (getSize env v1) := by
  unfold getSize
  cases v1
  · exact getCount_lt env
  · exact (Keeps.onPart_of (Reader.getAligned_lt env.order 2)).mono fun n hn => Nat.lt_trans hn (by decide)

/-- Counts for so many dimensions. -/
def Counts (dims : Nat) (counts : List Nat) : Prop := counts.length = dims ∧ ∀ n ∈ counts, n < 2 ^ 32

theorem counts_getExtents (env : Env) (dims : Nat) (v1 : Bool) :
    Keeps (fun _ => True) (Counts dims) (getExtents env dims v1) :=
  Keeps.repeatM_all (getSize_lt env v1) dims

/-! ### Steps in words -/

namespace Bounded

variable (trap : Fault) (env : Env)

/-! #### Scopes -/

/-- A new scope, under the number of the last one. -/
def openScope (scope : Scope) : Unmarshalling ScopeId := do
  modify fun s => { s with scopes := s.scopes.push scope }
  minus trap (← get).scopes.size 1

/-- A scope that reaches to a field, which is unknown where the scope was too short. -/
def grow (scope : Scope) (field : Nat) : Except Fault Scope :=
  if field < scope.size then .ok scope
  else do return scope ++ Array.replicate ((← fit trap (field + 1)) - scope.size) none

/-- A scope with the value of a field. -/
def insertField (scope : Scope) (field : Nat) (v : Int) : Except Fault Scope := do
  let grown ← grow trap scope field
  let _ ← item trap grown.toList field
  return grown.setIfInBounds field (some v)

/-- The scopes with the value of a field in one of them, where there is such a scope. -/
def setIn (scopes : Array Scope) (id : ScopeId) (field : Nat) (v : Int) : Except Fault (Array Scope) :=
  match scopes[id]? with
  | none => .ok scopes
  | some scope => do return scopes.setIfInBounds id (← insertField trap scope field v)

/-- Enter the value of a field into its scope, where it is an integer. -/
def setField (id : ScopeId) (field : Nat) (v : Option Int) : Unmarshalling Unit :=
  match v with
  | none => return
  | some v => do
    let scopes ← setIn trap (← get).scopes id field v
    modify fun s => { s with scopes }

/-! #### Shapes -/

/-- The number of elements of every dimension. -/
def getExtents (dims : Nat) (v1 : Bool) : Unmarshalling (List Nat) := do
  let counts ← Unmarshal.getExtents env dims v1
  Ndr.Bounded.Dims.collect trap dims counts

/-- The upper bound that a count of a message stands for. -/
def upperBound (kind : BoundKind) (lower : Int) (n : Nat) : Except Fault Int :=
  if kind = .sizeIs then .ok n else do return saturate (lower + (← signed trap ((n : Int) - 1)))

/-- The number of elements of a dimension. -/
def extentIn (scope : ScopeId) (b : BoundPair) (read : Option Nat) : Unmarshalling Nat := do
  let lower := match ← b.lower.resolve (← scopeOf scope) with
    | .value v => v
    | _ => 0
  match read with
  | none => extentOf b.upper.kind lower b.upper.constant
  | some n =>
    checkBound b.upper (← upperBound trap b.upper.kind lower n) scope
    return n

/-- The number of elements of every dimension, by the number of the dimension. -/
def extentsIn (scope : ScopeId) (d : ArrayDefinition) (read : Option (List Nat)) :
    Unmarshalling (List Nat) := do
  let extents ← d.dimensions.zipIdx.mapM fun p => do
    let n ← read.mapM fun counts => item trap counts p.2
    extentIn trap scope p.1.bounds n
  Ndr.Bounded.Dims.collect trap d.dimensions.length extents

/-- Compare the range that is sent of a dimension with its limits. -/
def checkLimits (limits : BoundPair) (scope : ScopeId) (first length : Nat) : Unmarshalling Unit := do
  if limits.lower.kind = .firstIs then checkBound limits.lower first scope
  if limits.upper.kind = .lengthIs then checkBound limits.upper length scope
  else if limits.upper.kind = .lastIs then
    let stop ← fit trap (first + length)
    checkBound limits.upper (← signed trap ((stop : Int) - 1)) scope

/-- A dimension of a varying array, once its first element that is sent is known. -/
def getSpanFrom (v1 : Bool) (scope : ScopeId) (dim : Dimension) (extent first : Nat) :
    Unmarshalling Span := do
  let length ← getSize env v1
  let stop ← fit trap (first + length)
  if extent < stop then throw (.conformanceMismatch extent first length)
  match dim.limits with
  | none => pure ()
  | some limits => checkLimits trap limits scope first length
  return { extent, first, length }

/-- A dimension of a varying array. -/
def getSpan (v1 : Bool) (scope : ScopeId) (dim : Dimension) (extent : Nat) : Unmarshalling Span :=
  if v1 then getSpanFrom trap env v1 scope dim extent 0
  else getCount env >>= getSpanFrom trap env v1 scope dim extent

/-- The shape of an array with dimensions of these sizes. -/
def getShape (kind : ArrayKind) (v1 : Bool) (scope : ScopeId) (d : ArrayDefinition) (extents : List Nat) :
    Unmarshalling Shape :=
  if kind.isVarying then do
    let spans ← (d.dimensions.zip extents).mapM fun p => getSpan trap env v1 scope p.1 p.2
    Ndr.Bounded.Dims.collect trap d.dimensions.length spans
  else return extents.map fun n => { extent := n, first := 0, length := n }

/-! #### Elements -/

/-- Read the text of a string, from its only dimension. -/
def getString (walk : Walk) (element : Descriptor) (shape : Shape) (site : Site ScopeId) :
    Unmarshalling (List Value) := do
  let d ← item trap shape 0
  if d.first ≠ 0 then throw (.invalidString (.atOffset d.first))
  stripTerminator (← getElements env walk element d.length site)

/-- Read the elements that are sent of an array of `total` elements; the others are zero. -/
def getPart (walk : Walk) (element : Descriptor) (shape : Shape) (total : Nat) (site : Site ScopeId) :
    Unmarshalling (List Value) := do
  let filled := total - (← shape.transmitted)
  if env.config.maxFilled < filled then throw (.tooManyElements filled env.config.maxFilled)
  let zero ← zeroValue env element
  let cells ← Shape.Bounded.foldIndices trap shape
    (fun cells place => return cells.setIfInBounds place (← walk element site))
    (Array.replicate total zero)
  return cells.toList

/-- Read what follows the extents of an array. -/
def getContents (walk : Walk) (m : Modifiers) (kind : ArrayKind) (a : ArrayDefinition)
    (site : Site ScopeId) (read : Option (List Nat)) : Unmarshalling Value := do
  let extents ← extentsIn trap site.scope a read
  let total ← Shape.checkedProduct extents 1
  checkCount env total
  let shape ← getShape trap env kind m.isV1 site.scope a extents
  let elements ←
    (if m.isString then getString trap env walk a.element shape site.inside
    else if shape.isFull then getElements env walk a.element total site.inside
    else getPart trap env walk a.element shape total site.inside)
  return .array elements

/-- Read an array. Where its extents were read ahead of an enclosing struct, they are given. -/
def getArray (walk : Walk) (m : Modifiers) (kind : ArrayKind) (dims definition : Nat)
    (site : Site ScopeId) (preset : Option (List Nat)) : Unmarshalling Value := do
  let a ← env.vector.arrayDefinition definition kind.isVarying
  a.checkDims dims
  a.checkBounds kind
  a.checkCharacters m.isString
  let read ← (if kind.isConformant then (match preset with
      | some counts => pure (some counts)
      | none => some <$> getExtents trap env a.dimensions.length m.isV1)
    else pure none)
  getContents trap env walk m kind a site read

/-! #### Structs -/

/-- Read fields of a struct into these slots, from the number `index` on, the last of them by
`last`. -/
def getFields (walk last : Walk) (layout : Nat) (site : Site ScopeId) :
    Nat → List Descriptor → Array Value → Unmarshalling (Array Value)
  | _, [], slots => return slots
  | index, d :: ds, slots => do
    if d.isField then
      let next ← fit trap (index + 1)
      let v ← if ds.any Descriptor.isField then walk d site else last d site
      setField trap site.scope index v.toInt?
      let slot ← env.interface.layout.slot layout index
      getFields walk last layout site next ds (slots.setIfInBounds slot v)
    else
      let _ ← walk d site
      getFields walk last layout site index ds slots

/-- Read the fields of a struct of `count` slots, whose scope is complete after them. -/
def getBody (walk last : Walk) (align layout count : Nat) (fields : List Descriptor)
    (site : Site ScopeId) : Unmarshalling Value := do
  fetch (Reader.align align)
  let slots ← getFields trap env walk last layout site 0 fields (Array.replicate count .void)
  verifyLate site.scope
  return .struct slots.toList

/-- A new scope for a struct of `count` fields. -/
def openStruct (count : Nat) (site : Site ScopeId) : Unmarshalling (Site ScopeId) := do
  let scope ← openScope trap (Array.replicate count none)
  return { site with scope, embedded := true }

/-- Read the end of a struct whose array has these extents, through at most `levels` structs. -/
def getTail (walk : Walk) (extents : List Nat) : Nat → Walk
  | levels, d, site =>
    match d.form with
    | .array kind _ dims definition =>
      if kind.isConformant then
        getArray trap env walk d.modifiers kind dims definition site (some extents)
      else walk d site
    | .struct kind _ definition =>
      if kind = .fixed then walk d site
      else
        match levels with
        | 0 => throw (.nestingTooDeep env.config.maxNesting d.offset)
        | levels + 1 => do
          let s ← env.vector.structDefinition definition
          let count ← env.interface.layout.slotCount s.layout
          let inner ← openStruct trap count site
          getBody trap env walk (getTail walk extents levels) s.align s.layout count s.fields inner
    | _ => walk d site

/-- Read a struct. -/
def getStruct (walk : Walk) (kind : StructKind) (definition : Nat) (site : Site ScopeId) :
    Unmarshalling Value := do
  let d ← env.vector.structDefinition definition
  let count ← env.interface.layout.slotCount d.layout
  let inner ← openStruct trap count site
  if kind = .fixed then getBody trap env walk walk d.align d.layout count d.fields inner
  else
    let (dims, v1) ← hoistedDims env d
    let extents ← getExtents trap env dims (kind = .v1Conformant ∨ v1)
    let last := getTail trap env walk extents env.config.maxNesting
    getBody trap env walk last d.align d.layout count d.fields inner

/-- Read a struct whose fields stand in the descriptor of its parent. -/
def getNested (walk : Walk) (align layout : Nat) (fields : List Descriptor) (site : Site ScopeId) :
    Unmarshalling Value := do
  let count ← env.interface.layout.slotCount layout
  let inner ← openStruct trap count site
  getBody trap env walk walk align layout count fields inner

/-! #### Values -/

/-- Read a value under a form. Scalars, unions, pointers, pipes and contexts take no step that could
come to a trap. -/
def getForm (walk : Walk) (d : Descriptor) (site : Site ScopeId) : Unmarshalling Value :=
  match d.form with
  | .struct kind _ definition => getStruct trap env walk kind definition site
  | .nested align layout fields => getNested trap env walk align layout fields site
  | .array kind _ dims definition => getArray trap env walk d.modifiers kind dims definition site none
  | _ => Unmarshal.getForm env walk d site

/-- Read a value under a descriptor. -/
def walk : Nat → Walk
  | 0, d, _ => throw (.nestingTooDeep env.config.maxNesting d.offset)
  | room + 1, d, site => getForm trap env (walk room) d site

/-- Read a parameter in place of its current value. -/
def getParameter (d : Descriptor) (current : Value) (site : Site ScopeId) : Unmarshalling Value :=
  let walk := walk trap env env.config.maxNesting
  match d.form with
  | .pipe _ element => getPipe env walk element current site
  | .context direction => getContext env direction current
  | _ => walk d site

/-- Parameters with the values that were read. -/
def replace (params : List Value) (values : List (Nat × Value)) : Except Fault (List Value) :=
  values.foldlM (fun params p => do
    let _ ← item trap params p.1
    return params.set p.1 p.2) params

/-- Read one parameter of an operation, with its pointees. -/
def readParameter (params : List Value) (scope : ScopeId) (p : Parameter) : Unmarshalling (Nat × Value) := do
  match params[p.index]? with
  | none => throw (.parameterIndex p.index params.length)
  | some current =>
    let v ← getParameter trap env p.descriptor current { scope, embedded := false }
    flush env (walk trap env env.config.maxNesting)
    setField trap scope p.index (correlationOf (← get).heap v)
    return (p.index, v)

/-- Read the parameters of an operation, and put them in place. -/
def getParameters (offset : Nat) (params : List Value) : Unmarshalling (List Value) := do
  let list ← env.vector.parameters offset
  let scope ← openScope trap (parameterScope (← get).heap list params)
  let values ← list.mapM (readParameter trap env params scope)
  verifyLate scope
  replace trap params values

/-! ### The same without traps -/

variable {walk last last' : Walk} {site : Site ScopeId} {layout : Nat}

/-! #### Scopes -/

theorem openScope_eq : openScope trap = Unmarshal.openScope := by
  funext scope s
  have hpos : 1 ≤ (s.scopes.push scope).size := Array.size_push scope ▸ Nat.le_add_left _ _
  show (liftM (minus trap (s.scopes.push scope).size 1) : Unmarshalling ScopeId)
    { s with scopes := s.scopes.push scope } = _
  rw [Ndr.Bounded.minus_eq trap hpos, Array.size_push]
  rfl

theorem openStruct_eq : openStruct trap = Unmarshal.openStruct := by
  funext count site
  unfold openStruct Unmarshal.openStruct
  rw [openScope_eq]

theorem grow_eq {field : Nat} (h : field < 2 ^ 32) (scope : Scope) :
    grow trap scope field = .ok (scope ++ Array.replicate (field + 1 - scope.size) none) := by
  unfold grow
  by_cases hfield : field < scope.size
  · rw [if_pos hfield, Nat.sub_eq_zero_of_le hfield, Array.replicate_zero, Array.append_empty]
  · rw [if_neg hfield, Ndr.Bounded.fit_eq trap (by omega)]
    rfl

theorem insertField_eq {field : Nat} (h : field < 2 ^ 32) (scope : Scope) (v : Int) :
    insertField trap scope field v = .ok (scope.insert field v) := by
  have hreach : field < (scope ++ Array.replicate (field + 1 - scope.size) none).toList.length := by
    rw [Array.length_toList, Array.size_append, Array.size_replicate]
    omega
  rw [insertField, grow_eq trap h]
  show (do
    let _ ← item trap (scope ++ Array.replicate (field + 1 - scope.size) none).toList field
    return _ : Except Fault Scope) = _
  rw [Ndr.Bounded.item_eq trap (List.getElem?_eq_getElem hreach)]
  rfl

theorem setIn_eq {field : Nat} (h : field < 2 ^ 32) (scopes : Array Scope) (id : ScopeId) (v : Int) :
    setIn trap scopes id field v = .ok (scopes.modify id (·.insert field v)) := by
  unfold setIn
  split
  · rename_i hscope
    refine congrArg Except.ok (Array.ext_getElem? fun i => ?_)
    rw [Array.getElem?_modify]
    split
    · rename_i hi
      rw [← hi, hscope]
      rfl
    · rfl
  · rename_i scope hscope
    rw [insertField_eq trap h]
    refine congrArg Except.ok (Array.ext_getElem? fun i => ?_)
    rw [Array.getElem?_setIfInBounds, Array.getElem?_modify]
    split
    · rename_i hi
      rw [← hi, hscope, if_pos (Array.getElem?_eq_some_iff.1 hscope).1]
      rfl
    · rfl

theorem setField_eq {field : Nat} (h : field < 2 ^ 32) (id : ScopeId) (v : Option Int) :
    setField trap id field v = Unmarshal.setField id field v := by
  cases v with
  | none => rfl
  | some v =>
    funext s
    show ((liftM (setIn trap s.scopes id field v) : Unmarshalling (Array Scope)) >>= _) s = _
    rw [setIn_eq trap h]
    rfl

/-! #### Shapes -/

theorem getExtents_eq : getExtents trap env = Unmarshal.getExtents env := by
  funext dims v1
  unfold getExtents
  simp only [Ndr.Bounded.Dims.collect_eq]
  exact bind_pure _

theorem upperBound_eq {n : Nat} (h : n < 2 ^ 32) (kind : BoundKind) (lower : Int) :
    upperBound trap kind lower n
      = .ok (if kind = .sizeIs then (n : Int) else saturate (lower + (n - 1))) := by
  have hbefore : FitsInt64 ((n : Int) - 1) := ⟨by omega, by omega⟩
  unfold upperBound
  rw [Ndr.Bounded.signed_eq trap hbefore]
  split <;> rfl

theorem extentIn_eq {read : Option Nat} (h : ∀ n, read = some n → n < 2 ^ 32) (scope : ScopeId)
    (b : BoundPair) : extentIn trap scope b read = Unmarshal.extentIn scope b read := by
  cases read with
  | none => rfl
  | some n =>
    unfold extentIn Unmarshal.extentIn
    refine bind_congr fun fields => bind_congr fun known => ?_
    simp only [upperBound_eq trap (h n rfl)]
    rfl

/-- Dimensions by their numbers are dimensions with their counts. -/
theorem mapM_item_eq {α β : Type} {f : α → Nat → Unmarshalling β} {l : List α} {counts : List Nat}
    (h : counts.length = l.length) :
    (l.zipIdx.mapM fun p => do f p.1 (← item trap counts p.2)) = (l.zip counts).mapM fun p => f p.1 p.2 := by
  have hzip : l.zip counts = l.zipIdx.map fun p => (p.1, counts.getD p.2 0) := by
    refine List.ext_getElem (by simp [h]) fun i hi hi' => ?_
    have hi : i < counts.length := by simp at hi; omega
    simp [List.getD_eq_getElem?_getD, List.getElem?_eq_getElem hi]
  rw [hzip, List.mapM_map]
  refine mapM_congr fun p hp => ?_
  have hcount : counts[p.2]? = some (counts.getD p.2 0) := by
    have hlt : p.2 < counts.length := by
      have := List.snd_lt_of_mem_zipIdx hp
      omega
    simp [List.getD_eq_getElem?_getD, List.getElem?_eq_getElem hlt]
  rw [Ndr.Bounded.item_eq trap hcount]
  rfl

theorem extentsIn_eq {a : ArrayDefinition} {read : Option (List Nat)}
    (h : ∀ counts, read = some counts → Counts a.dimensions.length counts) (scope : ScopeId) :
    extentsIn trap scope a read = Unmarshal.extentsIn scope a read := by
  unfold extentsIn
  simp only [Ndr.Bounded.Dims.collect_eq]
  refine (bind_pure _).trans ?_
  cases read with
  | none =>
    show (a.dimensions.zipIdx.mapM fun p => extentIn trap scope p.1.bounds none) = _
    have hfirst : a.dimensions = a.dimensions.zipIdx.map Prod.fst := (List.zipIdx_map_fst 0 _).symm
    rw [Unmarshal.extentsIn, hfirst, List.mapM_map, ← hfirst]
    exact mapM_congr fun p _ => extentIn_eq trap (by simp) scope p.1.bounds
  | some counts =>
    have hcounts := h counts rfl
    simp only [Option.mapM_some, bind_map_left]
    rw [mapM_item_eq trap (f := fun dim n => extentIn trap scope dim.bounds (some n)) hcounts.1]
    exact mapM_congr fun p hp => extentIn_eq trap
      (fun n e => Option.some.inj e ▸ hcounts.2 _ (List.of_mem_zip hp).2) scope p.1.bounds

/-- A dimension of every count. -/
theorem counts_extentsIn {a : ArrayDefinition} {read : Option (List Nat)}
    (h : ∀ counts, read = some counts → Counts a.dimensions.length counts) (scope : ScopeId) :
    Keeps (fun _ => True) (fun extents => extents.length = a.dimensions.length)
      (Unmarshal.extentsIn scope a read) := by
  cases read with
  | none =>
    exact (Keeps.mapM_forall₂ (R := fun _ _ => True) fun _ _ => Keeps.ofTrue _).mono
      fun extents hextents => hextents.length_eq.symm
  | some counts =>
    refine (Keeps.mapM_forall₂ (R := fun _ _ => True) fun _ _ => Keeps.ofTrue _).mono
      fun extents hextents => ?_
    rw [← hextents.length_eq, List.length_zip, (h counts rfl).1, Nat.min_self]

theorem checkLimits_eq {first length : Nat} (hfirst : first < 2 ^ 32) (hlength : length < 2 ^ 32)
    (limits : BoundPair) (scope : ScopeId) : checkLimits trap limits scope first length
      = Unmarshal.checkLimits limits scope first length := by
  have hlast : FitsInt64 (((first + length : Nat) : Int) - 1) := ⟨by omega, by omega⟩
  unfold checkLimits Unmarshal.checkLimits
  rewrite [Ndr.Bounded.fit_eq trap (by omega), lift_ok_bind, Ndr.Bounded.signed_eq trap hlast,
    lift_ok_bind, Int.natCast_add]
  rfl

theorem getSpanFrom_eq {first : Nat} (hfirst : first < 2 ^ 32) (v1 : Bool) (scope : ScopeId)
    (dim : Dimension) (extent : Nat) : getSpanFrom trap env v1 scope dim extent first
      = Unmarshal.getSpanFrom env v1 scope dim extent first := by
  unfold getSpanFrom Unmarshal.getSpanFrom
  refine bind_congr_of (getSize_lt env v1) fun length hlength => ?_
  rw [Ndr.Bounded.fit_eq trap (by omega), lift_ok_bind]
  cases dim.limits with
  | none => rfl
  | some limits => simp only [checkLimits_eq trap hfirst hlength]

theorem getSpan_eq : getSpan trap env = Unmarshal.getSpan env := by
  funext v1 scope dim extent
  rw [Unmarshal.getSpan_eq, getSpan, getSpanFrom_eq trap env (by decide)]
  split
  · rfl
  · exact bind_congr_of (getCount_lt env) fun first hfirst => getSpanFrom_eq trap env hfirst ..

theorem getShape_eq : getShape trap env = Unmarshal.getShape env := by
  funext kind v1 scope a extents
  unfold getShape Unmarshal.getShape
  simp only [getSpan_eq, Ndr.Bounded.Dims.collect_eq]
  split
  · exact bind_pure _
  · rfl

/-! #### Elements -/

/-- Dimensions of these sizes, with ranges that lie within them. -/
def Within (extents : List Nat) (shape : Shape) : Prop :=
  shape.map (·.extent) = extents ∧ ∀ d ∈ shape, d.first + d.length ≤ d.extent

theorem within_getSpanFrom (v1 : Bool) (scope : ScopeId) (dim : Dimension) (extent first : Nat) :
    Keeps (fun _ => True) (fun d => d.extent = extent ∧ d.first + d.length ≤ d.extent)
      (Unmarshal.getSpanFrom env v1 scope dim extent first) := by
  refine (Keeps.ofTrue _).bind fun length _ => ?_
  dsimp only
  split
  · exact (Keeps.throw (P := fun _ => False) _).bind fun _ h => h.elim
  · rename_i hwithin
    have hspan : Keeps (fun _ => True) (fun d => d.extent = extent ∧ d.first + d.length ≤ d.extent)
        (pure { extent, first, length } : Unmarshalling Span) := .pure ⟨rfl, Nat.le_of_not_lt hwithin⟩
    split
    · exact hspan
    · exact (Keeps.ofTrue _).bind fun _ _ => hspan

theorem within_getSpan (v1 : Bool) (scope : ScopeId) (dim : Dimension) (extent : Nat) :
    Keeps (fun _ => True) (fun d => d.extent = extent ∧ d.first + d.length ≤ d.extent)
      (Unmarshal.getSpan env v1 scope dim extent) := by
  rw [Unmarshal.getSpan_eq]
  refine .ite (within_getSpanFrom env v1 scope dim extent 0) ?_
  exact (Keeps.ofTrue _).bind fun first _ => within_getSpanFrom env v1 scope dim extent first

theorem within_getShape {a : ArrayDefinition} {extents : List Nat}
    (h : extents.length ≤ a.dimensions.length) (kind : ArrayKind) (v1 : Bool) (scope : ScopeId) :
    Keeps (fun _ => True) (Within extents) (Unmarshal.getShape env kind v1 scope a extents) := by
  unfold Unmarshal.getShape
  split
  · refine (Keeps.mapM_forall₂ fun p _ => within_getSpan env v1 scope p.1 p.2).mono
      fun shape hshape => ⟨?_, fun d hd => ?_⟩
    · have hmap := List.forall₂_map_left_iff.2 (List.forall₂_map_right_iff.2
        (hshape.imp fun p d hd => hd.1.symm))
      rw [List.forall₂_eq_eq_eq] at hmap
      exact hmap.symm.trans (List.map_snd_zip h)
    · obtain ⟨p, -, hd⟩ := exists_of_forall₂ hshape.flip hd
      exact hd.2
  · refine .pure ⟨?_, fun d hd => ?_⟩
    · rw [List.map_map]
      exact List.map_id _
    · obtain ⟨n, -, rfl⟩ := List.mem_map.1 hd
      exact Nat.le_of_eq (Nat.zero_add n)

theorem getString_eq {shape : Shape} (h : shape ≠ []) (element : Descriptor) :
    getString trap env walk element shape site = Unmarshal.getString env walk element shape site := by
  obtain ⟨d, ds, rfl⟩ := List.exists_cons_of_ne_nil h
  rfl

theorem getPart_eq {shape : Shape} (h : shape.Countable) (element : Descriptor) (total : Nat) :
    getPart trap env walk element shape total site
      = Unmarshal.getPart env walk element shape total site := by
  unfold getPart Unmarshal.getPart
  simp only [Shape.Bounded.foldIndices_eq trap h fun _ _ _ => rfl]

theorem getContents_eq {m : Modifiers} {a : ArrayDefinition} {read : Option (List Nat)}
    (h : ∀ counts, read = some counts → Counts a.dimensions.length counts)
    (hs : m.isString → a.dimensions.length = 1) (kind : ArrayKind) :
    getContents trap env walk m kind a site read = Unmarshal.getContents env walk m kind a site read := by
  unfold getContents Unmarshal.getContents
  rw [extentsIn_eq trap h, getShape_eq]
  refine bind_congr_of (counts_extentsIn h site.scope) fun extents hextents => ?_
  refine lift_bind_congr fun total htotal => bind_congr fun _ => ?_
  refine bind_congr_of (within_getShape env hextents.le kind m.isV1 site.scope) fun shape hshape => ?_
  have hcountable : shape.Countable := .of_total hshape.2 (hshape.1 ▸ htotal)
  by_cases hstring : m.isString
  · have hlength : shape.length = 1 := by
      rw [← List.length_map (·.extent), hshape.1, hextents, hs hstring]
    have hne : shape ≠ [] := fun e => absurd hlength (by simp [e])
    simp only [if_pos hstring, getString_eq trap env hne]
  · simp only [if_neg hstring, getPart_eq trap env hcountable]

theorem getArray_eq {m : Modifiers} {dims : Nat} {preset : Option (List Nat)}
    (h : ∀ counts, preset = some counts → Counts dims counts) (kind : ArrayKind) (definition : Nat) :
    getArray trap env walk m kind dims definition site preset
      = Unmarshal.getArray env walk m kind dims definition site preset := by
  rw [Unmarshal.getArray_eq]
  unfold getArray
  rw [getExtents_eq]
  refine bind_congr fun a => lift_bind_congr fun _ hdims => bind_congr fun _ => ?_
  refine lift_bind_congr fun _ hcharacters => ?_
  have hs : m.isString → a.dimensions.length = 1 := by
    intro hs
    rw [ArrayDefinition.checkCharacters, if_pos hs] at hcharacters
    obtain ⟨kind, hkind, -⟩ := Except.map_eq_ok.1 hcharacters
    exact (Lockstep.characterKind_eq_ok hkind).1
  have hdims : dims = a.dimensions.length := by
    by_contra hne
    rw [ArrayDefinition.checkDims, if_neg hne] at hdims
    exact absurd hdims (by simp)
  have hread : Keeps (fun _ => True) (fun read => ∀ counts, read = some counts →
      Counts a.dimensions.length counts) (some <$> Unmarshal.getExtents env a.dimensions.length m.isV1) :=
    (counts_getExtents env a.dimensions.length m.isV1).map fun counts hcounts _ e =>
      Option.some.inj e ▸ hcounts
  cases kind.isConformant with
  | false => exact getContents_eq trap env (by simp) hs kind
  | true =>
    cases preset with
    | none => exact bind_congr_of hread fun read hread => getContents_eq trap env hread hs kind
    | some counts =>
      exact getContents_eq trap env (hdims ▸ h) hs kind

/-! #### Structs -/

theorem getFields_eq {fields : List Descriptor} {index : Nat} (h : index < 2 ^ 32)
    (hlast : ∀ d, (fields.filter Descriptor.isField).getLast? = some d → last d site = last' d site)
    (slots : Array Value) : getFields trap env walk last layout site index fields slots
      = Unmarshal.getFields env walk last' layout site index fields slots := by
  induction fields generalizing index slots with
  | nil => rfl
  | cons d ds ih =>
    have hrest : ∀ {index}, index < 2 ^ 32 → ∀ slots,
        getFields trap env walk last layout site index ds slots
          = Unmarshal.getFields env walk last' layout site index ds slots :=
      fun h => ih h fun e he => hlast e (getLast?_filter_cons he)
    unfold getFields Unmarshal.getFields
    by_cases hd : d.isField
    · have hafter : ∀ v : Value, (do
          setField trap site.scope index v.toInt?
          let slot ← env.interface.layout.slot layout index
          getFields trap env walk last layout site (index + 1) ds (slots.setIfInBounds slot v)) = (do
          Unmarshal.setField site.scope index v.toInt?
          let slot ← env.interface.layout.slot layout index
          Unmarshal.getFields env walk last' layout site (index + 1) ds (slots.setIfInBounds slot v)) := by
        intro v
        rw [setField_eq trap h]
        refine bind_congr fun _ => lift_bind_congr fun slot hslot => hrest ?_ _
        obtain ⟨count, hcount, hindex, -⟩ := Layout.slot_lt hslot
        exact Nat.lt_of_le_of_lt hindex (Layout.slotCount_lt hcount)
      rw [if_pos hd, if_pos hd, Ndr.Bounded.fit_eq trap (by omega), lift_ok_bind]
      by_cases hany : ds.any Descriptor.isField
      · rw [if_pos hany, if_pos hany]
        exact bind_congr hafter
      · rw [if_neg hany, if_neg hany, hlast d (getLast?_filter_of_not_any hd hany)]
        exact bind_congr hafter
    · rw [if_neg hd, if_neg hd, hrest h]

theorem getBody_eq {fields : List Descriptor}
    (hlast : ∀ d, (fields.filter Descriptor.isField).getLast? = some d → last d site = last' d site)
    (align count : Nat) : getBody trap env walk last align layout count fields site
      = Unmarshal.getBody env walk last' align layout count fields site := by
  unfold getBody Unmarshal.getBody
  rw [getFields_eq trap env (by decide) hlast]

/-- The end of a struct is the array whose dimensions were found ahead of it. -/
theorem endsWith_of_trailingDims {outermost trailing fuel dims levels : Nat} {v1 : Bool}
    {d : StructDefinition} (h : trailingDims env outermost trailing fuel d = .ok (dims, v1))
    {f : Descriptor} (hf : (d.fields.filter Descriptor.isField).getLast? = some f) :
    env.vector.EndsWith (fun _ n => n = dims) levels f := by
  induction fuel generalizing d f levels with
  | zero => exact absurd h (by simp [trailingDims])
  | succ fuel ih =>
    unfold trailingDims at h
    cases htail : conformantTail? d.fields trailing with
    | none => simp [htail] at h
    | some found =>
      obtain ⟨index, tail⟩ := found
      obtain ⟨-, e, hlast, hform⟩ := conformantTail?_eq_some htail
      obtain rfl := Option.some.inj (hlast.symm.trans hf)
      rw [htail] at h
      unfold TypeVector.EndsWith
      rcases hform with ⟨kind, props, n, hform, -, rfl⟩ | ⟨kind, props, definition, hform, -, rfl⟩
      · simp only [hform]
        obtain ⟨rfl, -⟩ := Prod.mk.inj (Except.ok.inj h)
        exact fun _ => rfl
      · simp only [hform]
        intro _
        obtain ⟨s, hs, hrest⟩ := Except.bind_eq_ok.1 h
        cases levels with
        | zero => trivial
        | succ levels =>
          intro s' hs' g hg
          obtain rfl := Except.ok.inj (hs.symm.trans hs')
          exact ih hrest hg

theorem getTail_eq {extents : List Nat} {levels : Nat} {d : Descriptor} {site : Site ScopeId}
    (hextents : ∀ n ∈ extents, n < 2 ^ 32)
    (h : env.vector.EndsWith (fun _ dims => dims = extents.length) levels d) :
    getTail trap env walk extents levels d site = Unmarshal.getTail env walk extents levels d site := by
  unfold getTail Unmarshal.getTail
  unfold TypeVector.EndsWith at h
  cases hform : d.form with
  | array kind props dims definition =>
    simp only [hform] at h ⊢
    by_cases hkind : kind.isConformant
    · rw [if_pos hkind, if_pos hkind]
      exact getArray_eq trap env (fun _ e => Option.some.inj e ▸ ⟨(h hkind).symm, hextents⟩) ..
    · rw [if_neg hkind, if_neg hkind]
  | struct kind props definition =>
    simp only [hform] at h ⊢
    by_cases hkind : kind = .fixed
    · rw [if_pos hkind, if_pos hkind]
    · rewrite [if_neg hkind, if_neg hkind, openStruct_eq]
      cases levels with
      | zero => rfl
      | succ levels =>
        refine lift_bind_congr fun s hs => bind_congr fun count => bind_congr fun inner => ?_
        -- the fields of the struct stand on the next level
        exact getBody_eq trap env (fun f hf => getTail_eq hextents (h hkind s hs f hf)) ..
  | _ => rfl

theorem getStruct_eq (kind : StructKind) (definition : Nat) :
    getStruct trap env walk kind definition site = Unmarshal.getStruct env walk kind definition site := by
  unfold getStruct Unmarshal.getStruct
  rewrite [openStruct_eq, getExtents_eq]
  refine bind_congr fun d => bind_congr fun count => bind_congr fun inner => ?_
  by_cases hkind : kind = .fixed
  · rw [if_pos hkind, if_pos hkind]
    exact getBody_eq trap env (fun _ _ => rfl) ..
  · rw [if_neg hkind, if_neg hkind]
    refine lift_bind_congr fun found hfound => ?_
    obtain ⟨dims, v1⟩ := found
    refine bind_congr_of (counts_getExtents env dims _) fun extents hextents => ?_
    refine getBody_eq trap env (fun f hf => getTail_eq trap env hextents.2 ?_) ..
    unfold hoistedDims at hfound
    split at hfound
    · exact absurd hfound (by simp)
    · rw [hextents.1]
      exact endsWith_of_trailingDims env hfound hf

theorem getNested_eq (align layout : Nat) (fields : List Descriptor) :
    getNested trap env walk align layout fields site
      = Unmarshal.getNested env walk align layout fields site := by
  unfold getNested Unmarshal.getNested
  rw [openStruct_eq]
  exact bind_congr fun count => bind_congr fun inner => getBody_eq trap env (fun _ _ => rfl) ..

/-! #### Values -/

theorem getForm_eq (d : Descriptor) :
    getForm trap env walk d site = Unmarshal.getForm env walk d site := by
  unfold getForm
  split
  case h_1 hform => rw [getStruct_eq, Unmarshal.getForm, hform]
  case h_2 hform => rw [getNested_eq, Unmarshal.getForm, hform]
  case h_3 hform => rw [getArray_eq trap env fun _ h => absurd h (by simp), Unmarshal.getForm, hform]
  · rfl

/-- The walk comes to no trap. -/
theorem walk_eq (room : Nat) : Bounded.walk trap env room = Unmarshal.walk env room := by
  induction room with
  | zero => rfl
  | succ room ih =>
    funext d site
    unfold Bounded.walk Unmarshal.walk
    rw [ih, getForm_eq]

theorem getParameter_eq : getParameter trap env = Unmarshal.getParameter env := by
  funext d current site
  unfold getParameter Unmarshal.getParameter
  rewrite [walk_eq]
  rfl

theorem replace_eq {params : List Value} {values : List (Nat × Value)}
    (h : ∀ p ∈ values, p.1 < params.length) :
    replace trap params values = .ok (Machine.replace params values) := by
  induction values generalizing params with
  | nil => rfl
  | cons p values ih =>
    have hitem := Ndr.Bounded.item_eq trap (List.getElem?_eq_getElem (h p List.mem_cons_self))
    rw [replace, List.foldlM_cons, hitem]
    refine ih fun q hq => ?_
    rw [List.length_set]
    exact h q (List.mem_cons_of_mem _ hq)

theorem readParameter_eq {p : Parameter} (h : p.index < 2 ^ 32) (params : List Value) (scope : ScopeId) :
    readParameter trap env params scope p = Unmarshal.readParameter env params scope p := by
  unfold readParameter Unmarshal.readParameter
  rewrite [getParameter_eq, walk_eq]
  cases params[p.index]? with
  | none => rfl
  | some current => simp only [setField_eq trap h]

theorem index_lt_readParameter (params : List Value) (scope : ScopeId) (p : Parameter) :
    Keeps (fun _ => True) (fun w => w.1 < params.length) (Unmarshal.readParameter env params scope p) := by
  unfold Unmarshal.readParameter
  cases hcurrent : params[p.index]? with
  | none => exact .throw _
  | some current =>
    have hlt : p.index < params.length := (List.getElem?_eq_some_iff.1 hcurrent).1
    exact (Keeps.ofTrue _).bind fun v _ => (Keeps.ofTrue _).bind fun _ _ =>
      (Keeps.ofTrue _).bind fun s _ => (Keeps.ofTrue _).bind fun _ _ => .pure hlt

/-- Reading comes to no trap. -/
theorem getParameters_eq (offset : Nat) (params : List Value) : getParameters trap env offset params
    = Machine.replace params <$> Unmarshal.getParameters env offset params := by
  unfold getParameters Unmarshal.getParameters
  rewrite [openScope_eq]
  simp only [map_bind, map_pure]
  refine lift_bind_congr fun list hlist => bind_congr fun s => bind_congr fun scope => ?_
  have hread : list.mapM (readParameter trap env params scope)
      = list.mapM (Unmarshal.readParameter env params scope) :=
    mapM_congr fun p hp => readParameter_eq trap env (env.vector.index_lt_of_parameters hlist p hp) ..
  have hindex : Keeps (fun _ => True) (fun values => ∀ w ∈ values, w.1 < params.length)
      (list.mapM (Unmarshal.readParameter env params scope)) := by
    refine (Keeps.mapM_forall₂ fun p _ => index_lt_readParameter env params scope p).mono
      fun values hvalues w hw => ?_
    obtain ⟨p, -, hlt⟩ := exists_of_forall₂ hvalues.flip hw
    exact hlt
  rw [hread]
  refine bind_congr_of hindex fun values hvalues => bind_congr fun _ => ?_
  rw [replace_eq trap hvalues]
  rfl

end Bounded

end Unmarshal

/-! ### No trap -/

/-- The walks take no step that a machine with words could not take. Whatever the trap is, the operators
on the values of fields, writing parameters, and reading them and putting them in place do the same in
words as without; a trap would show as a fault of the caller's choice. -/
theorem Bounded.walks_without_traps (trap : Fault) :
    Bounded.applyOperator trap = Ndr.applyOperator ∧
      (∀ env offset params, Marshal.Bounded.putParameters trap env offset params
        = Marshal.putParameters env offset params) ∧
      ∀ env offset params, Unmarshal.Bounded.getParameters trap env offset params
        = Machine.replace params <$> Unmarshal.getParameters env offset params :=
  ⟨Bounded.applyOperator_eq trap, Marshal.Bounded.putParameters_eq trap,
    Unmarshal.Bounded.getParameters_eq trap⟩

end Ndr
