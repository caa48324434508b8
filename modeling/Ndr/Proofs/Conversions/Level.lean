import Ndr.Machine
import Ndr.Proofs.Unmarshal.Steps

/-!
How many conversions are open around what is visited. The parts of a value are visited within as many
open conversions as the value, those behind a converted part as well, and what travels in place of a
host's value is visited within one more; never are there more than the limit, and a conversion beyond
it fails before it calls a routine. To say so, a walk is watched: whatever it visits within another
number of conversions than it should falls into a trap, and it makes no difference what the trap does.
-/

namespace Ndr

/-- How many conversions a descriptor opens around its parts. -/
def Descriptor.opens (d : Descriptor) : Nat :=
  match d.form with
  | .converted .. => 1
  | _ => 0

/-- A conversion beyond the limit: its routine and its type are looked up, and it fails. -/
def Interface.tooDeep {α : Type} (i : Interface) (limit index wire : Nat) : Except Fault α := do
  let _ ← i.routine index
  let _ ← i.vector.stream wire
  throw (.conversionsTooDeep limit)

/-! ### Writing -/

namespace Marshal

/-- Two walks that are the same within `level` open conversions. -/
def AgreeAt (level : Nat) (walk walk' : Walk) : Prop :=
  ∀ d v (site : Site Scope), site.conversions = level → walk d v site = walk' d v site

section

variable {env : Env} {walk walk' last last' : Walk} {site : Site Scope} {level : Nat}

/-! #### What a form visits -/

theorem putArray_agree (h : AgreeAt site.conversions walk walk') (m : Modifiers) (kind : ArrayKind)
    (dims definition : Nat) (v : Value) (preset : Option Shape) :
    putArray env walk m kind dims definition v site preset
      = putArray env walk' m kind dims definition v site preset := by
  unfold putArray putString putPart putElements
  simp only [h _ _ site.inside rfl]

theorem putUnion_agree (h : AgreeAt site.conversions walk walk') (definition : Nat)
    (field : Option Nat) (v : Value) : putUnion env walk definition field v site
      = putUnion env walk' definition field v site := by
  unfold putUnion putArm
  simp only [h _ _ site.inside rfl]

theorem putPointer_agree (h : AgreeAt site.conversions walk walk') (kind : PointerKind)
    (pointee : Nat) (v : Value) : putPointer env walk kind pointee v site
      = putPointer env walk' kind pointee v site := by
  unfold putPointer placePointee putPointee
  simp only [h _ _ { site with embedded := false } rfl]

theorem putFields_agree (site : Site Scope) (h : AgreeAt site.conversions walk walk')
    (hlast : AgreeAt site.conversions last last') (layout : Nat) (slots : List Value) (index : Nat)
    (ds : List Descriptor) : putFields env walk last layout slots site index ds
      = putFields env walk' last' layout slots site index ds := by
  induction ds generalizing index with
  | nil => rfl
  | cons d ds ih =>
    unfold putFields
    simp only [ih, h d _ site rfl, hlast d _ site rfl]

theorem agreeAt_putTail (h : AgreeAt level walk walk') (shape : Shape) (levels : Nat) :
    AgreeAt level (putTail env walk shape levels) (putTail env walk' shape levels) := by
  induction levels with
  | zero =>
    rintro d v site rfl
    unfold putTail
    simp only [h d v site rfl, putArray_agree h]
  | succ levels ih =>
    rintro d v site rfl
    unfold putTail
    simp only [h d v site rfl, putArray_agree h]
    cases d.form with
    | struct kind props definition =>
      dsimp only
      refine if_congr Iff.rfl rfl (bind_congr fun parts => bind_congr fun _ => ?_)
      exact putFields_agree { site with scope := parts.2.2, embedded := true } h ih _ _ _ _
    | _ => rfl

theorem putStruct_agree (h : AgreeAt site.conversions walk walk') (kind : StructKind)
    (definition : Nat) (v : Value) :
    putStruct env walk kind definition v site = putStruct env walk' kind definition v site := by
  unfold putStruct
  refine bind_congr fun parts => ?_
  refine if_congr Iff.rfl (bind_congr fun _ => ?_) (bind_congr fun hoisted => bind_congr fun _ =>
    bind_congr fun _ => ?_)
  · exact putFields_agree { site with scope := parts.2.2, embedded := true } h h _ _ _ _
  · exact putFields_agree { site with scope := parts.2.2, embedded := true } h
      (agreeAt_putTail h _ _) _ _ _ _

theorem putNested_agree (h : AgreeAt site.conversions walk walk') (align layout : Nat)
    (fields : List Descriptor) (v : Value) : putNested env walk align layout fields v site
      = putNested env walk' align layout fields v site := by
  unfold putNested
  refine bind_congr fun slots => bind_congr fun scope => bind_congr fun _ => ?_
  exact putFields_agree { site with scope, embedded := true } h h _ _ _ _

theorem putPieces_agree (site : Site Scope) (h : AgreeAt site.conversions walk walk') (k : PipeHandle)
    (element : Descriptor) (fuel : Nat) : putPieces env walk k element site fuel
      = putPieces env walk' k element site fuel := by
  induction fuel with
  | zero => rfl
  | succ fuel ih =>
    unfold putPieces
    simp only [ih, h element _ site rfl]

theorem putPipe_agree (h : AgreeAt site.conversions walk walk') (element : Nat) (v : Value) :
    putPipe env walk element v site = putPipe env walk' element v site := by
  have hpieces : ∀ k d fuel, putPieces env walk k d site.inside fuel
      = putPieces env walk' k d site.inside fuel := fun k d fuel =>
    putPieces_agree site.inside h k d fuel
  unfold putPipe
  simp only [hpieces]

theorem putConverted_agree (h : AgreeAt (site.conversions + 1) walk walk') (index wire : Nat)
    (v : Value) :
    putConverted env walk index wire v site = putConverted env walk' index wire v site := by
  have hmade := fun d w => h d w { site with conversions := site.conversions + 1 } rfl
  unfold putConverted
  simp only [hmade]

theorem putForm_agree {d : Descriptor} (h : AgreeAt (site.conversions + d.opens) walk walk')
    (v : Value) :
    putForm env walk d v site = putForm env walk' d v site := by
  unfold Descriptor.opens at h
  unfold putForm
  cases hform : d.form with
  | struct => rw [hform] at h; exact putStruct_agree h _ _ _
  | nested => rw [hform] at h; exact putNested_agree h _ _ _ _
  | array => rw [hform] at h; exact putArray_agree h _ _ _ _ _ _
  | encapsulatedUnion => rw [hform] at h; exact putUnion_agree h _ _ _
  | switchedUnion => rw [hform] at h; exact putUnion_agree h _ _ _
  | pointer => rw [hform] at h; exact putPointer_agree h _ _ _
  | converted => rw [hform] at h; exact putConverted_agree h _ _ _
  | pipe => rw [hform] at h; exact putPipe_agree h _ _
  | _ => rfl

theorem putDeferred_agree (h : AgreeAt 0 walk walk') (depth : Nat) (ds : List (Deferred Scope)) :
    putDeferred env walk depth ds = putDeferred env walk' depth ds := by
  induction depth generalizing ds with
  | zero => cases ds <;> rfl
  | succ depth ih =>
    cases ds with
    | nil => rfl
    | cons d ds =>
      unfold putDeferred putPointee
      simp only [ih, h _ _ { scope := _, embedded := false } rfl]

theorem flush_agree (h : AgreeAt 0 walk walk') : flush env walk = flush env walk' := by
  unfold flush
  exact bind_congr fun ds => putDeferred_agree h _ ds

end

/-! #### Walks that are watched -/

section

variable (env : Env) (trap : Walk)

/-- Write a value; `walk` writes what is embedded in it. -/
abbrev visit (walk : Walk) : Walk := fun d v site => do
  putForm env walk d v site
  match d.modifiers.freeRep with
  | some routine => freeInstance env routine v
  | none => return

theorem walk_succ (room : Nat) : walk env (room + 1) = visit env (walk env room) := rfl

/-- The walk within `level` open conversions; elsewhere it is a trap. -/
def onLevel (walk : Walk) (level : Nat) : Walk := fun d v site =>
  if site.conversions = level then walk d v site else trap d v site

/-- The walk, watched: it falls into the trap where more conversions are open than the limit, or where
more or fewer are open around a part than its value says. -/
def watched : Nat → Walk
  | 0, d, v, site => walk env 0 d v site
  | room + 1, d, v, site =>
    if env.config.maxConversions < site.conversions then trap d v site
    else visit env (onLevel trap (watched room) (site.conversions + d.opens)) d v site

/-- Write the parameters of an operation by some walk. -/
def putParametersBy (walk : Walk) (offset : Nat) (params : List Value) : Marshalling Unit := do
  let list ← env.vector.parameters offset
  let scope := (params.map (correlationOf env.heap)).toArray
  list.forM fun p => do
    match params[p.index]? with
    | none => throw (.parameterIndex p.index params.length)
    | some v =>
      walk p.descriptor v { scope, embedded := false }
      flush env walk

variable {env trap} {site : Site Scope}

/-- Beyond the limit no routine is called. -/
theorem putConverted_tooDeep (h : env.config.maxConversions ≤ site.conversions) (walk : Walk)
    (index wire : Nat) (v : Value) : putConverted env walk index wire v site
      = liftM (env.interface.tooDeep env.config.maxConversions index wire : Except Fault Unit) := by
  unfold putConverted Interface.tooDeep
  simp only [lift_bind]
  exact bind_congr fun _ => bind_congr fun _ => if_pos h

theorem agreeAt_onLevel {walk walk' : Walk} {level : Nat} (h : AgreeAt level walk walk') :
    AgreeAt level (onLevel trap walk level) walk' := by
  rintro d v site rfl
  exact (if_pos rfl).trans (h d v site rfl)

/-- The watched walk never falls into its trap. -/
theorem watched_eq (room : Nat) (d : Descriptor) (v : Value)
    (h : site.conversions ≤ env.config.maxConversions) :
    watched env trap room d v site = walk env room d v site := by
  induction room generalizing d v site with
  | zero => rfl
  | succ room ih =>
    unfold watched
    rw [if_neg (Nat.not_lt.2 h), walk_succ]
    suffices hform : putForm env (onLevel trap (watched env trap room) (site.conversions + d.opens)) d v
        site = putForm env (walk env room) d v site by
      unfold visit
      rw [hform]
    by_cases hlevel : site.conversions + d.opens ≤ env.config.maxConversions
    · exact putForm_agree (agreeAt_onLevel fun d v inner hinner => ih d v (hinner ▸ hlevel)) v
    -- The limit is reached, and the value is one that is converted.
    unfold Descriptor.opens at hlevel
    unfold putForm
    cases hform : d.form with
    | converted kind props index wire =>
      have hlimit : env.config.maxConversions ≤ site.conversions := by
        rw [hform] at hlevel
        dsimp only at hlevel
        omega
      exact (putConverted_tooDeep hlimit _ _ _ _).trans (putConverted_tooDeep hlimit _ _ _ _).symm
    | _ => exact absurd h (by rw [hform] at hlevel; exact hlevel)

theorem putParametersBy_agree {walk walk' : Walk} (h : AgreeAt 0 walk walk') (offset : Nat)
    (params : List Value) :
    putParametersBy env walk offset params = putParametersBy env walk' offset params := by
  unfold putParametersBy
  simp only [flush_agree h, h _ _ { scope := _, embedded := false } rfl]

/-- **Conversions that are open while an operation writes**: whatever the trap does, the operation does
the same when its walks are watched. -/
theorem putParameters_watched (env : Env) (trap : Walk) (offset : Nat) (params : List Value) :
    putParametersBy env (onLevel trap (watched env trap env.config.maxNesting) 0) offset params
      = putParameters env offset params :=
  putParametersBy_agree (agreeAt_onLevel fun d v _ hsite =>
    watched_eq _ d v (hsite ▸ Nat.zero_le _)) offset params

end

end Marshal

/-! ### Reading -/

namespace Unmarshal

/-- Two walks that are the same within `level` open conversions. -/
def AgreeAt (level : Nat) (walk walk' : Walk) : Prop :=
  ∀ d (site : Site ScopeId), site.conversions = level → walk d site = walk' d site

section

variable {env : Env} {walk walk' last last' : Walk} {site : Site ScopeId} {level : Nat}

/-! #### What a form visits -/

theorem getArray_agree (h : AgreeAt site.conversions walk walk') (m : Modifiers) (kind : ArrayKind)
    (dims definition : Nat) (preset : Option (List Nat)) :
    getArray env walk m kind dims definition site preset
      = getArray env walk' m kind dims definition site preset := by
  unfold getArray getString getPart getElements
  simp only [h _ site.inside rfl]

theorem getUnion_agree (h : AgreeAt site.conversions walk walk') (definition : Nat)
    (field : Option Nat) :
    getUnion env walk definition field site = getUnion env walk' definition field site := by
  unfold getUnion getArm
  simp only [h _ site.inside rfl]

theorem getPointer_agree (h : AgreeAt site.conversions walk walk') (kind : PointerKind)
    (pointee : Nat) :
    getPointer env walk kind pointee site = getPointer env walk' kind pointee site := by
  unfold getPointer getReference placePointee getPointee
  simp only [h _ { site with embedded := false } rfl]

theorem getFields_agree (h : AgreeAt site.conversions walk walk')
    (hlast : AgreeAt site.conversions last last') (layout index : Nat) (ds : List Descriptor)
    (slots : Array Value) : getFields env walk last layout site index ds slots
      = getFields env walk' last' layout site index ds slots := by
  induction ds generalizing index slots with
  | nil => rfl
  | cons d ds ih =>
    unfold getFields
    simp only [ih, h d site rfl, hlast d site rfl]

theorem getBody_agree (h : AgreeAt site.conversions walk walk')
    (hlast : AgreeAt site.conversions last last') (align layout count : Nat)
    (fields : List Descriptor) : getBody env walk last align layout count fields site
      = getBody env walk' last' align layout count fields site := by
  unfold getBody
  simp only [getFields_agree h hlast]

/-- What follows where a struct was opened may count on the conversions being those around it. -/
theorem openStruct_bind_agree {α : Type} {count : Nat} {f g : Site ScopeId → Unmarshalling α}
    (h : ∀ inner, inner.conversions = site.conversions → f inner = g inner) :
    openStruct count site >>= f = openStruct count site >>= g := by
  unfold openStruct
  simp only [bind_assoc, pure_bind]
  exact bind_congr fun scope => h _ rfl

theorem agreeAt_getTail (h : AgreeAt level walk walk') (extents : List Nat) (levels : Nat) :
    AgreeAt level (getTail env walk extents levels) (getTail env walk' extents levels) := by
  induction levels with
  | zero =>
    rintro d site rfl
    unfold getTail
    simp only [h d site rfl, getArray_agree h]
  | succ levels ih =>
    rintro d site rfl
    unfold getTail
    simp only [h d site rfl, getArray_agree h]
    cases d.form with
    | struct kind props definition =>
      dsimp only
      refine if_congr Iff.rfl rfl (bind_congr fun s => bind_congr fun count => ?_)
      exact openStruct_bind_agree fun inner hinner =>
        getBody_agree (hinner ▸ h) (hinner ▸ ih) _ _ _ _
    | _ => rfl

theorem getStruct_agree (h : AgreeAt site.conversions walk walk') (kind : StructKind)
    (definition : Nat) :
    getStruct env walk kind definition site = getStruct env walk' kind definition site := by
  unfold getStruct
  refine bind_congr fun d => bind_congr fun count => openStruct_bind_agree fun inner hinner => ?_
  refine if_congr Iff.rfl (getBody_agree (hinner ▸ h) (hinner ▸ h) _ _ _ _) ?_
  refine bind_congr fun hoisted => bind_congr fun extents => ?_
  exact getBody_agree (hinner ▸ h) (hinner ▸ agreeAt_getTail h _ _) _ _ _ _

theorem getNested_agree (h : AgreeAt site.conversions walk walk') (align layout : Nat)
    (fields : List Descriptor) :
    getNested env walk align layout fields site = getNested env walk' align layout fields site := by
  unfold getNested
  refine bind_congr fun count => openStruct_bind_agree fun inner hinner => ?_
  exact getBody_agree (hinner ▸ h) (hinner ▸ h) _ _ _ _

theorem getPiece_agree (h : AgreeAt site.conversions walk walk') (k : PipeHandle)
    (element : Descriptor) (fuel n : Nat) :
    getPiece walk k element site fuel n = getPiece walk' k element site fuel n := by
  induction fuel generalizing n with
  | zero => cases n <;> rfl
  | succ fuel ih =>
    cases n with
    | zero => rfl
    | succ n =>
      unfold getPiece
      simp only [ih, h element site rfl]

theorem getPieces_agree (site : Site ScopeId) (h : AgreeAt site.conversions walk walk') (k : PipeHandle)
    (element : Descriptor) (fuel : Nat) :
    getPieces env walk k element site fuel = getPieces env walk' k element site fuel := by
  induction fuel with
  | zero => rfl
  | succ fuel ih =>
    unfold getPieces
    simp only [ih, getPiece_agree h]

theorem getPipe_agree (h : AgreeAt site.conversions walk walk') (element : Nat) (current : Value) :
    getPipe env walk element current site = getPipe env walk' element current site := by
  have hpieces : ∀ k d fuel, getPieces env walk k d site.inside fuel
      = getPieces env walk' k d site.inside fuel := fun k d fuel =>
    getPieces_agree site.inside h k d fuel
  unfold getPipe
  simp only [hpieces]

theorem getConverted_agree (h : AgreeAt (site.conversions + 1) walk walk') (index wire : Nat) :
    getConverted env walk index wire site = getConverted env walk' index wire site := by
  have hmade := fun d => h d { site with conversions := site.conversions + 1 } rfl
  unfold getConverted
  simp only [hmade]

theorem getForm_agree {d : Descriptor} (h : AgreeAt (site.conversions + d.opens) walk walk') :
    getForm env walk d site = getForm env walk' d site := by
  unfold Descriptor.opens at h
  unfold getForm
  cases hform : d.form with
  | struct => rw [hform] at h; exact getStruct_agree h _ _
  | nested => rw [hform] at h; exact getNested_agree h _ _ _
  | array => rw [hform] at h; exact getArray_agree h _ _ _ _ _
  | encapsulatedUnion => rw [hform] at h; exact getUnion_agree h _ _
  | switchedUnion => rw [hform] at h; exact getUnion_agree h _ _
  | pointer => rw [hform] at h; exact getPointer_agree h _ _
  | converted => rw [hform] at h; exact getConverted_agree h _ _
  | _ => rfl

theorem getDeferred_agree (h : AgreeAt 0 walk walk') (depth : Nat) (ds : List (Deferred ScopeId)) :
    getDeferred env walk depth ds = getDeferred env walk' depth ds := by
  induction depth generalizing ds with
  | zero => cases ds <;> rfl
  | succ depth ih =>
    cases ds with
    | nil => rfl
    | cons d ds =>
      unfold getDeferred getPointee
      simp only [ih, h _ { scope := _, embedded := false } rfl]

theorem flush_agree (h : AgreeAt 0 walk walk') : flush env walk = flush env walk' := by
  unfold flush
  simp only [getDeferred_agree h]

end

/-! #### Walks that are watched -/

section

variable (env : Env) (trap : Walk)

theorem walk_succ (room : Nat) : walk env (room + 1) = getForm env (walk env room) := rfl

/-- The walk within `level` open conversions; elsewhere it is a trap. -/
def onLevel (walk : Walk) (level : Nat) : Walk := fun d site =>
  if site.conversions = level then walk d site else trap d site

/-- The walk, watched: it falls into the trap where more conversions are open than the limit, or where
more or fewer are open around a part than its value says. -/
def watched : Nat → Walk
  | 0, d, site => walk env 0 d site
  | room + 1, d, site =>
    if env.config.maxConversions < site.conversions then trap d site
    else getForm env (onLevel trap (watched room) (site.conversions + d.opens)) d site

/-- Read a parameter by some walk. -/
def getParameterBy (walk : Walk) (d : Descriptor) (current : Value) (site : Site ScopeId) :
    Unmarshalling Value :=
  match d.form with
  | .pipe _ element => getPipe env walk element current site
  | .context direction => getContext env direction current
  | _ => walk d site

/-- Read the parameters of an operation by some walk. -/
def getParametersBy (walk : Walk) (offset : Nat) (params : List Value) :
    Unmarshalling (List (Nat × Value)) := do
  let list ← env.vector.parameters offset
  let scope ← openScope (parameterScope (← get).heap list params)
  let site : Site ScopeId := { scope, embedded := false }
  let values ← list.mapM fun p => do
    match params[p.index]? with
    | none => throw (.parameterIndex p.index params.length)
    | some current =>
      let v ← getParameterBy env walk p.descriptor current site
      flush env walk
      setField scope p.index (correlationOf (← get).heap v)
      return (p.index, v)
  verifyLate scope
  return values

variable {env trap} {site : Site ScopeId}

/-- Beyond the limit no routine is called. -/
theorem getConverted_tooDeep (h : env.config.maxConversions ≤ site.conversions) (walk : Walk)
    (index wire : Nat) : getConverted env walk index wire site
      = liftM (env.interface.tooDeep env.config.maxConversions index wire : Except Fault Value) := by
  unfold getConverted Interface.tooDeep
  simp only [lift_bind]
  exact bind_congr fun _ => bind_congr fun _ => if_pos h

theorem agreeAt_onLevel {walk walk' : Walk} {level : Nat} (h : AgreeAt level walk walk') :
    AgreeAt level (onLevel trap walk level) walk' := by
  rintro d site rfl
  exact (if_pos rfl).trans (h d site rfl)

/-- The watched walk never falls into its trap. -/
theorem watched_eq (room : Nat) (d : Descriptor)
    (h : site.conversions ≤ env.config.maxConversions) :
    watched env trap room d site = walk env room d site := by
  induction room generalizing d site with
  | zero => rfl
  | succ room ih =>
    unfold watched
    rw [if_neg (Nat.not_lt.2 h), walk_succ]
    by_cases hlevel : site.conversions + d.opens ≤ env.config.maxConversions
    · exact getForm_agree (agreeAt_onLevel fun d inner hinner => ih d (hinner ▸ hlevel))
    -- The limit is reached, and the value is one that is converted.
    unfold Descriptor.opens at hlevel
    unfold getForm
    cases hform : d.form with
    | converted kind props index wire =>
      have hlimit : env.config.maxConversions ≤ site.conversions := by
        rw [hform] at hlevel
        dsimp only at hlevel
        omega
      exact (getConverted_tooDeep hlimit _ _ _).trans (getConverted_tooDeep hlimit _ _ _).symm
    | _ => exact absurd h (by rw [hform] at hlevel; exact hlevel)

theorem getParametersBy_agree {walk walk' : Walk} (h : AgreeAt 0 walk walk') (offset : Nat)
    (params : List Value) :
    getParametersBy env walk offset params = getParametersBy env walk' offset params := by
  have hpipe : ∀ element current scope, getPipe env walk element current { scope, embedded := false }
      = getPipe env walk' element current { scope, embedded := false } :=
    fun element current _ => getPipe_agree h element current
  unfold getParametersBy getParameterBy
  simp only [flush_agree h, hpipe, h _ { scope := _, embedded := false } rfl]

/-- **Conversions that are open while an operation reads**: whatever the trap does, the operation does
the same when its walks are watched. -/
theorem getParameters_watched (env : Env) (trap : Walk) (offset : Nat) (params : List Value) :
    getParametersBy env (onLevel trap (watched env trap env.config.maxNesting) 0) offset params
      = getParameters env offset params :=
  getParametersBy_agree (agreeAt_onLevel fun d _ hsite =>
    watched_eq _ d (hsite ▸ Nat.zero_le _)) offset params

end

end Unmarshal

end Ndr
