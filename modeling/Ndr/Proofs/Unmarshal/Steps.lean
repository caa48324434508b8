import Ndr.Machine
import Ndr.Proofs.Action

/-!
The steps of reading that make cells, fill them and keep track of them: what each did where it
succeeds.
-/

namespace Ndr

/-- The elements of a string are characters. -/
def ArrayDefinition.checkCharacters (a : ArrayDefinition) (isString : Bool) : Except Fault Unit :=
  if isString then (fun _ => ()) <$> a.characterKind else .ok ()

/-! ### Bounds -/

section

variable {b : Bound} {scope : Scope} (hb : b.isChecked)

include hb

/-- A bound that is compared is looked for in its field. -/
theorem Bound.resolve_of_some {v : Int} (hv : scope.get? b.field = some v) :
    b.resolve scope = Resolution.value <$> applyOperator b.operator v := by
  obtain ⟨h1, h2, h3, -, h5⟩ := by simpa [Bound.isChecked] using hb
  simp only [Bound.resolve, h1, h2, h3, h5, hv, if_false, or_self, Bool.false_eq_true,
    map_eq_pure_bind]

/-- A field that is not there is waited for, unless it has to come early. -/
theorem Bound.resolve_of_none (hv : scope.get? b.field = none) : b.resolve scope =
    if b.hasFlag BoundFlag.early then .error (.correlationUnavailable b.field) else .ok .late := by
  obtain ⟨h1, h2, h3, -, h5⟩ := by simpa [Bound.isChecked] using hb
  simp only [Bound.resolve, h1, h2, h3, h5, hv, if_false, or_self, Bool.false_eq_true]

end

/-! ### Node tables -/

namespace NodeTable

theorem cellOf?_register {t t' : NodeTable} {id : Nat} {c : CellId}
    (h : t.register id c = .ok t') (i : Nat) :
    t'.cellOf? i = if id = i then some c else t.cellOf? i := by
  unfold register at h
  split at h
  · simp at h
  · split at h
    · simp at h
    · cases h
      exact Pairing.right?_insert t.pairs id c i

theorem cellOf?_of_register {t t' : NodeTable} {id : Nat} {c : CellId}
    (h : t.register id c = .ok t') : t.cellOf? id = none := by
  unfold register at h
  split at h
  · simp at h
  · split at h
    · simp at h
    · rename_i hf
      simp only [not_or, Option.not_isSome_iff_eq_none] at hf
      exact hf.1

end NodeTable

namespace Unmarshal

variable {s t : State} {u : Unit}

/-! ### Cells -/

theorem allocate_eq_ok {c : CellId} : allocate s = .ok c t ↔ s.heap.checkRoom = .ok () ∧
    c = s.heap.allocations ∧
    t = { s with heap := s.heap.append .void, allocated := s.heap.allocations :: s.allocated } := by
  unfold allocate
  simp only [bind_eq_ok, get_eq_ok, lift_eq_ok, modify_eq_ok, pure_eq_ok]
  constructor
  · rintro ⟨_, _, ⟨rfl, rfl⟩, _, _, ⟨hr, rfl⟩, _, _, ⟨rfl, rfl⟩, _, _, rfl, rfl, rfl⟩
    exact ⟨hr, rfl, rfl⟩
  · rintro ⟨hr, rfl, rfl⟩
    exact ⟨_, _, ⟨rfl, rfl⟩, (), _, ⟨hr, rfl⟩, _, _, ⟨rfl, rfl⟩, (), _, rfl, rfl, rfl⟩

theorem store_eq_ok {c : CellId} {v : Value} : store c v s = .ok u t ↔
    s.heap.isLive c ∧ t = { s with heap := s.heap.put c v } := by
  unfold store
  simp only [bind_eq_ok, get_eq_ok]
  constructor
  · rintro ⟨_, _, ⟨rfl, rfl⟩, h⟩
    split at h
    · rename_i hl
      exact ⟨hl, (modify_eq_ok.1 h).symm⟩
    · exact absurd h throw_ne_ok
  · rintro ⟨hl, rfl⟩
    exact ⟨s, s, ⟨rfl, rfl⟩, by rw [if_pos hl]; exact modify_eq_ok.2 rfl⟩

/-! ### Pointers -/

theorem register_eq_ok {id : Nat} {c : CellId} : register id c s = .ok u t ↔
    ∃ nodes, s.nodes.register id c = .ok nodes ∧ t = { s with nodes } := by
  unfold register
  simp only [bind_eq_ok, get_eq_ok, lift_eq_ok, modify_eq_ok]
  constructor
  · rintro ⟨_, _, ⟨rfl, rfl⟩, nodes, _, ⟨hr, rfl⟩, rfl⟩
    exact ⟨nodes, hr, rfl⟩
  · rintro ⟨nodes, hr, rfl⟩
    exact ⟨_, _, ⟨rfl, rfl⟩, nodes, _, ⟨hr, rfl⟩, rfl⟩

theorem sight_eq_ok {p : Sighting} :
    sight p s = .ok u t ↔ t = { s with sightings := p :: s.sightings } := by
  unfold sight
  rw [modify_eq_ok, eq_comm]

theorem defer_eq_ok {d : Deferred ScopeId} :
    defer d s = .ok u t ↔ t = { s with deferred := d :: s.deferred } := by
  unfold defer
  rw [modify_eq_ok, eq_comm]

theorem takeDeferred_eq_ok {ds : List (Deferred ScopeId)} : takeDeferred s = .ok ds t ↔
    ds = s.deferred.reverse ∧ t = { s with deferred := [] } := by
  unfold takeDeferred
  rw [modifyGet_eq_ok, Prod.mk.injEq, eq_comm, eq_comm (a := t)]

/-- What a pointer that is not null leads to: the cell that is known by its id, or a new one. -/
abbrev pointTo (env : Env) (walk : Walk) (id pointee : Nat) (site : Site ScopeId)
    (nodes : NodeTable) : Unmarshalling Value :=
  match nodes.cellOf? id with
  | some cell => do
    sight { id := some id, pointee, cell }
    return .pointer (some cell)
  | none => do
    let cell ← allocate
    register id cell
    sight { id := some id, pointee, cell }
    placePointee env walk cell pointee site
    return .pointer (some cell)

theorem getPointer_eq (env : Env) (walk : Walk) {kind : PointerKind} (hk : kind ≠ .ref)
    (pointee : Nat) (site : Site ScopeId) :
    getPointer env walk kind pointee site = (do
      let id ← getCount env
      if id = 0 then return .pointer none
      else get >>= fun s => pointTo env walk id pointee site s.nodes) := by
  unfold getPointer
  exact if_neg hk

/-- Pointees are read one after the other, each with those that it puts off. -/
def fillAll (env : Env) (walk : Walk) (depth : Nat) (ds : List (Deferred ScopeId)) :
    Unmarshalling Unit :=
  ds.forM fun d => do
    getPointee env walk d.cell d.pointee { scope := d.scope, embedded := false }
    getDeferred env walk depth (← takeDeferred)

/-- One parameter of an operation. -/
abbrev readParameter (env : Env) (params : List Value) (scope : ScopeId) (p : Parameter) :
    Unmarshalling (Nat × Value) := do
  match params[p.index]? with
  | none => throw (.parameterIndex p.index params.length)
  | some current =>
    let v ← getParameter env p.descriptor current { scope, embedded := false }
    flush env (Unmarshal.walk env env.config.maxNesting)
    setField scope p.index (correlationOf (← get).heap v)
    return (p.index, v)

/-! ### Pipes -/

/-- The pieces of a pipe, up to the end of the message. -/
def getAllPieces (env : Env) (walk : Walk) (h : PipeHandle) (element : Descriptor)
    (site : Site ScopeId) : Unmarshalling Unit := do
  getPieces env walk h element site ((← get).reader.rest.length + 1)

/-! ### Arrays -/

/-- A dimension of a varying array, once its first element that is sent is known. -/
abbrev getSpanFrom (env : Env) (v1 : Bool) (scope : ScopeId) (dim : Dimension)
    (extent first : Nat) : Unmarshalling Span := do
  let length ← getSize env v1
  if extent < first + length then throw (.conformanceMismatch extent first length)
  match dim.limits with
  | none => pure ()
  | some limits => checkLimits limits scope first length
  return { extent, first, length }

theorem getSpan_eq (env : Env) (v1 : Bool) (scope : ScopeId) (dim : Dimension) (extent : Nat) :
    getSpan env v1 scope dim extent =
      if v1 then getSpanFrom env v1 scope dim extent 0
      else getCount env >>= getSpanFrom env v1 scope dim extent :=
  rfl

/-- What is read of an array behind its extents, where they travel. -/
def getContents (env : Env) (walk : Walk) (m : Modifiers) (kind : ArrayKind)
    (a : ArrayDefinition) (site : Site ScopeId) (read : Option (List Nat)) :
    Unmarshalling Value := do
  let extents ← extentsIn site.scope a read
  let total ← Shape.checkedProduct extents 1
  checkCount env total
  let shape ← getShape env kind m.isV1 site.scope a extents
  let elements ←
    (if m.isString then getString env walk a.element shape site.inside
    else if shape.isFull then getElements env walk a.element total site.inside
    else getPart env walk a.element shape total site.inside)
  return .array elements

theorem getArray_eq (env : Env) (walk : Walk) (m : Modifiers) (kind : ArrayKind)
    (dims definition : Nat) (site : Site ScopeId) (preset : Option (List Nat)) :
    getArray env walk m kind dims definition site preset = (do
      let a ← env.vector.arrayDefinition definition kind.isVarying
      a.checkDims dims
      a.checkBounds kind
      a.checkCharacters m.isString
      let read ← (if kind.isConformant then (match preset with
          | some counts => pure (some counts)
          | none => some <$> getExtents env a.dimensions.length m.isV1)
        else pure none)
      getContents env walk m kind a site read) := by
  unfold getArray getContents ArrayDefinition.checkCharacters
  congr 1
  funext a
  congr 1
  funext _
  congr 1
  funext _
  have hmap : ∀ (c : Bool) (x y : Unmarshalling (List Value)),
      (Value.array <$> if c then x else y) = if c then Value.array <$> x else Value.array <$> y :=
    fun c _ _ => by cases c <;> rfl
  have hpass : ∀ z : Unmarshalling Value, (do liftM (Except.ok () : Except Fault Unit); z) = z :=
    fun _ => rfl
  have hdrop : ∀ (e : Except Fault Scalar) (z : Unmarshalling Value),
      (do liftM ((fun _ => ()) <$> e); z) = (do let _ ← liftM e; z) := fun e _ => by cases e <;> rfl
  cases m.isString <;> cases kind.isConformant <;> cases preset <;> simp [hmap, hpass, hdrop]

/-! ### Contexts -/

/-- Reading a context, with the registry at hand. -/
abbrev contextIn (env : Env) (direction : ContextDirection) (current : Value)
    (contexts : Option Registry) : Unmarshalling Value :=
  match contexts with
  | none => throw .missingRegistry
  | some registry => do
    let u ← fetch (getToken env.order)
    match env.side with
    | .server => return .context (← resolveContext registry direction u)
    | .client => return .context (← adoptContext registry current.context?.toOption.join u)

theorem getContext_eq (env : Env) (direction : ContextDirection) (current : Value) :
    getContext env direction current = get >>= fun s => contextIn env direction current s.contexts :=
  rfl

/-- A client lets go of what it held for the null token, and adopts any other. -/
theorem adoptContext_eq_ok {registry : Registry} {held h : Option ContextHandle} {token : Uuid}
    (hs : s.contexts = some registry) (e : adoptContext registry held token s = .ok h t) :
    (token = .null ∧ h = none ∧ t = { s with closed := held.toList ++ s.closed }) ∨
      (token ≠ .null ∧ h = some (registry.adopt token).1 ∧
        ∃ adopted, t = { s with contexts := some (registry.adopt token).2, adopted }) := by
  unfold adoptContext at e
  split at e
  · rename_i hnull
    obtain ⟨_, _, h1, e⟩ := bind_eq_ok.1 e
    obtain rfl := modify_eq_ok.1 h1
    obtain ⟨rfl, rfl⟩ := pure_eq_ok.1 e
    exact .inl ⟨hnull, rfl, rfl⟩
  · rename_i hnull
    refine .inr ⟨hnull, ?_⟩
    dsimp only at e
    split at e
    · obtain ⟨_, _, h1, e⟩ := bind_eq_ok.1 e
      obtain rfl := modify_eq_ok.1 h1
      obtain ⟨rfl, rfl⟩ := pure_eq_ok.1 e
      exact ⟨rfl, _, rfl⟩
    · -- the registry has the token already
      rename_i hfound
      obtain ⟨rfl, rfl⟩ := pure_eq_ok.1 e
      obtain ⟨g, hg⟩ := Option.ne_none_iff_exists'.1 fun hnone =>
        hfound (Option.isNone_iff_eq_none.2 hnone)
      refine ⟨rfl, s.adopted, ?_⟩
      rw [Registry.adopt, hg, ← hs]

/-- What becomes of a context: a server looks up the token that it reads, a client holds it from then
on. -/
theorem getContext_eq_ok {env : Env} {direction : ContextDirection} {current v : Value}
    (e : getContext env direction current s = .ok v t) :
    ∃ registry token reader, s.contexts = some registry ∧
      getToken env.order s.reader = .ok token reader ∧
      ((env.side = .server ∧ ∃ h, resolveContext registry direction token = .ok h ∧
          v = .context h ∧ t = { s with reader }) ∨
        (env.side = .client ∧ token = .null ∧ v = .context none ∧
          t = { s with reader, closed := current.context?.toOption.join.toList ++ s.closed }) ∨
        (env.side = .client ∧ token ≠ .null ∧ v = .context (some (registry.adopt token).1) ∧
          ∃ adopted, t = { s with reader, contexts := some (registry.adopt token).2, adopted })) := by
  rw [getContext_eq] at e
  obtain ⟨_, _, h1, e⟩ := bind_eq_ok.1 e
  obtain ⟨rfl, rfl⟩ := get_eq_ok.1 h1
  unfold contextIn at e
  obtain ⟨registry, hcontexts⟩ : ∃ registry, s.contexts = some registry := by
    cases hcontexts : s.contexts with
    | none =>
      rw [hcontexts] at e
      exact absurd e throw_ne_ok
    | some registry => exact ⟨registry, rfl⟩
  simp only [hcontexts] at e
  obtain ⟨token, _, h2, e⟩ := bind_eq_ok.1 e
  obtain ⟨reader, hreader, rfl⟩ := onPart_eq_ok.1 h2
  refine ⟨registry, token, reader, hcontexts, hreader, ?_⟩
  cases hside : env.side with
  | server =>
    simp only [hside] at e
    obtain ⟨h, _, h3, e⟩ := bind_eq_ok.1 e
    obtain ⟨hresolve, rfl⟩ := lift_eq_ok.1 h3
    obtain ⟨rfl, rfl⟩ := pure_eq_ok.1 e
    exact .inl ⟨rfl, h, hresolve, rfl, rfl⟩
  | client =>
    simp only [hside] at e
    obtain ⟨h, u, h3, e⟩ := bind_eq_ok.1 e
    obtain ⟨rfl, rfl⟩ := pure_eq_ok.1 e
    rcases adoptContext_eq_ok (s := { s with reader }) hcontexts h3 with
      ⟨hnull, rfl, rfl⟩ | ⟨hnull, rfl, adopted, rfl⟩
    · exact .inr (.inl ⟨rfl, hnull, rfl, rfl⟩)
    · exact .inr (.inr ⟨rfl, hnull, rfl, adopted, rfl⟩)

/-! ### Scopes -/

theorem openScope_eq_ok {scope : Scope} {id : ScopeId} : openScope scope s = .ok id t ↔
    id = s.scopes.size ∧ t = { s with scopes := s.scopes.push scope } := by
  unfold openScope
  rw [modifyGet_eq_ok, Prod.mk.injEq, eq_comm, eq_comm (a := t)]

theorem scopeOf_eq_ok {scope : Scope} {id : ScopeId} : scopeOf id s = .ok scope t ↔
    s.scopes[id]?.getD #[] = scope ∧ s = t := by
  unfold scopeOf
  simp only [bind_eq_ok, get_eq_ok, pure_eq_ok]
  constructor
  · rintro ⟨_, _, ⟨rfl, rfl⟩, rfl, rfl⟩
    exact ⟨rfl, rfl⟩
  · rintro ⟨rfl, rfl⟩
    exact ⟨_, _, ⟨rfl, rfl⟩, rfl, rfl⟩

/-- What `setField` does to a scope. -/
def enter (scopes : Array Scope) (id : ScopeId) (field : Nat) (v : Option Int) : Array Scope :=
  match v with
  | none => scopes
  | some v => scopes.modify id (·.insert field v)

theorem setField_eq_ok {id : ScopeId} {field : Nat} {v : Option Int} :
    setField id field v s = .ok u t ↔ t = { s with scopes := enter s.scopes id field v } := by
  cases v with
  | none => exact pure_eq_ok.trans ⟨fun h => h.2.symm, fun h => ⟨rfl, h.symm⟩⟩
  | some v => exact modify_eq_ok.trans eq_comm

theorem verifyLate_eq_ok {scope : ScopeId} : verifyLate scope s = .ok u t ↔
    (∀ c ∈ s.due scope, c.verify (s.scopes[scope]?.getD #[]) = .ok ()) ∧
      t = { s with late := s.late.erase scope } := by
  unfold verifyLate
  simp only [bind_eq_ok, get_eq_ok, modify_eq_ok, scopeOf_eq_ok, forM_lift_eq_ok, List.mem_reverse]
  constructor
  · rintro ⟨_, _, ⟨rfl, rfl⟩, _, _, rfl, _, _, ⟨rfl, rfl⟩, h, rfl⟩
    exact ⟨h, rfl⟩
  · rintro ⟨h, rfl⟩
    exact ⟨_, _, ⟨rfl, rfl⟩, (), _, rfl, _, _, ⟨rfl, rfl⟩, h, rfl⟩

/-- What comparing a bound with its field does: the bound agrees, or waits for a field that its scope
does not have yet. -/
theorem checkBound_eq_ok {b : Bound} {wire : Int} {scope : ScopeId}
    (e : checkBound b wire scope s = .ok u t) :
    ((b.isChecked → (LateCheck.mk b wire).verify (s.scopes[scope]?.getD #[]) = .ok ()) ∧ t = s) ∨
      ((s.scopes[scope]?.getD #[]).get? b.field = none ∧
        t = { s with late := s.late.insert scope (⟨b, wire⟩ :: s.due scope) }) := by
  unfold checkBound at e
  split at e
  · rename_i hb
    obtain ⟨fields, _, h1, e⟩ := bind_eq_ok.1 e
    obtain ⟨rfl, rfl⟩ := scopeOf_eq_ok.1 h1
    obtain ⟨r, _, h2, e⟩ := bind_eq_ok.1 e
    obtain ⟨hr, rfl⟩ := lift_eq_ok.1 h2
    cases hv : (s.scopes[scope]?.getD #[]).get? b.field with
    | some v =>
      rw [Bound.resolve_of_some hb hv] at hr
      obtain ⟨w, hw, rfl⟩ := Except.map_eq_ok.1 hr
      dsimp only at e
      split at e
      · exact absurd e throw_ne_ok
      · rename_i hwire
        obtain ⟨-, rfl⟩ := pure_eq_ok.1 e
        refine .inl ⟨fun _ => ?_, rfl⟩
        simp only [LateCheck.verify, hv]
        exact Except.bind_eq_ok.2 ⟨w, hw, if_neg hwire⟩
    | none =>
      rw [Bound.resolve_of_none hb hv] at hr
      split at hr
      · exact absurd hr (by simp)
      · obtain rfl := Except.ok.inj hr
        exact .inr ⟨rfl, (modify_eq_ok.1 e).symm⟩
  · rename_i hb
    obtain ⟨-, rfl⟩ := pure_eq_ok.1 e
    exact .inl ⟨fun h => absurd h hb, rfl⟩

/-! ### Structs -/

/-- The first of some fields is read, and then the others; where it is no alignment, its value is entered
and has a slot. -/
theorem getFields_cons_eq_ok {env : Env} {walk last : Walk} {layout index : Nat}
    {site : Site ScopeId} {d : Descriptor} {ds : List Descriptor} {slots out : Array Value}
    (e : getFields env walk last layout site index (d :: ds) slots s = .ok out t) :
    ∃ walk' v u, (walk' = walk ∨ walk' = last) ∧ walk' d site s = .ok v u ∧
      ((∃ slot, env.interface.layout.slot layout index = .ok slot ∧
          getFields env walk last layout site (index + 1) ds (slots.setIfInBounds slot v)
            { u with scopes := enter u.scopes site.scope index v.toInt? } = .ok out t) ∨
        getFields env walk last layout site index ds slots u = .ok out t) := by
  have hrest : ∀ {v : Value} {u : State}, (do
        setField site.scope index v.toInt?
        let slot ← env.interface.layout.slot layout index
        getFields env walk last layout site (index + 1) ds (slots.setIfInBounds slot v) :
          Unmarshalling _) u = .ok out t →
      ∃ slot, env.interface.layout.slot layout index = .ok slot ∧
        getFields env walk last layout site (index + 1) ds (slots.setIfInBounds slot v)
          { u with scopes := enter u.scopes site.scope index v.toInt? } = .ok out t := by
    intro v u e
    obtain ⟨_, u1, h1, e⟩ := bind_eq_ok.1 e
    obtain rfl := setField_eq_ok.1 h1
    obtain ⟨slot, _, h2, e⟩ := bind_eq_ok.1 e
    obtain ⟨hslot, rfl⟩ := lift_eq_ok.1 h2
    exact ⟨slot, hslot, e⟩
  unfold getFields at e
  split at e
  · split at e
    · obtain ⟨v, u, h, e⟩ := bind_eq_ok.1 e
      exact ⟨walk, v, u, .inl rfl, h, .inl (hrest e)⟩
    · -- the last field
      obtain ⟨v, u, h, e⟩ := bind_eq_ok.1 e
      exact ⟨last, v, u, .inr rfl, h, .inl (hrest e)⟩
  · obtain ⟨v, u, h, e⟩ := bind_eq_ok.1 e
    exact ⟨walk, v, u, .inl rfl, h, .inr e⟩

/-! ### Operations -/

/-- A parameter was read with its pointees, and its value entered. -/
theorem readParameter_eq_ok {env : Env} {params : List Value} {scope : ScopeId} {p : Parameter}
    {v : Nat × Value} (e : readParameter env params scope p s = .ok v t) :
    ∃ current w s1 s2, params[p.index]? = some current ∧
      getParameter env p.descriptor current { scope, embedded := false } s = .ok w s1 ∧
      flush env (walk env env.config.maxNesting) s1 = .ok () s2 ∧ v = (p.index, w) ∧
      t = { s2 with scopes := enter s2.scopes scope p.index (correlationOf s2.heap w) } := by
  cases hp : params[p.index]? with
  | none =>
    simp only [readParameter, hp] at e
    exact absurd e throw_ne_ok
  | some current =>
    simp only [readParameter, hp] at e
    obtain ⟨w, s1, h1, e⟩ := bind_eq_ok.1 e
    obtain ⟨_, s2, h2, e⟩ := bind_eq_ok.1 e
    obtain ⟨_, _, h3, e⟩ := bind_eq_ok.1 e
    obtain ⟨rfl, rfl⟩ := get_eq_ok.1 h3
    obtain ⟨_, _, h4, e⟩ := bind_eq_ok.1 e
    obtain rfl := setField_eq_ok.1 h4
    obtain ⟨rfl, rfl⟩ := pure_eq_ok.1 e
    exact ⟨current, w, s1, s2, rfl, h1, h2, rfl, rfl⟩

/-- The parameters of a list were read in a scope of their own, which was complete behind them. -/
theorem getParameters_eq_ok {env : Env} {offset : Nat} {params : List Value}
    {values : List (Nat × Value)} (e : getParameters env offset params s = .ok values t) :
    ∃ list u, env.vector.parameters offset = .ok list ∧
      list.mapM (readParameter env params s.scopes.size)
        { s with scopes := s.scopes.push (parameterScope s.heap list params) } = .ok values u ∧
      (∀ c ∈ u.due s.scopes.size, c.verify (u.scopes[s.scopes.size]?.getD #[]) = .ok ()) ∧
      t = { u with late := u.late.erase s.scopes.size } := by
  obtain ⟨list, _, h1, e⟩ := bind_eq_ok.1 e
  obtain ⟨hlist, rfl⟩ := lift_eq_ok.1 h1
  obtain ⟨_, _, h2, e⟩ := bind_eq_ok.1 e
  obtain ⟨rfl, rfl⟩ := get_eq_ok.1 h2
  obtain ⟨scope, _, h3, e⟩ := bind_eq_ok.1 e
  obtain ⟨rfl, rfl⟩ := openScope_eq_ok.1 h3
  obtain ⟨vs, u, h4, e⟩ := bind_eq_ok.1 e
  obtain ⟨_, _, h5, e⟩ := bind_eq_ok.1 e
  obtain ⟨rfl, rfl⟩ := pure_eq_ok.1 e
  obtain ⟨hverified, rfl⟩ := verifyLate_eq_ok.1 h5
  exact ⟨list, u, hlist, h4, hverified, rfl⟩

end Unmarshal

end Ndr
