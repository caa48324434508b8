import Ndr.Proofs.Unmarshal.Traversal

/-!
Properties of whatever is composed of the steps of reading: where every step has a property, and an
action in turn has it where its parts do, every walk has it, and so has a whole operation. They are
relations of one side.
-/

namespace Ndr.Unmarshal

variable {env : Env} {own : CellId → Prop} {P : {α : Type} → Unmarshalling α → Prop}

/-- A property that the steps of reading have that make and fill no cell, and that actions in turn
have where each of them has it. What is looked up in a state may only decide which action follows. -/
structure Composes (env : Env) (P : {α : Type} → Unmarshalling α → Prop) : Prop where
  pure : ∀ {α : Type} (a : α), P (pure a)
  throw : ∀ {α : Type} (e : Fault), P (throw e : Unmarshalling α)
  bind : ∀ {α β : Type} {x : Unmarshalling α} {f : α → Unmarshalling β}, P x → (∀ a, P (f a)) →
    P (x >>= f)
  align : ∀ n, P (fetch (Reader.align n))
  count : P (getCount env)
  shortCount : P (fetch (Reader.getAligned env.order 2))
  scalar : ∀ kind, P (fetch (Reader.getScalar env.representation kind))
  run : ∀ n, P (fetch (Reader.getRun n))
  context : ∀ direction current, P (getContext env direction current)
  onPipe : ∀ h {α : Type} (x : EStateM Fault Pipe α), P (onPipe h x)
  call : ∀ c, P (recordCall c)
  delete : ∀ id, P (modify fun s => { s with deleted := id :: s.deleted })
  openScope : ∀ scope, P (openScope scope)
  setField : ∀ id field v, P (setField id field v)
  scopeOf : ∀ id, P (scopeOf id)
  keepLate : ∀ c scope, P (modify fun s =>
    { s with late := s.late.insert scope (c :: s.due scope) })
  verifyLate : ∀ scope, P (verifyLate scope)
  seeHeap : ∀ {α : Type} {f : Heap → Unmarshalling α}, (∀ h, P (f h)) →
    P (get >>= fun s => f s.heap)
  seeCalls : ∀ {α : Type} {f : List Routine.Call → Unmarshalling α}, (∀ c, P (f c)) →
    P (get >>= fun s => f s.calls)
  /-- How much there is left to read. -/
  seeRest : ∀ {α : Type} {f : Nat → Unmarshalling α}, (∀ n, P (f n)) →
    P (get >>= fun s => f s.reader.rest.length)

/-- A property that filling a cell has as well. Only cells of which `own` holds are filled or put
off. -/
structure ComposesCells (env : Env) (own : CellId → Prop)
    (P : {α : Type} → Unmarshalling α → Prop) : Prop extends Composes env P where
  store : ∀ {c}, own c → ∀ v, P (store c v)
  takeDeferred : ∀ {α : Type} {f : List (Deferred ScopeId) → Unmarshalling α},
    (∀ ds, (∀ d ∈ ds, own d.cell) → P (f ds)) → P (takeDeferred >>= f)

/-- A property that the steps of pointers have as well. Of the cells that they make `own` holds. -/
structure ComposesSteps (env : Env) (own : CellId → Prop)
    (P : {α : Type} → Unmarshalling α → Prop) : Prop extends ComposesCells env own P where
  allocate : ∀ {α : Type} {f : CellId → Unmarshalling α}, (∀ c, own c → P (f c)) →
    P (allocate >>= f)
  register : ∀ id c, P (register id c)
  sight : ∀ p, P (sight p)
  defer : ∀ {d : Deferred ScopeId}, own d.cell → P (defer d)
  seeNodes : ∀ {α : Type} {f : NodeTable → Unmarshalling α}, (∀ t, P (f t)) →
    P (get >>= fun s => f s.nodes)

/-- A property that a pointer has where what it leads to has it. Its steps need not: a pointee that
is put off follows a word of the message. -/
structure ComposesWalks (env : Env) (own : CellId → Prop)
    (P : {α : Type} → Unmarshalling α → Prop) : Prop extends ComposesCells env own P where
  pointer : ∀ {walk : Walk}, (∀ d site, P (walk d site)) → ∀ kind pointee site,
    P (getPointer env walk kind pointee site)

/-- Walks that have a property are related by it. -/
theorem relatesWalks {walk : Walk} (hw : ∀ d site, P (walk d site)) :
    RelatesWalks (fun _ => True) (fun x _ => P x) walk walk := fun d _ => hw d

namespace Composes

variable (hP : Composes env P)

include hP

/-- A property as a relation that looks at one side. -/
theorem relates : Relates env fun x _ => P x where
  pure := hP.pure
  throw := hP.throw
  bind := hP.bind
  align := hP.align
  count := hP.count
  shortCount := hP.shortCount
  scalar := hP.scalar
  run := hP.run
  context := hP.context
  onPipe := hP.onPipe
  call := hP.call
  openScope := hP.openScope
  setField := hP.setField
  scopeOf := hP.scopeOf
  keepLate := hP.keepLate
  verifyLate := hP.verifyLate
  seeHeap := hP.seeHeap
  seeCalls := hP.seeCalls

/-- The ids of deleted nodes are read where the operation before knows them. -/
theorem getDeleted : P (getDeleted env) := hP.relates.getDeleted hP.delete

/-! ### Pipes -/

section

variable {walk : Walk} (hw : ∀ d site, P (walk d site))

include hw

theorem getPiece (h : PipeHandle) (element : Descriptor) (site : Site ScopeId) (fuel n : Nat) :
    P (getPiece walk h element site fuel n) :=
  hP.relates.getPiece (relatesWalks hw) (hP.onPipe h) trivial site fuel n

theorem getPieces (h : PipeHandle) (element : Descriptor) (site : Site ScopeId) (fuel : Nat) :
    P (getPieces env walk h element site fuel) :=
  hP.relates.getPieces (relatesWalks hw) (.refl env) (hP.onPipe h) trivial site fuel

theorem getAllPieces (h : PipeHandle) (element : Descriptor) (site : Site ScopeId) :
    P (getAllPieces env walk h element site) :=
  hP.seeRest (f := fun n => Unmarshal.getPieces env walk h element site (n + 1))
    fun _ => hP.getPieces hw _ _ _ _

end

end Composes

namespace ComposesCells

variable (hP : ComposesCells env own P)

include hP

theorem relatesCells : RelatesCells env own (fun _ => True) fun x _ => P x where
  toRelates := hP.relates
  store := hP.store
  takeDeferred h := hP.takeDeferred fun ds hds => h ds fun d hd => ⟨hds d hd, trivial⟩

variable {walk : Walk} (hw : ∀ d site, P (walk d site))

include hw

theorem getPointee {cell : CellId} (hc : own cell) (pointee : Nat) (site : Site ScopeId) :
    P (getPointee env walk cell pointee site) :=
  hP.relatesCells.getPointee (relatesWalks hw) hc rfl (fun _ _ => trivial) site

theorem getDeferred (depth : Nat) {ds : List (Deferred ScopeId)} (hds : ∀ d ∈ ds, own d.cell) :
    P (getDeferred env walk depth ds) :=
  hP.relatesCells.getDeferred (relatesWalks hw) (fun _ _ => ⟨rfl, fun _ _ => trivial⟩) depth
    fun d hd => ⟨hds d hd, trivial⟩

theorem flush : P (flush env walk) :=
  hP.seeRest (f := fun n => do Unmarshal.getDeferred env walk (n + 1) (← Unmarshal.takeDeferred))
    fun _ => hP.takeDeferred fun _ hds => hP.getDeferred hw _ hds

end ComposesCells

namespace ComposesSteps

variable (hP : ComposesSteps env own P)

include hP

theorem relatesSteps : RelatesSteps env own (fun _ => True) fun x _ => P x where
  toRelatesCells := hP.relatesCells
  allocate := hP.allocate
  register := hP.register
  sight := hP.sight
  defer hc _ := hP.defer hc
  seeNodes := hP.seeNodes

theorem walks : ComposesWalks env own P where
  toComposesCells := hP.toComposesCells
  pointer hw kind _ site := hP.relatesSteps.getPointer (relatesWalks hw) (.refl env) trivial rfl
    (fun _ _ => trivial) kind site

omit hP in
/-- A relation of one side as a property. -/
theorem of_relates (hR : RelatesSteps env (fun _ => True) (fun _ => True) fun x _ => P x)
    (delete : ∀ id, P (modify fun s => { s with deleted := id :: s.deleted }))
    (seeRest : ∀ {α : Type} {f : Nat → Unmarshalling α}, (∀ n, P (f n)) →
      P (get >>= fun s => f s.reader.rest.length)) : ComposesSteps env (fun _ => True) P where
  pure := hR.pure
  throw := hR.throw
  bind {_ _ x f} hx hf := hR.bind (y := x) (g := f) hx hf
  align := hR.align
  count := hR.count
  shortCount := hR.shortCount
  scalar := hR.scalar
  run := hR.run
  context := hR.context
  onPipe := hR.onPipe
  call := hR.call
  delete := delete
  openScope := hR.openScope
  setField := hR.setField
  scopeOf := hR.scopeOf
  keepLate := hR.keepLate
  verifyLate := hR.verifyLate
  seeHeap {_ f} h := hR.seeHeap (g := f) h
  seeCalls {_ f} h := hR.seeCalls (g := f) h
  seeRest := seeRest
  store := hR.store
  takeDeferred {_ f} h := hR.takeDeferred (g := f) fun ds _ => h ds fun _ _ => trivial
  allocate {_ f} h := hR.allocate (g := f) h
  register := hR.register
  sight := hR.sight
  defer hd := hR.defer hd trivial
  seeNodes {_ f} h := hR.seeNodes (g := f) h

end ComposesSteps

namespace ComposesWalks

variable (hP : ComposesWalks env own P)

include hP

/-- Every walk has the property. -/
theorem walk (room : Nat) (d : Descriptor) (site : Site ScopeId) : P (walk env room d site) :=
  hP.relates.walk (N := fun _ => True) (.refl env _) (TypeVector.closed_true _)
    (fun _ _ => hP.getDeleted)
    (fun hw _ _ _ _ _ _ => hP.pointer (fun d site => hw d trivial site) _ _) room d trivial site

/-- A whole operation has the property. -/
theorem getParameters (offset : Nat) (params : List Value) : P (getParameters env offset params) :=
  hP.relates.getParameters (N := fun _ => True) (.refl env _) (TypeVector.closed_true _)
    (fun _ _ => hP.getDeleted)
    (fun hw _ _ _ _ _ _ => hP.pointer (fun d site => hw d trivial site) _ _)
    rfl (fun _ _ _ _ => trivial) (fun room _ _ _ _ => hP.getAllPieces (hP.walk room) _ _ _)
    fun room => hP.flush (hP.walk room)

end ComposesWalks

/-! ### Values inside of others -/

/-- A property that all steps have which leave the scopes and pass no context that takes the place of
another. -/
structure ComposesInside (env : Env) (P : {α : Type} → Unmarshalling α → Prop) : Prop
    extends RelatesCalls env (fun x _ => P x),
      RelatesNodes env (fun _ => True) (fun _ => True) (fun x _ => P x) where
  onPipe : ∀ h {α : Type} (x : EStateM Fault Pipe α), P (onPipe h x)
  delete : ∀ id, P (modify fun s => { s with deleted := id :: s.deleted })
  seeRest : ∀ {α : Type} {f : Nat → Unmarshalling α}, (∀ n, P (f n)) →
    P (get >>= fun s => f s.reader.rest.length)

namespace ComposesInside

variable (hP : ComposesInside env P)

include hP

theorem andThen {α β : Type} {x : Unmarshalling α} {f : α → Unmarshalling β} (hx : P x)
    (hf : ∀ a, P (f a)) : P (x >>= f) := hP.bind (y := x) (g := f) hx hf

/-- Every walk has the property, where structs have it whose fields have it. -/
theorem walk
    (hstruct : ∀ {walk : Walk}, (∀ d site, P (walk d site)) → ∀ kind definition site,
      P (getStruct env walk kind definition site))
    (hnested : ∀ {walk : Walk}, (∀ d site, P (walk d site)) → ∀ align layout fields site,
      P (getNested env walk align layout fields site))
    (room : Nat) (d : Descriptor) (site : Site ScopeId) : P (walk env room d site) := by
  induction room generalizing d site with
  | zero => exact hP.throw _
  | succ room ih =>
    exact hP.toRelatesUnscoped.getForm (relatesWalks ih) (.refl env _) (fun _ _ _ _ => trivial)
      (.refl _ _) (fun _ _ => trivial) site (fun _ => hstruct ih _ _ _)
      (fun _ => hnested ih _ _ _ _)
      (fun _ => hP.getPointer (relatesWalks ih) (.refl env) trivial rfl (fun _ _ => trivial) _ _)
      (fun _ => hP.getConverted (relatesWalks ih) (.refl env) rfl (fun _ _ => trivial) _ _)
      fun _ => hP.getDeleted hP.delete

variable {walk : Walk} (hw : ∀ d site, P (walk d site))

include hw

theorem flush : P (flush env walk) :=
  hP.seeRest (f := fun n => do getDeferred env walk (n + 1) (← Unmarshal.takeDeferred))
    fun n => hP.takeDeferred (g := fun ds => getDeferred env walk (n + 1) ds) fun _ hds =>
      hP.getDeferred (relatesWalks hw) (fun _ _ => ⟨rfl, fun _ _ => trivial⟩) _ hds

theorem getAllPieces (h : PipeHandle) (element : Descriptor) (site : Site ScopeId) :
    P (getAllPieces env walk h element site) :=
  hP.seeRest (f := fun n => getPieces env walk h element site (n + 1)) fun n =>
    hP.toRelatesUnscoped.getPieces (relatesWalks hw) (.refl env) (hP.onPipe h) trivial site (n + 1)

omit hw in
/-- A parameter has the property, where contexts have it that take the place of another. -/
theorem getParameter (hw : ∀ d site, P (Unmarshal.walk env env.config.maxNesting d site))
    (d : Descriptor) (current : Value) (site : Site ScopeId)
    (hcontext : ∀ direction, d.form = .context direction → P (getContext env direction current)) :
    P (getParameter env d current site) := by
  unfold Unmarshal.getParameter
  dsimp only
  cases hform : d.form with
  | pipe props element =>
    exact hP.toRelatesUnscoped.getPipe _ (Unmarshal.walk env env.config.maxNesting) rfl current
      fun h e _ _ => hP.andThen (hP.onPipe h _) fun _ =>
        hP.andThen (hP.getAllPieces hw h e _) fun _ => hP.pure _
  | context direction => exact hcontext direction hform
  | _ => exact hw _ _

end ComposesInside

/-- Whole operations have a property, where the streams of pipes have it. -/
theorem operation_of_streams
    (hR : RelatesPointers env (fun _ => True) (fun _ => True) fun x _ => P x)
    (hdeleted : P (getDeleted env))
    (hrest : ∀ {α : Type} {f : Nat → Unmarshalling α}, (∀ n, P (f n)) →
      P (get >>= fun s => f s.reader.rest.length))
    (hstream : ∀ room, (∀ d site, P (walk env room d site)) → ∀ h d (site : Site ScopeId),
      P (getStream env (walk env room) h d site.inside)) (offset : Nat) (params : List Value) :
    P (getParameters env offset params) := by
  have hE : env.Alike env fun _ => True := .refl env _
  have hN : env.vector.Closed fun _ => True := TypeVector.closed_true _
  have hpointer : ∀ {walk walk' : Walk}, RelatesWalks (fun _ => True) (fun x _ => P x) walk walk' →
      ∀ {d : Descriptor} {kind props pointee}, True → d.form = .pointer kind props pointee →
        ∀ site, P (getPointer env walk kind pointee site) :=
    fun hw _ _ _ _ _ _ site => hR.getPointer hw (.refl env) trivial rfl (fun _ _ => trivial) _ site
  have hwalk := hR.toRelatesPlain.walk hE hN (fun _ _ => hdeleted) hpointer
  refine hR.toRelatesPlain.getParameters hE hN (fun _ _ => hdeleted) hpointer rfl
    (fun _ _ _ _ => trivial) (fun {_ _ element} _ _ room current site => ?_) fun room => ?_
  · exact hR.toRelatesPlain.getPipe _ (walk env room) rfl current fun h d _ _ =>
      hstream room (fun d site => hwalk room d trivial site) h d site
  · exact hrest (f := fun n => do getDeferred env (walk env room) (n + 1) (← takeDeferred)) fun n =>
      hR.takeDeferred (g := fun ds => getDeferred env (walk env room) (n + 1) ds) fun _ hds =>
        hR.getDeferred (hwalk room) (fun _ _ => ⟨rfl, fun _ _ => trivial⟩) _ hds

end Ndr.Unmarshal
