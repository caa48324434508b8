import Ndr.Proofs.TypeVector.Leads
import Ndr.Proofs.Unmarshal.Steps

/-!
The one traversal of reading. Two walks are followed side by side, one of them with another vector
that says the same and after another operation: where the steps of reading are related, and so are
actions in turn whose parts are, all walks over the same type are related. The types may be limited
to some that lead to no others. With a relation that looks at one side only, it is a property of
every walk. The steps come in groups, so that a relation that some of them break is followed through
the forms of types that do without them.
-/

namespace Ndr.Unmarshal

variable {env env' : Env} {own : CellId → Prop} {N : Descriptor → Prop} {M : Nat → Prop}
  {R : {α : Type} → Unmarshalling α → Unmarshalling α → Prop}

/-- The pieces of a pipe, from entering it on. -/
abbrev getStream (env : Env) (walk : Walk) (h : PipeHandle) (element : Descriptor)
    (site : Site ScopeId) : Unmarshalling Value := do
  onPipe h (Pipe.enter .receive)
  getAllPieces env walk h element site
  return .pipe h

theorem getPipe_eq_stream (env : Env) (walk : Walk) (element : Nat) (current : Value)
    (site : Site ScopeId) : getPipe env walk element current site = (do
      let h ← current.pipe?
      let d ← env.vector.stream element
      d.checkPiped
      getStream env walk h d site.inside) := rfl

/-! ### Two sides -/

/-- What does not change while a message is read differs in no more than the vectors and the node
tables of the operation before. -/
def Env.Twin (env env' : Env) : Prop :=
  ∃ vector previous, env' = { env with interface := { env.interface with vector }, previous }

/-- The two sides say the same about the types among `N`. -/
structure Env.Alike (env env' : Env) (N : Descriptor → Prop) : Prop where
  twin : env.Twin env'
  size : env'.vector.size = env.vector.size
  same : ∀ {d}, N d → env.vector.Same env'.vector d

theorem Env.Twin.refl (env : Env) : env.Twin env := ⟨_, _, rfl⟩

theorem Env.Twin.config (h : env.Twin env') : env'.config = env.config := by
  obtain ⟨vector, previous, rfl⟩ := h
  rfl

theorem Env.Alike.refl (env : Env) (N : Descriptor → Prop) : env.Alike env N :=
  ⟨.refl env, rfl, fun _ => .refl _ _⟩

section

variable (hE : env.Alike env' N) (hN : ∀ ⦃d e⦄, N d → env.vector.Embeds d e → N e)

include hE hN

omit hN in
theorem zeroStruct_alike {zero zero' : Descriptor → Except Fault Value} {fields : List Descriptor}
    (h : ∀ e ∈ fields, zero' e = zero e) (layout : Nat) :
    zeroStruct env' zero' layout fields = zeroStruct env zero layout fields := by
  obtain ⟨vector, previous, rfl⟩ := hE.twin
  have hfields : ∀ (ds : List Descriptor) (index : Nat) (slots : Array Value),
      (∀ e ∈ ds, zero' e = zero e) →
      zeroFields { env with interface := { env.interface with vector }, previous } zero' layout index
        ds slots = zeroFields env zero layout index ds slots := by
    intro ds
    induction ds with
    | nil => exact fun _ _ _ => rfl
    | cons d ds ih =>
      intro index slots h
      unfold zeroFields
      rw [h d List.mem_cons_self]
      exact bind_congr fun slot => bind_congr fun v =>
        ih _ _ fun e he => h e (List.mem_cons_of_mem _ he)
  refine bind_congr fun count => ?_
  rw [hfields _ _ _ fun e he => h e (List.mem_filter.1 he).1]

omit hN in
theorem zeroArray_alike {zero zero' : Descriptor → Except Fault Value} {definition : Nat}
    {varying : Bool}
    (hsame : env'.vector.arrayDefinition definition varying
      = env.vector.arrayDefinition definition varying)
    (h : ∀ a, env.vector.arrayDefinition definition varying = .ok a →
      zero' a.element = zero a.element) :
    zeroArray env' zero' definition varying = zeroArray env zero definition varying := by
  unfold zeroArray
  rw [hsame]
  cases ha : env.vector.arrayDefinition definition varying with
  | error e => rfl
  | ok a =>
    have helement := h a ha
    obtain ⟨vector, previous, rfl⟩ := hE.twin
    show (constantTotal a.dimensions 1 >>= fun total => checkCount env total >>= fun _ =>
      zero' a.element >>= fun v => pure (Value.array (List.replicate total v))) = _
    rw [helement]
    rfl

theorem zeroFrom_alike (fuel : Nat) {d : Descriptor} (hd : N d) :
    zeroFrom env' fuel d = zeroFrom env fuel d := by
  induction fuel generalizing d with
  | zero => rfl
  | succ fuel ih =>
    unfold zeroFrom
    cases hform : d.form with
    | struct kind props definition =>
      dsimp only
      rw [(hE.same hd).struct hform]
      exact Except.bind_congr_of fun s hs =>
        zeroStruct_alike hE (fun e he => ih (hN hd (.field hform hs he))) _
    | nested align layout fields =>
      exact zeroStruct_alike hE (fun e he => ih (hN hd (.nestedField hform he))) _
    | array kind props dims definition =>
      dsimp only
      split
      · rfl
      · exact zeroArray_alike hE ((hE.same hd).array hform)
          fun a ha => ih (hN hd (.element hform ha))
    | _ => rfl

theorem zeroValue_alike {d : Descriptor} (hd : N d) : zeroValue env' d = zeroValue env d := by
  unfold zeroValue
  rw [hE.size]
  exact zeroFrom_alike hE hN _ hd

theorem trailingDims_alike (outermost trailing levels : Nat) {d : StructDefinition}
    (hd : ∀ e ∈ d.fields, N e) :
    trailingDims env' outermost trailing levels d = trailingDims env outermost trailing levels d := by
  induction levels generalizing d with
  | zero =>
    unfold trailingDims
    rw [hE.twin.config]
  | succ levels ih =>
    unfold trailingDims
    cases htail : conformantTail? d.fields trailing with
    | none => rfl
    | some found =>
      obtain ⟨index, tail⟩ := found
      obtain ⟨-, f, hlast, hform⟩ := conformantTail?_eq_some htail
      have hf := hd f (List.mem_filter.1 (List.mem_of_getLast? hlast)).1
      rcases hform with ⟨kind, props, dims, hform, -, rfl⟩ | ⟨kind, props, definition, hform, -, rfl⟩
      · rfl
      · dsimp only
        rw [(hE.same hf).struct hform]
        cases hs : env.vector.structDefinition definition with
        | error e => rfl
        | ok s => exact ih fun e he => hN hf (.field hform hs he)

theorem hoistedDims_alike {d : StructDefinition} (hd : ∀ e ∈ d.fields, N e) :
    hoistedDims env' d = hoistedDims env d := by
  unfold hoistedDims
  cases d.trailing with
  | none => rfl
  | some trailing =>
    dsimp only
    rw [hE.twin.config]
    exact trailingDims_alike hE hN _ _ _ hd

end

/-! ### Steps -/

/-- The steps of reading that leave the scopes as they are, make and fill no cell, touch no pipe and
call no routine are related to themselves, and actions in turn are related where each of them is. What
is looked up in a state may only decide which action follows. -/
structure RelatesUnscoped (env : Env) (R : {α : Type} → Unmarshalling α → Unmarshalling α → Prop) :
    Prop where
  pure : ∀ {α : Type} (a : α), R (pure a) (pure a)
  throw : ∀ {α : Type} (e : Fault), R (throw e : Unmarshalling α) (throw e)
  bind : ∀ {α β : Type} {x y : Unmarshalling α} {f g : α → Unmarshalling β}, R x y →
    (∀ a, R (f a) (g a)) → R (x >>= f) (y >>= g)
  align : ∀ n, R (fetch (Reader.align n)) (fetch (Reader.align n))
  count : R (getCount env) (getCount env)
  shortCount : R (fetch (Reader.getAligned env.order 2)) (fetch (Reader.getAligned env.order 2))
  scalar : ∀ kind, R (fetch (Reader.getScalar env.representation kind))
    (fetch (Reader.getScalar env.representation kind))
  run : ∀ n, R (fetch (Reader.getRun n)) (fetch (Reader.getRun n))
  /-- A context that is no parameter, and so takes the place of none. -/
  newContext : ∀ direction, R (getContext env direction (.context none))
    (getContext env direction (.context none))
  scopeOf : ∀ id, R (scopeOf id) (scopeOf id)
  checkBound : ∀ b wire scope, R (checkBound b wire scope) (checkBound b wire scope)

theorem relates_ite {α : Type} {c : Prop} [Decidable c] {x x₂ y y₂ : Unmarshalling α} (hx : R x x₂)
    (hy : R y y₂) : R (if c then x else y) (if c then x₂ else y₂) := by
  split
  · exact hx
  · exact hy

/-- Comparing a bound is related to itself where its steps are. -/
theorem relates_checkBound (pure : ∀ {α : Type} (a : α), R (pure a) (pure a))
    (throw : ∀ {α : Type} (e : Fault), R (throw e : Unmarshalling α) (throw e))
    (bind : ∀ {α β : Type} {x y : Unmarshalling α} {f g : α → Unmarshalling β}, R x y →
      (∀ a, R (f a) (g a)) → R (x >>= f) (y >>= g))
    (scopeOf : ∀ id, R (scopeOf id) (scopeOf id))
    (keepLate : ∀ c scope, R
      (modify fun s => { s with late := s.late.insert scope (c :: s.due scope) })
      (modify fun s => { s with late := s.late.insert scope (c :: s.due scope) }))
    (b : Bound) (wire : Int) (scope : ScopeId) :
    R (checkBound b wire scope) (checkBound b wire scope) := by
  unfold checkBound
  refine relates_ite (bind (scopeOf scope) fun fields => ?_) (pure _)
  cases b.resolve fields with
  | error e => exact throw e
  | ok found =>
    refine bind (pure found) fun found => ?_
    cases found with
    | value v => exact relates_ite (throw _) (pure _)
    | late => exact keepLate _ _
    | fromString => exact pure _
    | unknown => exact pure _

/-- The steps that open, fill and close scopes are related to themselves as well. -/
structure RelatesScoped (env : Env) (R : {α : Type} → Unmarshalling α → Unmarshalling α → Prop) :
    Prop extends RelatesUnscoped env R where
  openScope : ∀ scope, R (openScope scope) (openScope scope)
  setField : ∀ id field v, R (setField id field v) (setField id field v)
  keepLate : ∀ c scope, R
    (modify fun s => { s with late := s.late.insert scope (c :: s.due scope) })
    (modify fun s => { s with late := s.late.insert scope (c :: s.due scope) })
  verifyLate : ∀ scope, R (verifyLate scope) (verifyLate scope)
  checkBound := relates_checkBound pure throw bind scopeOf keepLate

/-- All steps of reading are related to themselves that make and fill no cell, touch no pipe and call
no routine. -/
structure RelatesSilent (env : Env) (R : {α : Type} → Unmarshalling α → Unmarshalling α → Prop) :
    Prop extends RelatesScoped env R where
  context : ∀ direction current, R (getContext env direction current)
    (getContext env direction current)
  seeHeap : ∀ {α : Type} {f g : Heap → Unmarshalling α}, (∀ h, R (f h) (g h)) →
    R (get >>= fun s => f s.heap) (get >>= fun s => g s.heap)
  newContext := fun direction => context direction _

/-- The calls of routines are related to themselves beside the steps that leave the scopes. -/
structure RelatesCalls (env : Env) (R : {α : Type} → Unmarshalling α → Unmarshalling α → Prop) :
    Prop extends RelatesUnscoped env R where
  call : ∀ c, R (recordCall c) (recordCall c)
  seeCalls : ∀ {α : Type} {f g : List Routine.Call → Unmarshalling α}, (∀ c, R (f c) (g c)) →
    R (get >>= fun s => f s.calls) (get >>= fun s => g s.calls)

/-- The calls of routines are related to themselves beside all steps that call none. -/
structure RelatesPlain (env : Env) (R : {α : Type} → Unmarshalling α → Unmarshalling α → Prop) :
    Prop extends RelatesSilent env R, RelatesCalls env R

/-- The steps of pipes are related to themselves as well. -/
structure Relates (env : Env) (R : {α : Type} → Unmarshalling α → Unmarshalling α → Prop) :
    Prop extends RelatesPlain env R where
  onPipe : ∀ h {α : Type} (x : EStateM Fault Pipe α), R (onPipe h x) (onPipe h x)

/-- Filling a cell is related to itself beside the steps that leave the scopes. Only cells of which
`own` holds are filled or put off, and only with pointees of which `M` holds. -/
structure RelatesFills (env : Env) (own : CellId → Prop) (M : Nat → Prop)
    (R : {α : Type} → Unmarshalling α → Unmarshalling α → Prop) : Prop
    extends RelatesUnscoped env R where
  store : ∀ {c}, own c → ∀ v, R (store c v) (store c v)
  takeDeferred : ∀ {α : Type} {f g : List (Deferred ScopeId) → Unmarshalling α},
    (∀ ds, (∀ d ∈ ds, own d.cell ∧ M d.pointee) → R (f ds) (g ds)) →
      R (takeDeferred >>= f) (takeDeferred >>= g)

/-- The steps of pointers are related to themselves as well. Of the cells that they make `own`
holds. -/
structure RelatesNodes (env : Env) (own : CellId → Prop) (M : Nat → Prop)
    (R : {α : Type} → Unmarshalling α → Unmarshalling α → Prop) : Prop
    extends RelatesFills env own M R where
  allocate : ∀ {α : Type} {f g : CellId → Unmarshalling α}, (∀ c, own c → R (f c) (g c)) →
    R (allocate >>= f) (allocate >>= g)
  register : ∀ id c, R (register id c) (register id c)
  sight : ∀ p, R (sight p) (sight p)
  defer : ∀ {d : Deferred ScopeId}, own d.cell → M d.pointee → R (defer d) (defer d)
  seeNodes : ∀ {α : Type} {f g : NodeTable → Unmarshalling α}, (∀ t, R (f t) (g t)) →
    R (get >>= fun s => f s.nodes) (get >>= fun s => g s.nodes)

/-- The steps of pointers are related to themselves, and all others that call no routine. -/
structure RelatesUncalled (env : Env) (own : CellId → Prop) (M : Nat → Prop)
    (R : {α : Type} → Unmarshalling α → Unmarshalling α → Prop) : Prop
    extends RelatesSilent env R, RelatesNodes env own M R

/-- The steps of pointers and the calls of routines are related to themselves. -/
structure RelatesPointers (env : Env) (own : CellId → Prop) (M : Nat → Prop)
    (R : {α : Type} → Unmarshalling α → Unmarshalling α → Prop) : Prop
    extends RelatesPlain env R, RelatesNodes env own M R

/-- The steps of reading are related to themselves, but for those of pointers. -/
structure RelatesCells (env : Env) (own : CellId → Prop) (M : Nat → Prop)
    (R : {α : Type} → Unmarshalling α → Unmarshalling α → Prop) : Prop
    extends Relates env R, RelatesFills env own M R

/-- All steps of reading are related to themselves. -/
structure RelatesSteps (env : Env) (own : CellId → Prop) (M : Nat → Prop)
    (R : {α : Type} → Unmarshalling α → Unmarshalling α → Prop) : Prop
    extends RelatesCells env own M R, RelatesPointers env own M R

/-- Walks over the types among `N` that are related. -/
abbrev RelatesWalks (N : Descriptor → Prop)
    (R : {α : Type} → Unmarshalling α → Unmarshalling α → Prop) (walk walk' : Walk) : Prop :=
  ∀ d, N d → ∀ site, R (walk d site) (walk' d site)

namespace RelatesUnscoped

variable (hR : RelatesUnscoped env R)

include hR

/-! ### Actions of several steps -/

section

variable {α β : Type}

theorem lift (x : Except Fault α) : R (liftM x : Unmarshalling α) (liftM x) := by
  cases x with
  | ok a => exact hR.pure a
  | error e => exact hR.throw e

/-- What follows a computation may count on its result. -/
theorem lift_bind {x y : Except Fault α} {f g : α → Unmarshalling β} (hxy : y = x)
    (h : ∀ a, x = .ok a → R (f a) (g a)) :
    R (liftM x >>= f : Unmarshalling β) (liftM y >>= g) := by
  subst hxy
  cases y with
  | ok a => exact h a rfl
  | error e => exact hR.throw e

theorem map {x y : Unmarshalling α} (h : R x y) (f : α → β) : R (f <$> x) (f <$> y) := by
  rw [map_eq_pure_bind, map_eq_pure_bind]
  exact hR.bind h fun a => hR.pure (f a)

/-- A check ahead of an action. -/
theorem check {c : Prop} [Decidable c] {e : Fault} {f g : PUnit → Unmarshalling α}
    (h : R (f ⟨⟩) (g ⟨⟩)) : R (if c then MonadExcept.throw e >>= f else f ⟨⟩)
      (if c then MonadExcept.throw e >>= g else g ⟨⟩) :=
  relates_ite (hR.throw (α := α) e) h

theorem forM {f g : α → Unmarshalling PUnit} {l : List α} (h : ∀ a ∈ l, R (f a) (g a)) :
    R (l.forM f) (l.forM g) := by
  induction l with
  | nil => exact hR.pure _
  | cons a l ih =>
    exact hR.bind (h a List.mem_cons_self) fun _ => ih fun b hb => h b (List.mem_cons_of_mem _ hb)

theorem mapM {f g : α → Unmarshalling β} {l : List α} (h : ∀ a ∈ l, R (f a) (g a)) :
    R (l.mapM f) (l.mapM g) := by
  induction l with
  | nil => rw [List.mapM_nil, List.mapM_nil]; exact hR.pure _
  | cons a l ih =>
    rw [List.mapM_cons, List.mapM_cons]
    exact hR.bind (h a List.mem_cons_self) fun _ =>
      hR.bind (ih fun b hb => h b (List.mem_cons_of_mem _ hb)) fun _ => hR.pure _

theorem repeatM {x y : Unmarshalling α} (h : R x y) (n : Nat) :
    R (repeatM n x) (repeatM n y) := by
  induction n with
  | zero => exact hR.pure _
  | succ n ih =>
    rw [repeatM_succ, repeatM_succ]
    exact hR.bind h fun _ => hR.map ih _

theorem foldIndices {f g : β → Nat → Unmarshalling β} (h : ∀ b n, R (f b n) (g b n)) (s : Shape)
    (b : β) : R (s.foldIndices f b) (s.foldIndices g b) := by
  rw [Shape.foldIndices_eq, Shape.foldIndices_eq]
  induction s.indices generalizing b with
  | nil => exact hR.pure _
  | cons n l ih => exact hR.bind (h b n) ih

end

/-! ### Counts and shapes -/

theorem extentIn (scope : ScopeId) (b : BoundPair) (read : Option Nat) :
    R (extentIn scope b read) (extentIn scope b read) := by
  refine hR.bind (hR.scopeOf scope) fun fields => hR.bind (hR.lift _) fun lower => ?_
  cases read with
  | none => exact hR.lift _
  | some n => exact hR.bind (hR.checkBound _ _ _) fun _ => hR.pure _

theorem extentsIn (scope : ScopeId) (d : ArrayDefinition) (read : Option (List Nat)) :
    R (extentsIn scope d read) (extentsIn scope d read) := by
  cases read with
  | none => exact hR.mapM fun _ _ => hR.extentIn _ _ _
  | some counts => exact hR.mapM fun _ _ => hR.extentIn _ _ _

section

variable (hT : env.Twin env')

include hT

theorem getSize (v1 : Bool) : R (getSize env v1) (getSize env' v1) := by
  obtain ⟨vector, previous, rfl⟩ := hT
  exact relates_ite hR.shortCount hR.count

theorem getExtents (dims : Nat) (v1 : Bool) : R (getExtents env dims v1) (getExtents env' dims v1) :=
  hR.repeatM (hR.getSize hT v1) dims

omit hT in
theorem checkLimits (limits : BoundPair) (scope : ScopeId) (first length : Nat) :
    R (checkLimits limits scope first length) (checkLimits limits scope first length) := by
  have hupper : R (if limits.upper.kind = .lengthIs then
        Unmarshal.checkBound limits.upper length scope
      else if limits.upper.kind = .lastIs then
        Unmarshal.checkBound limits.upper ((first : Int) + length - 1) scope
      else Pure.pure ()) _ :=
    relates_ite (hR.checkBound _ _ _) (relates_ite (hR.checkBound _ _ _) (hR.pure _))
  exact relates_ite (hR.bind (hR.checkBound _ _ _) fun _ => hupper) hupper

theorem getSpan (v1 : Bool) (scope : ScopeId) (dim : Dimension) (extent : Nat) :
    R (getSpan env v1 scope dim extent) (getSpan env' v1 scope dim extent) := by
  have hfrom : ∀ first, R (getSpanFrom env v1 scope dim extent first)
      (getSpanFrom env' v1 scope dim extent first) := by
    intro first
    refine hR.bind (hR.getSize hT v1) fun length => hR.check ?_
    cases dim.limits with
    | none => exact hR.pure _
    | some limits => exact hR.bind (hR.checkLimits _ _ _ _) fun _ => hR.pure _
  rw [getSpan_eq, getSpan_eq]
  obtain ⟨vector, previous, rfl⟩ := hT
  exact relates_ite (hfrom _) (hR.bind hR.count hfrom)

theorem getShape (kind : ArrayKind) (v1 : Bool) (scope : ScopeId) (d : ArrayDefinition)
    (extents : List Nat) :
    R (getShape env kind v1 scope d extents) (getShape env' kind v1 scope d extents) :=
  relates_ite (hR.mapM fun _ _ => hR.getSpan hT _ _ _ _) (hR.pure _)

end

/-! ### Arrays and unions -/

section

variable {walk walk' last last' : Walk} (hw : RelatesWalks N R walk walk')

include hw

section

variable (hT : env.Twin env')

include hT

theorem getElements {element : Descriptor} (he : N element) (n : Nat) (site : Site ScopeId) :
    R (getElements env walk element n site)
      (getElements env' walk' element n site) := by
  obtain ⟨vector, previous, rfl⟩ := hT
  refine hR.bind (hR.lift _) fun _ => ?_
  cases element.byteElement? with
  | some kind => exact hR.bind (hR.lift _) fun _ => hR.bind (hR.run _) fun _ => hR.pure _
  | none => exact hR.repeatM (hw _ he _) _

theorem getString {element : Descriptor} (he : N element) (shape : Shape) (site : Site ScopeId) :
    R (getString env walk element shape site)
      (getString env' walk' element shape site) := by
  cases shape with
  | nil => exact hR.pure _
  | cons d shape =>
    unfold Unmarshal.getString
    dsimp only
    refine hR.check ?_
    exact hR.bind (hR.getElements hw hT he _ _) fun _ => hR.lift _

end

section

variable (hE : env.Alike env' N) (hN : ∀ ⦃d e⦄, N d → env.vector.Embeds d e → N e)

include hE hN

theorem getPart {element : Descriptor} (he : N element) (shape : Shape) (total : Nat)
    (site : Site ScopeId) : R (getPart env walk element shape total site)
      (getPart env' walk' element shape total site) := by
  unfold Unmarshal.getPart
  rw [zeroValue_alike hE hN he, hE.twin.config]
  refine hR.bind (hR.lift _) fun _ => hR.check (hR.bind (hR.lift _) fun zero => ?_)
  refine hR.bind (hR.foldIndices (fun _ _ => ?_) _ _) fun _ => hR.pure _
  exact hR.bind (hw _ he _) fun _ => hR.pure _

theorem getContents {d : ArrayDefinition} (he : N d.element) (m : Modifiers) (kind : ArrayKind)
    (site : Site ScopeId) (read : Option (List Nat)) :
    R (getContents env walk m kind d site read)
      (getContents env' walk' m kind d site read) := by
  refine hR.bind (hR.extentsIn _ _ _) fun extents => hR.bind (hR.lift _) fun total => ?_
  have hcount : checkCount env' total = checkCount env total := by
    unfold checkCount
    rw [hE.twin.config]
  refine hR.lift_bind hcount fun _ _ => hR.bind (hR.getShape hE.twin _ _ _ _ _) fun shape => ?_
  refine hR.bind (relates_ite (hR.getString hw hE.twin he _ _) (relates_ite ?_ ?_)) fun _ => hR.pure _
  · exact hR.getElements hw hE.twin he _ _
  · exact hR.getPart hw hE hN he _ _ _

theorem getArray {kind : ArrayKind} {definition : Nat}
    (hsame : env'.vector.arrayDefinition definition kind.isVarying
      = env.vector.arrayDefinition definition kind.isVarying)
    (he : ∀ d, env.vector.arrayDefinition definition kind.isVarying = .ok d → N d.element)
    (m : Modifiers) (dims : Nat) (site : Site ScopeId) (preset : Option (List Nat)) :
    R (getArray env walk m kind dims definition site preset)
      (getArray env' walk' m kind dims definition site preset) := by
  rw [getArray_eq, getArray_eq]
  refine hR.lift_bind hsame fun d hd => hR.bind (hR.lift _) fun _ => hR.bind (hR.lift _) fun _ => ?_
  refine hR.bind (hR.lift _) fun _ => hR.bind (relates_ite ?_ (hR.pure _)) fun read => ?_
  · cases preset with
    | some counts => exact hR.pure _
    | none => exact hR.map (hR.getExtents hE.twin _ _) _
  · exact hR.getContents hw hE hN (he d hd) _ _ _ _

end

theorem getArm {u : UnionDefinition} {switch : Int}
    (hsame : env'.vector.findArm u switch = env.vector.findArm u switch ∧
      ∀ a offset, env.vector.findArm u switch = .ok (some a) → a.body = .stream offset →
        env'.vector.stream offset = env.vector.stream offset)
    (ha : ∀ a offset e, env.vector.findArm u switch = .ok (some a) → a.body = .stream offset →
      env.vector.stream offset = .ok e → N e) (site : Site ScopeId) :
    R (getArm env walk u switch site) (getArm env' walk' u switch site) := by
  refine hR.lift_bind hsame.1 fun arm harm => ?_
  cases arm with
  | none => exact relates_ite (hR.pure _) (hR.throw _)
  | some arm =>
    dsimp only
    cases hbody : arm.body with
    | empty => exact hR.pure _
    | absent => exact hR.pure _
    | stream offset =>
      exact hR.lift_bind (hsame.2 arm offset harm hbody) fun e he =>
        hw _ (ha arm offset e harm hbody he) _

theorem getUnion (hT : env.Twin env') {definition : Nat}
    (hsame : env'.vector.unionDefinition definition = env.vector.unionDefinition definition ∧
      ∀ u, env.vector.unionDefinition definition = .ok u → ∀ switch,
        env'.vector.findArm u switch = env.vector.findArm u switch ∧
        ∀ a offset, env.vector.findArm u switch = .ok (some a) → a.body = .stream offset →
          env'.vector.stream offset = env.vector.stream offset)
    (ha : ∀ u switch a offset e, env.vector.unionDefinition definition = .ok u →
      env.vector.findArm u switch = .ok (some a) → a.body = .stream offset →
      env.vector.stream offset = .ok e → N e) (field : Option Nat) (site : Site ScopeId) :
    R (getUnion env walk definition field site)
      (getUnion env' walk' definition field site) := by
  have harm := fun u switch hu => hR.getArm hw (hsame.2 u hu switch)
    fun a offset e => ha u switch a offset e hu
  obtain ⟨vector, previous, rfl⟩ := hT
  refine hR.lift_bind hsame.1 fun u hu => hR.bind (hR.scalar _) fun v => ?_
  cases v.toInt? with
  | none => exact hR.throw _
  | some switch =>
    have hrest := hR.bind (hR.align u.align) fun _ => hR.bind (harm u switch hu site.inside) fun arm =>
      hR.pure (Value.union (Int64.ofInt switch) arm)
    cases field with
    | none => exact hrest
    | some field => exact hR.bind (hR.checkBound _ _ _) fun _ => hrest

/-! ### Pipes -/

/-- A piece of a pipe, where its own steps are related. -/
theorem getPiece {h : PipeHandle}
    (hpipe : ∀ {α : Type} (x : EStateM Fault Pipe α), R (onPipe h x) (onPipe h x))
    {element : Descriptor} (he : N element) (site : Site ScopeId) (fuel n : Nat) :
    R (getPiece walk h element site fuel n) (getPiece walk' h element site fuel n) := by
  induction fuel generalizing n with
  | zero => cases n <;> exact hR.pure _
  | succ fuel ih =>
    cases n with
    | zero => exact hR.pure _
    | succ n =>
      refine hR.bind (hpipe _) fun granted => hR.bind (hR.repeatM (hw _ he _) _) fun piece => ?_
      exact hR.bind (hpipe _) fun _ => hR.bind (hpipe _) fun _ => ih _

/-- The pieces of a pipe, where its own steps are related. -/
theorem getPieces (hT : env.Twin env') {h : PipeHandle}
    (hpipe : ∀ {α : Type} (x : EStateM Fault Pipe α), R (onPipe h x) (onPipe h x))
    {element : Descriptor} (he : N element) (site : Site ScopeId)
    (fuel : Nat) : R (getPieces env walk h element site fuel)
      (getPieces env' walk' h element site fuel) := by
  obtain ⟨vector, previous, rfl⟩ := hT
  induction fuel with
  | zero => exact hR.pure _
  | succ fuel ih =>
    refine hR.bind hR.count fun n => relates_ite ?_ (hR.bind (hR.lift _) fun _ => ?_)
    · exact hR.bind (hpipe _) fun _ => hpipe _
    · exact hR.bind (hR.getPiece hw hpipe he _ _ _) fun _ => ih

omit hw in
/-- A pipe, where it is related once its handle and the type of its elements are known. -/
theorem getPipe (walk walk' : Walk) {element : Nat} {site : Site ScopeId}
    (hsame : env'.vector.stream element = env.vector.stream element) (current : Value)
    (hpipe : ∀ h d, current.pipe? = .ok h → env.vector.stream element = .ok d →
      R (getStream env walk h d site.inside) (getStream env' walk' h d site.inside)) :
    R (getPipe env walk element current site)
      (getPipe env' walk' element current site) := by
  rw [getPipe_eq_stream, getPipe_eq_stream]
  refine hR.lift_bind rfl fun h hh => hR.lift_bind hsame fun d hd => hR.bind (hR.lift _) fun _ => ?_
  exact hpipe h d hh hd

/-! ### Values -/

/-- What is embedded in a value is related; so is the value, where structs, pointers, converted values
and deleted nodes are. -/
theorem getForm (hE : env.Alike env' N) (hN : ∀ ⦃d e⦄, N d → env.vector.Embeds d e → N e)
    {d : Descriptor} (hsame : env.vector.Same env'.vector d)
    (hparts : ∀ e, env.vector.Embeds d e → N e) (site : Site ScopeId)
    (hstruct : ∀ {kind props definition}, d.form = .struct kind props definition →
      R (getStruct env walk kind definition site) (getStruct env' walk' kind definition site))
    (hnested : ∀ {align layout fields}, d.form = .nested align layout fields →
      R (getNested env walk align layout fields site) (getNested env' walk' align layout fields site))
    (hpointer : ∀ {kind props pointee}, d.form = .pointer kind props pointee →
      R (getPointer env walk kind pointee site) (getPointer env' walk' kind pointee site))
    (hconverted : ∀ {kind props routine wire}, d.form = .converted kind props routine wire →
      R (getConverted env walk routine wire site) (getConverted env' walk' routine wire site))
    (hdeleted : d.form = .deletedNodes → R (getDeleted env) (getDeleted env')) :
    R (getForm env walk d site) (getForm env' walk' d site) := by
  unfold Unmarshal.getForm
  cases hform : d.form with
  | scalar kind =>
    obtain ⟨vector, previous, rfl⟩ := hE.twin
    exact hR.bind (hR.scalar kind) fun _ => hR.bind (hR.lift _) fun _ => hR.pure _
  | struct => exact hstruct hform
  | nested => exact hnested hform
  | array =>
    exact hR.getArray hw hE hN (hsame.array hform)
      (fun a ha => hparts _ (.element hform ha)) _ _ _ _
  | encapsulatedUnion props definition =>
    exact hR.getUnion hw hE.twin (hsame.union (.inl ⟨props, hform⟩))
      (fun u switch a offset e hu ha hb he =>
        hparts _ (.arm (.inl ⟨props, hform⟩) hu ha hb he)) _ _
  | switchedUnion props field definition =>
    exact hR.getUnion hw hE.twin (hsame.union (.inr ⟨props, field, hform⟩))
      (fun u switch a offset e hu ha hb he =>
        hparts _ (.arm (.inr ⟨props, field, hform⟩) hu ha hb he)) _ _
  | pointer => exact hpointer hform
  | ignore =>
    obtain ⟨vector, previous, rfl⟩ := hE.twin
    exact hR.bind hR.count fun _ => hR.pure _
  | converted => exact hconverted hform
  | pipe => exact hR.throw _
  | context direction =>
    obtain ⟨vector, previous, rfl⟩ := hE.twin
    exact hR.newContext _
  | align boundary => exact hR.bind (hR.align _) fun _ => hR.pure _
  | deletedNodes => exact hdeleted hform
  | void => exact hR.pure _
  | unhosted opcode => exact hR.throw _

end

/-! ### Deleted nodes -/

/-- The ids of deleted nodes are read where the operation before knows them. -/
theorem getDeleted (delete : ∀ id, R (modify fun s => { s with deleted := id :: s.deleted })
    (modify fun s => { s with deleted := id :: s.deleted })) :
    R (getDeleted env) (getDeleted env) := by
  have hnode : R (getDeletedNode env) (getDeletedNode env) := hR.bind hR.count fun id =>
    relates_ite (hR.throw (α := Value) _) (hR.bind (delete id) fun _ => hR.pure _)
  exact hR.bind hR.count fun _ => hR.bind (hR.lift _) fun _ => hR.bind (hR.repeatM hnode _) fun _ =>
    hR.pure _

end RelatesUnscoped

namespace RelatesCalls

variable (hR : RelatesCalls env R) {walk walk' : Walk} (hw : RelatesWalks N R walk walk')

include hR hw

theorem getConverted (hT : env.Twin env') {wire : Nat}
    (hsame : env'.vector.stream wire = env.vector.stream wire)
    (hd : ∀ d, env.vector.stream wire = .ok d → N d) (index : Nat)
    (site : Site ScopeId) : R (getConverted env walk index wire site)
      (getConverted env' walk' index wire site) := by
  obtain ⟨vector, previous, rfl⟩ := hT
  refine hR.bind (hR.lift _) fun routine => hR.lift_bind hsame fun d hwire => hR.check ?_
  refine hR.bind (hw _ (hd d hwire) _) fun w => ?_
  refine hR.seeCalls (f := fun calls => do
    recordCall (.fromWire index w (Routine.succeeded (routine.fromWire calls w)))
    recordCall (.freeWire index w)
    routine.fromWire calls w) (g := fun calls => do
    recordCall (.fromWire index w (Routine.succeeded (routine.fromWire calls w)))
    recordCall (.freeWire index w)
    routine.fromWire calls w) fun _ => ?_
  exact hR.bind (hR.call _) fun _ => hR.bind (hR.call _) fun _ => hR.lift _

end RelatesCalls

namespace RelatesScoped

variable (hR : RelatesScoped env R)

include hR

theorem openStruct (count : Nat) (site : Site ScopeId) :
    R (openStruct count site) (openStruct count site) :=
  hR.bind (hR.openScope _) fun _ => hR.pure _

section

variable {walk walk' last last' : Walk} (hw : RelatesWalks N R walk walk')

include hw

/-! ### Structs -/

section

variable (hT : env.Twin env') (hl : RelatesWalks N R last last')

include hT hl

theorem getFields (layout : Nat) (site : Site ScopeId) {fields : List Descriptor}
    (hf : ∀ d ∈ fields, N d) (index : Nat) (slots : Array Value) :
    R (getFields env walk last layout site index fields slots)
      (getFields env' walk' last' layout site index fields slots) := by
  obtain ⟨vector, previous, rfl⟩ := hT
  induction fields generalizing index slots with
  | nil => exact hR.pure _
  | cons d ds ih =>
    have hd := hf d List.mem_cons_self
    have ih := ih fun e he => hf e (List.mem_cons_of_mem _ he)
    have hrest := fun v : Value => hR.bind (hR.setField site.scope index v.toInt?) fun _ =>
      hR.bind (hR.lift (env.interface.layout.slot layout index)) fun slot =>
        ih (index + 1) (slots.setIfInBounds slot v)
    unfold Unmarshal.getFields
    refine relates_ite (relates_ite (hR.bind (hw d hd site) hrest) (hR.bind (hl d hd site) hrest)) ?_
    exact hR.bind (hw d hd site) fun _ => ih _ _

theorem getBody (align layout count : Nat) {fields : List Descriptor} (hf : ∀ d ∈ fields, N d)
    (site : Site ScopeId) : R (getBody env walk last align layout count fields site)
      (getBody env' walk' last' align layout count fields site) :=
  hR.bind (hR.align _) fun _ => hR.bind (hR.getFields hw hT hl _ _ hf _ _) fun _ =>
    hR.bind (hR.verifyLate _) fun _ => hR.pure _

end

section

variable (hE : env.Alike env' N) (hN : ∀ ⦃d e⦄, N d → env.vector.Embeds d e → N e)

include hE hN

theorem getTail (extents : List Nat) (levels : Nat) : RelatesWalks N R
    (getTail env walk extents levels) (getTail env' walk' extents levels) := by
  induction levels with
  | zero =>
    intro d hd site
    unfold Unmarshal.getTail
    cases hform : d.form with
    | array =>
      exact relates_ite (hR.getArray hw hE hN ((hE.same hd).array hform)
        (fun a ha => hN hd (.element hform ha)) _ _ _ _) (hw _ hd _)
    | struct =>
      rw [hE.twin.config]
      exact relates_ite (hw _ hd _) (hR.throw _)
    | _ => exact hw _ hd _
  | succ levels ih =>
    intro d hd site
    unfold Unmarshal.getTail
    cases hform : d.form with
    | array =>
      exact relates_ite (hR.getArray hw hE hN ((hE.same hd).array hform)
        (fun a ha => hN hd (.element hform ha)) _ _ _ _) (hw _ hd _)
    | struct =>
      have hsame := (hE.same hd).struct hform
      have hbody := fun (s : StructDefinition) (hf : ∀ e ∈ s.fields, N e) count site =>
        hR.getBody hw hE.twin ih s.align s.layout count hf site
      obtain ⟨vector, previous, rfl⟩ := hE.twin
      refine relates_ite (hw _ hd _)
        (hR.lift_bind hsame fun s hs => hR.bind (hR.lift _) fun count => ?_)
      exact hR.bind (hR.openStruct _ _) fun _ =>
        hbody s (fun e he => hN hd (.field hform hs he)) _ _
    | _ => exact hw _ hd _

theorem getStruct {definition : Nat}
    (hsame : env'.vector.structDefinition definition = env.vector.structDefinition definition)
    (hf : ∀ s, env.vector.structDefinition definition = .ok s → ∀ e ∈ s.fields, N e)
    (kind : StructKind) (site : Site ScopeId) : R (getStruct env walk kind definition site)
      (getStruct env' walk' kind definition site) := by
  refine hR.lift_bind hsame fun d hd => ?_
  have hcount : env'.interface.layout.slotCount d.layout
      = env.interface.layout.slotCount d.layout := by
    obtain ⟨vector, previous, rfl⟩ := hE.twin
    rfl
  refine hR.lift_bind hcount fun count _ => hR.bind (hR.openStruct _ _) fun inner =>
    relates_ite (hR.getBody hw hE.twin hw _ _ _ (hf d hd) _) ?_
  rw [hoistedDims_alike hE hN (hf d hd), hE.twin.config]
  refine hR.bind (hR.lift _) fun hoisted => hR.bind (hR.getExtents hE.twin _ _) fun extents => ?_
  exact hR.getBody hw hE.twin (hR.getTail hw hE hN _ _) _ _ _ (hf d hd) _

end

theorem getNested (hT : env.Twin env') (align layout : Nat) {fields : List Descriptor}
    (hf : ∀ d ∈ fields, N d) (site : Site ScopeId) : R (getNested env walk align layout fields site)
      (getNested env' walk' align layout fields site) := by
  have hbody := fun count => hR.getBody hw hT hw align layout count hf
  obtain ⟨vector, previous, rfl⟩ := hT
  exact hR.bind (hR.lift _) fun count => hR.bind (hR.openStruct _ _) fun inner => hbody count inner

/-! ### Values -/

/-- What is embedded in a value is related; so is the value, where pointers, converted values and
deleted nodes are. -/
theorem getForm (hE : env.Alike env' N) (hN : ∀ ⦃d e⦄, N d → env.vector.Embeds d e → N e)
    {d : Descriptor} (hsame : env.vector.Same env'.vector d)
    (hparts : ∀ e, env.vector.Embeds d e → N e)
    (hpointer : ∀ {kind props pointee}, d.form = .pointer kind props pointee → ∀ site,
      R (getPointer env walk kind pointee site) (getPointer env' walk' kind pointee site))
    (hdeleted : d.form = .deletedNodes → R (getDeleted env) (getDeleted env'))
    (site : Site ScopeId)
    (hconverted : ∀ {kind props routine wire}, d.form = .converted kind props routine wire →
      R (getConverted env walk routine wire site) (getConverted env' walk' routine wire site)) :
    R (getForm env walk d site) (getForm env' walk' d site) :=
  hR.toRelatesUnscoped.getForm hw hE hN hsame hparts site
    (fun hform => hR.getStruct hw hE hN (hsame.struct hform)
      (fun _ hs _ he => hparts _ (.field hform hs he)) _ _)
    (fun hform => hR.getNested hw hE.twin _ _ (fun _ he => hparts _ (.nestedField hform he)) _)
    (fun hform => hpointer hform site) hconverted hdeleted

end

end RelatesScoped

namespace RelatesSilent

variable (hR : RelatesSilent env R)

include hR

section

variable (hT : env.Twin env')
  (hw : ∀ room, RelatesWalks N R (Unmarshal.walk env room) (Unmarshal.walk env' room))

include hT hw

theorem getParameter {d : Descriptor} (hd : N d) (current : Value) (site : Site ScopeId)
    (hpipe : ∀ {props element}, d.form = .pipe props element → ∀ room,
      R (Unmarshal.getPipe env (Unmarshal.walk env room) element current site)
        (Unmarshal.getPipe env' (Unmarshal.walk env' room) element current site)) :
    R (getParameter env d current site) (getParameter env' d current site) := by
  unfold Unmarshal.getParameter
  rw [hT.config]
  dsimp only
  cases hform : d.form with
  | pipe => exact hpipe hform _
  | context =>
    obtain ⟨vector, previous, rfl⟩ := hT
    exact hR.context _ _
  | _ => exact hw _ _ hd _

/-- Whole operations are related, where walks are, and pipes, and what ends with the message. -/
theorem getParameters {offset : Nat} {params : List Value}
    (hsame : env'.vector.parameters offset = env.vector.parameters offset)
    (hlist : ∀ list, env.vector.parameters offset = .ok list → ∀ p ∈ list, N p.descriptor)
    (hpipe : ∀ {d props element}, N d → d.form = .pipe props element → ∀ room current site,
      R (Unmarshal.getPipe env (Unmarshal.walk env room) element current site)
        (Unmarshal.getPipe env' (Unmarshal.walk env' room) element current site))
    (hflush : ∀ room, R (flush env (Unmarshal.walk env room))
      (flush env' (Unmarshal.walk env' room))) :
    R (getParameters env offset params) (getParameters env' offset params) := by
  unfold Unmarshal.getParameters
  rw [hT.config]
  refine hR.lift_bind hsame fun list hl => ?_
  refine hR.seeHeap (f := fun heap => Unmarshal.openScope (parameterScope heap list params) >>= _)
    (g := fun heap => Unmarshal.openScope (parameterScope heap list params) >>= _)
    fun heap => hR.bind (hR.openScope _) fun scope => hR.bind (hR.mapM fun p hp => ?_) fun _ =>
      hR.bind (hR.verifyLate _) fun _ => hR.pure _
  have hd := hlist list hl p hp
  cases params[p.index]? with
  | none => exact hR.throw _
  | some current =>
    refine hR.bind (hR.getParameter hT hw hd _ _ fun hform room =>
      hpipe hd hform room _ _) fun v => hR.bind (hflush _) fun _ => ?_
    exact hR.seeHeap (f := fun heap => do
      Unmarshal.setField scope p.index (correlationOf heap v)
      return (p.index, v)) (g := fun heap => do
      Unmarshal.setField scope p.index (correlationOf heap v)
      return (p.index, v)) fun _ => hR.bind (hR.setField _ _ _) fun _ => hR.pure _

end

end RelatesSilent

namespace RelatesPlain

variable (hR : RelatesPlain env R)

include hR

section

variable {walk walk' : Walk} (hw : RelatesWalks N R walk walk')

include hw

/-- What is embedded in a value is related; so is the value, where pointers and deleted nodes
are. -/
theorem getForm (hE : env.Alike env' N)
    (hN : ∀ ⦃d e⦄, N d → env.vector.Embeds d e → N e) {d : Descriptor}
    (hsame : env.vector.Same env'.vector d)
    (hparts : ∀ e, env.vector.Embeds d e → N e)
    (hwire : ∀ {kind props routine wire e}, d.form = .converted kind props routine wire →
      env.vector.stream wire = .ok e → N e)
    (hpointer : ∀ {kind props pointee}, d.form = .pointer kind props pointee → ∀ site,
      R (getPointer env walk kind pointee site) (getPointer env' walk' kind pointee site))
    (hdeleted : d.form = .deletedNodes → R (getDeleted env) (getDeleted env'))
    (site : Site ScopeId) : R (getForm env walk d site) (getForm env' walk' d site) :=
  hR.toRelatesSilent.getForm hw hE hN hsame hparts hpointer hdeleted site fun h =>
    hR.getConverted hw hE.twin (hsame.wire h) (fun _ he => hwire h he) _ site

end

section

variable (hE : env.Alike env' N) (hN : env.vector.Closed N)
  (hdeleted : ∀ {d}, N d → d.form = .deletedNodes → R (getDeleted env) (getDeleted env'))
  (hpointer : ∀ {walk walk' : Walk}, RelatesWalks N R walk walk' → ∀ {d kind props pointee}, N d →
    d.form = .pointer kind props pointee → ∀ site,
      R (getPointer env walk kind pointee site) (getPointer env' walk' kind pointee site))

include hE hN hdeleted hpointer

/-- Walks over the same type are related, where pointers are. -/
theorem walk (room : Nat) : RelatesWalks N R (walk env room) (walk env' room) := by
  induction room with
  | zero =>
    intro d _ site
    unfold Unmarshal.walk
    rw [hE.twin.config]
    exact hR.throw _
  | succ room ih =>
    exact fun d hd => hR.getForm ih hE (fun _ _ hd he => hN hd (.embedded he)) (hE.same hd)
      (fun _ he => hN hd (.embedded he)) (fun hform he => hN hd (.wire hform he)) (hpointer ih hd)
      (hdeleted hd)

/-- Whole operations are related, where pipes are, and what ends with the message. -/
theorem getParameters {offset : Nat} {params : List Value}
    (hsame : env'.vector.parameters offset = env.vector.parameters offset)
    (hlist : ∀ list, env.vector.parameters offset = .ok list → ∀ p ∈ list, N p.descriptor)
    (hpipe : ∀ {d props element}, N d → d.form = .pipe props element → ∀ room current site,
      R (Unmarshal.getPipe env (Unmarshal.walk env room) element current site)
        (Unmarshal.getPipe env' (Unmarshal.walk env' room) element current site))
    (hflush : ∀ room, R (flush env (Unmarshal.walk env room))
      (flush env' (Unmarshal.walk env' room))) :
    R (getParameters env offset params) (getParameters env' offset params) :=
  hR.toRelatesSilent.getParameters hE.twin (hR.walk hE hN hdeleted hpointer) hsame hlist hpipe hflush

end

end RelatesPlain

namespace Relates

variable (hR : Relates env R) (hE : env.Alike env' N) (hN : env.vector.Closed N)
  (hdeleted : ∀ {d}, N d → d.form = .deletedNodes → R (getDeleted env) (getDeleted env'))
  (hpointer : ∀ {walk walk' : Walk}, RelatesWalks N R walk walk' → ∀ {d kind props pointee}, N d →
    d.form = .pointer kind props pointee → ∀ site,
      R (getPointer env walk kind pointee site) (getPointer env' walk' kind pointee site))

include hR hE hN hdeleted hpointer

/-- Whole operations are related, where what ends with the message is. -/
theorem getParameters {offset : Nat} {params : List Value}
    (hsame : env'.vector.parameters offset = env.vector.parameters offset)
    (hlist : ∀ list, env.vector.parameters offset = .ok list → ∀ p ∈ list, N p.descriptor)
    (hpieces : ∀ room h e (site : Site ScopeId), N e →
      R (getAllPieces env (Unmarshal.walk env room) h e site)
        (getAllPieces env' (Unmarshal.walk env' room) h e site))
    (hflush : ∀ room, R (flush env (Unmarshal.walk env room))
      (flush env' (Unmarshal.walk env' room))) :
    R (getParameters env offset params) (getParameters env' offset params) := by
  refine hR.toRelatesPlain.getParameters hE hN hdeleted hpointer hsame hlist ?_ hflush
  intro d props element hd hform room current site
  refine hR.getPipe _ _ ((hE.same hd).piped hform) current fun h e _ he => ?_
  exact hR.bind (hR.onPipe h _) fun _ =>
    hR.bind (hpieces room h e _ (hN hd (.embedded (.piped hform he)))) fun _ => hR.pure _

end Relates

namespace RelatesFills

variable (hR : RelatesFills env own M R) {walk walk' : Walk} (hw : RelatesWalks N R walk walk')

include hR hw

theorem getPointee {cell : CellId} (hc : own cell) {pointee : Nat}
    (hsame : env'.vector.stream pointee = env.vector.stream pointee)
    (he : ∀ e, env.vector.stream pointee = .ok e → N e) (site : Site ScopeId) :
    R (getPointee env walk cell pointee site) (getPointee env' walk' cell pointee site) :=
  hR.lift_bind hsame fun d hd => hR.bind (hw d (he d hd) _) fun _ => hR.store hc _

theorem getDeferred (hM : ∀ p, M p → env'.vector.stream p = env.vector.stream p ∧
      ∀ e, env.vector.stream p = .ok e → N e)
    (depth : Nat) {ds : List (Deferred ScopeId)} (hds : ∀ d ∈ ds, own d.cell ∧ M d.pointee) :
    R (getDeferred env walk depth ds) (getDeferred env' walk' depth ds) := by
  induction depth generalizing ds with
  | zero =>
    cases ds with
    | nil => exact hR.pure _
    | cons d ds => exact hR.throw _
  | succ depth ih =>
    cases ds with
    | nil => exact hR.pure _
    | cons d ds =>
      refine hR.forM fun e he => ?_
      obtain ⟨hc, hp⟩ := hds e he
      obtain ⟨hsame, hN⟩ := hM _ hp
      exact hR.bind (hR.getPointee hw hc hsame hN _) fun _ => hR.takeDeferred fun es hes => ih hes

end RelatesFills

namespace RelatesNodes

variable (hR : RelatesNodes env own M R) {walk walk' : Walk} (hw : RelatesWalks N R walk walk')
  (hT : env.Twin env') {pointee : Nat} (hM : M pointee)
  (hsame : env'.vector.stream pointee = env.vector.stream pointee)
  (he : ∀ e, env.vector.stream pointee = .ok e → N e)

include hR hw hM hsame he

theorem placePointee {cell : CellId} (hc : own cell) (site : Site ScopeId) :
    R (placePointee env walk cell pointee site) (placePointee env' walk' cell pointee site) :=
  relates_ite (hR.defer hc hM) (hR.getPointee hw hc hsame he _)

include hT

theorem getReference (site : Site ScopeId) :
    R (getReference env walk pointee site) (getReference env' walk' pointee site) := by
  have hrest := hR.allocate fun cell hc => hR.bind (hR.sight ⟨none, pointee, cell⟩) fun _ =>
    hR.bind (hR.placePointee hw hM hsame he hc site) fun _ => hR.pure (Value.pointer (some cell))
  obtain ⟨vector, previous, rfl⟩ := hT
  exact relates_ite (hR.bind hR.count fun _ => hrest) hrest

theorem getPointer (kind : PointerKind) (site : Site ScopeId) :
    R (getPointer env walk kind pointee site) (getPointer env' walk' kind pointee site) := by
  by_cases hk : kind = .ref
  · rw [hk]
    exact hR.getReference hw hT hM hsame he _
  have hplace := fun {cell : CellId} (hc : own cell) => hR.placePointee hw hM hsame he hc site
  rw [getPointer_eq env walk hk, getPointer_eq _ walk' hk]
  obtain ⟨vector, previous, rfl⟩ := hT
  refine hR.bind hR.count fun id => relates_ite (hR.pure _) (hR.seeNodes fun nodes => ?_)
  unfold pointTo
  cases nodes.cellOf? id with
  | some cell => exact hR.bind (hR.sight _) fun _ => hR.pure _
  | none =>
    refine hR.allocate fun cell hc => hR.bind (hR.register _ _) fun _ => ?_
    exact hR.bind (hR.sight _) fun _ => hR.bind (hplace hc) fun _ => hR.pure _

end RelatesNodes

end Ndr.Unmarshal
