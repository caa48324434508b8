import Ndr.Machine
import Ndr.Proofs.Action
import Ndr.Proofs.TypeVector.Leads

/-!
The one traversal of writing. Two walks are followed side by side, one of them with another vector
that says the same, in another byte order and with other nodes to report: where the steps of writing
are related, and so are actions in turn whose parts are, all walks over the same value are related.
The types may be limited to some that lead to no others, and what is put off may be left out. With a
relation that looks at one side only, it is a property of every walk.
-/

namespace Ndr.Marshal

variable {env env' : Env} {N : Bool → Descriptor → Prop} {M : Nat → Prop}
  {R : {α : Type} → Marshalling α → Marshalling α → Prop}

theorem put_bind {α β : Type} (x : Put α) (f : α → Put β) :
    put (x >>= f) = put x >>= fun a => put (f a) :=
  @onPart_bind Fault State Writer α β State.writer (fun s writer => { s with writer }) (fun _ _ => rfl)
    (fun _ _ _ => rfl) x f

/-! ### Parts of a struct -/

theorem structSlots_eq_ok {v : Value} {slots : List Value} (h : structSlots v = .ok slots) :
    v = .struct slots := by
  unfold structSlots at h
  split at h
  · rw [Except.ok.inj h]
  · exact absurd h (by simp)

theorem structParts_eq_ok {definition : Nat} {v : Value} {d : StructDefinition}
    {slots : List Value} {scope : Scope}
    (h : structParts env definition v = .ok (d, slots, scope)) :
    env.vector.structDefinition definition = .ok d ∧ v = .struct slots ∧
      scopeOf env d.layout d.fields slots = .ok scope := by
  unfold structParts at h
  obtain ⟨d', hd, h⟩ := Except.bind_eq_ok.1 h
  obtain ⟨slots', hslots, h⟩ := Except.bind_eq_ok.1 h
  obtain ⟨scope', hscope, h⟩ := Except.bind_eq_ok.1 h
  cases Except.pure_eq_ok.1 h
  exact ⟨hd, structSlots_eq_ok hslots, hscope⟩

/-! ### Parts of a walk -/

/-- A pointer to a cell: its id, and the pointee where the cell is met for the first time. -/
abbrev putTarget (env : Env) (walk : Walk) (pointee : Nat) (cell : CellId) (site : Site Scope) :
    Marshalling Unit := do
  match ← sight cell with
  | .again id => putCount env id
  | .first id =>
    putCount env id
    placePointee env walk cell pointee site

/-- A value that a routine made is written in place of a host's, and released. -/
abbrev putMade (walk : Walk) (index : Nat) (v : Value) (d : Descriptor) (site : Site Scope)
    (made : Except Fault Value) : Marshalling Unit := do
  match made with
  | .error e =>
    recordCall (.toWire index v false)
    throw e
  | .ok w =>
    recordCall (.toWire index v true)
    try walk d w { site with conversions := site.conversions + 1 }
    finally recordCall (.freeWire index w)

/-- A token, behind its unused word. -/
abbrev putToken (env : Env) (u : Uuid) : Marshalling Unit := do
  putCount env 0
  putCount env u.first.toNat
  put (Writer.putWord env.order 2 u.second.toNat)
  put (Writer.putWord env.order 2 u.third.toNat)
  put (Writer.putRun (ByteOrder.big.encode 8 u.tail.toNat))

/-- The chunks of a pipe, from entering it on. -/
abbrev putStream (env : Env) (walk : Walk) (h : PipeHandle) (element : Descriptor)
    (site : Site Scope) : Marshalling Unit := do
  onPipe h (Pipe.enter .send)
  let pending ← onPipe h do return (← get).pending.length
  putPieces env walk h element site (pending + 1)

theorem putPipe_eq (env : Env) (walk : Walk) (element : Nat) (v : Value) (site : Site Scope) :
    putPipe env walk element v site = (if site.embedded then throw (.pipeMisuse .outsideParameters)
      else do
        let h ← v.pipe?
        let d ← env.vector.stream element
        d.checkPiped
        putStream env walk h d site.inside : Marshalling Unit) := by
  unfold putPipe
  cases site.embedded <;> rfl

/-! ### Two sides -/

/-- What does not change while a message is written differs in no more than the vectors, the byte
orders and the nodes to report. -/
def Env.Twin (env env' : Env) : Prop :=
  ∃ vector integers deleted, env' = { env with
    interface := { env.interface with vector }
    representation := { env.representation with integers }
    deleted }

theorem Env.Twin.refl (env : Env) : env.Twin env := ⟨_, _, _, rfl⟩

theorem Env.Twin.config (h : env.Twin env') : env'.config = env.config := by
  obtain ⟨vector, integers, deleted, rfl⟩ := h
  rfl

/-- The two sides say the same about the types among `N`. -/
structure Env.Alike (env env' : Env) (N : Bool → Descriptor → Prop) : Prop where
  twin : env.Twin env'
  size : env'.vector.size = env.vector.size
  same : ∀ {b d}, N b d → env.vector.Same env'.vector d

theorem Env.Alike.refl (env : Env) (N : Bool → Descriptor → Prop) : env.Alike env N :=
  ⟨.refl env, rfl, fun _ => .refl _ _⟩

section

variable {definition : Nat}

theorem arrayParts_twin {kind : ArrayKind}
    (h : env'.vector.arrayDefinition definition kind.isVarying
      = env.vector.arrayDefinition definition kind.isVarying) (dims : Nat) (v : Value) :
    arrayParts env' kind dims definition v = arrayParts env kind dims definition v := by
  unfold arrayParts
  rw [h]

theorem structParts_twin (hE : env.Twin env')
    (h : env'.vector.structDefinition definition = env.vector.structDefinition definition)
    (v : Value) : structParts env' definition v = structParts env definition v := by
  obtain ⟨vector, integers, deleted, rfl⟩ := hE
  unfold structParts
  rw [h]
  rfl

variable (hE : env.Alike env' N)
  (hN : ∀ ⦃b d e⦄, N b d → env.vector.Embeds d e → N true e)

include hE hN

theorem trailingShape_alike (outermost trailing levels : Nat) {d : StructDefinition}
    (hd : ∀ e ∈ d.fields, N true e) (slots : List Value) (scope : Scope) :
    trailingShape env' outermost trailing levels d slots scope
      = trailingShape env outermost trailing levels d slots scope := by
  have hslot : ∀ layout slots field, slotValue env' layout slots field
      = slotValue env layout slots field := by
    obtain ⟨vector, integers, deleted, rfl⟩ := hE.twin
    exact fun _ _ _ => rfl
  induction levels generalizing d slots scope with
  | zero =>
    unfold trailingShape
    rw [hE.twin.config]
  | succ levels ih =>
    unfold trailingShape
    cases htail : conformantTail? d.fields trailing with
    | none => rfl
    | some found =>
      obtain ⟨field, tail⟩ := found
      obtain ⟨-, f, hlast, hform⟩ := conformantTail?_eq_some htail
      have hf := hd f (List.mem_filter.1 (List.mem_of_getLast? hlast)).1
      dsimp only
      rw [hslot]
      refine bind_congr fun held => ?_
      rcases hform with ⟨kind, props, dims, hform, -, rfl⟩ | ⟨kind, props, definition, hform, -, rfl⟩
      · dsimp only
        rw [arrayParts_twin ((hE.same hf).array hform)]
      · dsimp only
        rw [structParts_twin hE.twin ((hE.same hf).struct hform)]
        cases hparts : structParts env definition held with
        | error e => rfl
        | ok parts =>
          obtain ⟨s, slots', scope'⟩ := parts
          exact ih (fun e he => hN hf (.field hform (structParts_eq_ok hparts).1 he)) _ _

theorem hoistedShape_alike {d : StructDefinition} (hd : ∀ e ∈ d.fields, N true e)
    (slots : List Value) (scope : Scope) :
    hoistedShape env' d slots scope = hoistedShape env d slots scope := by
  unfold hoistedShape
  cases d.trailing with
  | none => rfl
  | some trailing =>
    dsimp only
    rw [hE.twin.config]
    exact trailingShape_alike hE hN _ _ _ hd _ _

end

/-! ### Steps -/

/-- The steps of writing that keep no cell in mind, touch no pipe and call no routine are related to
those of the other side, and actions in turn are related where each of them is. -/
structure RelatesSilent (env env' : Env) (R : {α : Type} → Marshalling α → Marshalling α → Prop) :
    Prop where
  pure : ∀ {α : Type} (a : α), R (pure a) (pure a)
  throw : ∀ {α : Type} (e : Fault), R (throw e : Marshalling α) (throw e)
  bind : ∀ {α β : Type} {x y : Marshalling α} {f g : α → Marshalling β}, R x y →
    (∀ a, R (f a) (g a)) → R (x >>= f) (y >>= g)
  align : ∀ n, R (put (Writer.align n)) (put (Writer.align n))
  count : ∀ v, R (putCount env v) (putCount env' v)
  shortCount : ∀ v,
    R (put (Writer.putAligned env.order 2 v)) (put (Writer.putAligned env'.order 2 v))
  scalar : ∀ kind v, R (put (Writer.putScalar env.representation kind v))
    (put (Writer.putScalar env'.representation kind v))
  run : ∀ bytes, R (put (Writer.putRun bytes)) (put (Writer.putRun bytes))
  token : ∀ u, R (putToken env u) (putToken env' u)

/-- The calls of routines are related as well. What is looked up in a state may only decide which
action follows. -/
structure RelatesPlain (env env' : Env) (R : {α : Type} → Marshalling α → Marshalling α → Prop) :
    Prop extends RelatesSilent env env' R where
  call : ∀ c, R (recordCall c) (recordCall c)
  /-- A call that is recorded however an action ends. -/
  recorded : ∀ {x y : Marshalling Unit} (c : Routine.Call), R x y →
    R (tryFinally x (recordCall c)) (tryFinally y (recordCall c))
  seeCalls : ∀ {α : Type} {f g : List Routine.Call → Marshalling α}, (∀ c, R (f c) (g c)) →
    R (get >>= fun s => f s.calls) (get >>= fun s => g s.calls)

/-- The steps of pipes are related as well. -/
structure Relates (env env' : Env) (R : {α : Type} → Marshalling α → Marshalling α → Prop) :
    Prop extends RelatesPlain env env' R where
  onPipe : ∀ h {α : Type} (x : EStateM Fault Pipe α), R (onPipe h x) (onPipe h x)

/-- The steps of pointers are related beside those that call no routine. Only pointees of which `M`
holds are put off. -/
structure RelatesNodes (env env' : Env) (M : Nat → Prop)
    (R : {α : Type} → Marshalling α → Marshalling α → Prop) : Prop
    extends RelatesSilent env env' R where
  sight : ∀ c, R (sight c) (sight c)
  defer : ∀ {d : Deferred Scope}, M d.pointee → R (defer d) (defer d)
  takeDeferred : ∀ {α : Type} {f g : List (Deferred Scope) → Marshalling α},
    (∀ ds, (∀ d ∈ ds, M d.pointee) → R (f ds) (g ds)) → R (takeDeferred >>= f) (takeDeferred >>= g)

/-- The steps of pointers and the calls of routines are related. -/
structure RelatesPointers (env env' : Env) (M : Nat → Prop)
    (R : {α : Type} → Marshalling α → Marshalling α → Prop) : Prop
    extends RelatesPlain env env' R, RelatesNodes env env' M R

/-- All steps of writing are related. -/
structure RelatesSteps (env env' : Env) (M : Nat → Prop)
    (R : {α : Type} → Marshalling α → Marshalling α → Prop) : Prop
    extends Relates env env' R, RelatesPointers env env' M R

/-- Walks over the types among `N` that are related. -/
abbrev RelatesWalks (N : Bool → Descriptor → Prop)
    (R : {α : Type} → Marshalling α → Marshalling α → Prop) (walk walk' : Walk) : Prop :=
  ∀ d v (site : Site Scope), N site.embedded d → R (walk d v site) (walk' d v site)

namespace RelatesSilent

variable (hR : RelatesSilent env env' R)

include hR

/-! ### Actions of several steps -/

section

variable {α β : Type}

theorem lift (x : Except Fault α) : R (liftM x : Marshalling α) (liftM x) := by
  cases x with
  | ok a => exact hR.pure a
  | error e => exact hR.throw e

/-- What follows a computation may count on its result. -/
theorem lift_bind {x y : Except Fault α} {f g : α → Marshalling β} (hxy : y = x)
    (h : ∀ a, x = .ok a → R (f a) (g a)) :
    R (liftM x >>= f : Marshalling β) (liftM y >>= g) := by
  subst hxy
  cases y with
  | ok a => exact h a rfl
  | error e => exact hR.throw e

omit hR in
theorem ite {c : Prop} [Decidable c] {x x₂ y y₂ : Marshalling α} (hx : R x x₂) (hy : R y y₂) :
    R (if c then x else y) (if c then x₂ else y₂) := by
  split
  · exact hx
  · exact hy

/-- A check ahead of an action. -/
theorem check {c : Prop} [Decidable c] {e : Fault} {f g : PUnit → Marshalling α}
    (h : R (f ⟨⟩) (g ⟨⟩)) : R (if c then MonadExcept.throw e >>= f else f ⟨⟩)
      (if c then MonadExcept.throw e >>= g else g ⟨⟩) :=
  ite (hR.throw (α := α) e) h

theorem forM {f g : α → Marshalling PUnit} {as : List α} (h : ∀ a ∈ as, R (f a) (g a)) :
    R (as.forM f) (as.forM g) := by
  induction as with
  | nil => exact hR.pure _
  | cons a as ih =>
    exact hR.bind (h a List.mem_cons_self) fun _ => ih fun b hb => h b (List.mem_cons_of_mem _ hb)

theorem foldIndices {f g : β → Nat → Marshalling β} (h : ∀ b n, R (f b n) (g b n)) (s : Shape)
    (b : β) : R (s.foldIndices f b) (s.foldIndices g b) := by
  rw [Shape.foldIndices_eq, Shape.foldIndices_eq]
  induction s.indices generalizing b with
  | nil => exact hR.pure _
  | cons n ns ih => exact hR.bind (h b n) ih

end

/-! ### Counts and elements -/

theorem putSize (v1 : Bool) (n : Nat) : R (putSize env v1 n) (putSize env' v1 n) :=
  ite (hR.check (hR.shortCount _)) (hR.check (hR.count _))

theorem putExtents (shape : Shape) (v1 : Bool) :
    R (putExtents env shape v1) (putExtents env' shape v1) :=
  hR.forM fun _ _ => hR.putSize _ _

theorem putRanges (shape : Shape) (v1 : Bool) :
    R (putRanges env shape v1) (putRanges env' shape v1) :=
  hR.forM fun _ _ => ite (hR.check (hR.putSize _ _))
    (hR.check (hR.bind (hR.count _) fun _ => hR.count _))

theorem putByteRun (hE : env.Twin env') (element : Descriptor) (elements : List Value) :
    R (putByteRun env element elements) (putByteRun env' element elements) := by
  obtain ⟨vector, integers, deleted, rfl⟩ := hE
  unfold Marshal.putByteRun
  cases element.byteElement? with
  | none => exact hR.pure _
  | some kind =>
    refine ite (hR.pure _) (hR.bind (hR.lift _) fun _ => hR.bind (hR.run _) fun _ => ?_)
    exact hR.pure _

/-- The ids of the nodes to report are related, where they are the same. -/
theorem putDeleted (hsame : env'.deleted = env.deleted) :
    R (Marshal.putDeleted env) (Marshal.putDeleted env') := by
  unfold Marshal.putDeleted
  rw [hsame]
  exact hR.check (f := fun _ => do
    putCount env env.deleted.length
    env.deleted.forM (putCount env)) (g := fun _ => do
    putCount env' env.deleted.length
    env.deleted.forM (putCount env'))
    (hR.bind (hR.count _) fun _ => hR.forM fun _ _ => hR.count _)

/-! ### Arrays and unions -/

section

variable {walk walk' last last' : Walk} (hw : RelatesWalks N R walk walk') {site : Site Scope}
  (hT : env.Twin env')

include hw hT

theorem putElements {element : Descriptor} (he : N site.embedded element)
    (elements : List Value) : R (putElements env walk element elements site)
      (putElements env' walk' element elements site) :=
  hR.bind (hR.putByteRun hT _ _) fun _ => ite (hR.forM fun v _ => hw _ v _ he) (hR.pure _)

theorem putPart {element : Descriptor} (he : N site.embedded element) (shape : Shape)
    (elements : List Value) : R (putPart env walk element shape elements site)
      (putPart env' walk' element shape elements site) := by
  unfold Marshal.putPart
  cases shape.contiguous? with
  | some range => exact hR.check (hR.putElements hw hT he _)
  | none =>
    refine hR.foldIndices (fun _ place => ?_) _ _
    cases elements.toArray[place]? with
    | some v => exact hw _ v _ he
    | none => exact hR.throw _

theorem putString {d : ArrayDefinition} (he : N site.embedded d.element)
    (elements : List Value) : R (putString env walk d elements site)
      (putString env' walk' d elements site) :=
  hR.bind (hR.lift _) fun kind => hR.bind (hR.putElements hw hT he _) fun _ => hw _ kind.zero _ he

theorem putArray {kind : ArrayKind} {definition : Nat}
    (hsame : env'.vector.arrayDefinition definition kind.isVarying
      = env.vector.arrayDefinition definition kind.isVarying)
    (he : ∀ d, env.vector.arrayDefinition definition kind.isVarying = .ok d → N true d.element)
    (m : Modifiers) (dims : Nat) (v : Value) (site : Site Scope) (preset : Option Shape) :
    R (putArray env walk m kind dims definition v site preset)
      (putArray env' walk' m kind dims definition v site preset) := by
  have hrest : ∀ {d : ArrayDefinition} elements (shape : Shape), N true d.element → R (do
      if kind.isVarying then Marshal.putRanges env shape m.isV1
      if m.isString then Marshal.putString env walk d elements site.inside
      else Marshal.putPart env walk d.element shape elements site.inside) (do
      if kind.isVarying then Marshal.putRanges env' shape m.isV1
      if m.isString then Marshal.putString env' walk' d elements site.inside
      else Marshal.putPart env' walk' d.element shape elements site.inside) := by
    intro d elements shape hd
    have hcontents : R (if m.isString then Marshal.putString env walk d elements site.inside
        else Marshal.putPart env walk d.element shape elements site.inside)
        (if m.isString then Marshal.putString env' walk' d elements site.inside
        else Marshal.putPart env' walk' d.element shape elements site.inside) :=
      ite (hR.putString hw hT hd _) (hR.putPart hw hT hd _ _)
    exact ite (hR.bind (hR.putRanges _ _) fun _ => hcontents) hcontents
  refine hR.lift_bind (arrayParts_twin hsame dims v) fun parts hparts => ?_
  obtain ⟨d, elements⟩ := parts
  have hd : N true d.element := by
    obtain ⟨d', hd', h⟩ := Except.bind_eq_ok.1 hparts
    obtain ⟨_, -, h⟩ := Except.bind_eq_ok.1 h
    split at h
    · obtain ⟨rfl, -⟩ := Prod.mk.inj (Except.pure_eq_ok.1 h)
      exact he d' hd'
    · exact absurd h Except.throw_ne_ok
  cases preset with
  | some shape => exact hR.bind (hR.pure shape) fun shape => hrest elements shape hd
  | none =>
    have hshape : ∀ shape : Shape, R (do
        let shape ← Pure.pure shape
        if kind.isVarying then Marshal.putRanges env shape m.isV1
        if m.isString then Marshal.putString env walk d elements site.inside
        else Marshal.putPart env walk d.element shape elements site.inside) (do
        let shape ← Pure.pure shape
        if kind.isVarying then Marshal.putRanges env' shape m.isV1
        if m.isString then Marshal.putString env' walk' d elements site.inside
        else Marshal.putPart env' walk' d.element shape elements site.inside) :=
      fun shape => hR.bind (hR.pure shape) fun shape => hrest elements shape hd
    exact hR.bind (hR.lift _) fun shape =>
      ite (hR.bind (hR.putExtents _ _) fun _ => hshape shape) (hshape shape)

omit hT in
theorem putArm {u : UnionDefinition} {switch : Int}
    (hsame : env'.vector.findArm u switch = env.vector.findArm u switch ∧
      ∀ a offset, env.vector.findArm u switch = .ok (some a) → a.body = .stream offset →
        env'.vector.stream offset = env.vector.stream offset)
    (ha : ∀ a offset e, env.vector.findArm u switch = .ok (some a) → a.body = .stream offset →
      env.vector.stream offset = .ok e → N site.embedded e) (v : Value) :
    R (putArm env walk u switch v site) (putArm env' walk' u switch v site) := by
  refine hR.lift_bind hsame.1 fun arm harm => ?_
  cases arm with
  | none => exact ite (hR.throw _) (hR.pure _)
  | some arm =>
    dsimp only
    cases hbody : arm.body with
    | empty => exact hR.pure _
    | absent => exact hR.pure _
    | stream offset =>
      exact hR.lift_bind (hsame.2 arm offset harm hbody) fun d hd =>
        hw d v _ (ha arm offset d harm hbody hd)

omit hT in
theorem putUnion {definition : Nat}
    (hsame : env'.vector.unionDefinition definition = env.vector.unionDefinition definition ∧
      ∀ u, env.vector.unionDefinition definition = .ok u → ∀ switch,
        env'.vector.findArm u switch = env.vector.findArm u switch ∧
        ∀ a offset, env.vector.findArm u switch = .ok (some a) → a.body = .stream offset →
          env'.vector.stream offset = env.vector.stream offset)
    (ha : ∀ u switch a offset e, env.vector.unionDefinition definition = .ok u →
      env.vector.findArm u switch = .ok (some a) → a.body = .stream offset →
      env.vector.stream offset = .ok e → N true e) (field : Option Nat) (v : Value)
    (site : Site Scope) : R (putUnion env walk definition field v site)
      (putUnion env' walk' definition field v site) := by
  refine hR.lift_bind hsame.1 fun u hu => ?_
  cases v with
  | union switch arm =>
    refine hR.bind (hR.lift _) fun _ => hR.bind (hR.lift _) fun _ => ?_
    exact hR.bind (hR.scalar _ _) fun _ => hR.bind (hR.align _) fun _ =>
      hR.putArm hw (hsame.2 u hu _) (fun a offset e => ha u _ a offset e hu) arm
  | _ => exact hR.throw _

/-! ### Structs -/

section

variable (hl : RelatesWalks N R last last')

include hl

theorem putFields {ds : List Descriptor} (hds : ∀ d ∈ ds, N site.embedded d) (layout : Nat)
    (slots : List Value) (index : Nat) : R (putFields env walk last layout slots site index ds)
      (putFields env' walk' last' layout slots site index ds) := by
  obtain ⟨vector, integers, deleted, rfl⟩ := hT
  induction ds generalizing index with
  | nil => exact hR.pure _
  | cons d ds ih =>
    have hd := hds d List.mem_cons_self
    have ih := ih fun e he => hds e (List.mem_cons_of_mem _ he)
    unfold Marshal.putFields
    refine ite (hR.bind (hR.lift _) fun v => ite ?_ ?_) (hR.bind (hw d _ _ hd) fun _ => ih _)
    · exact hR.bind (hw d v _ hd) fun _ => ih _
    · exact hR.bind (hl d v _ hd) fun _ => ih _

end

variable (hE : env.Alike env' N)
  (hN : ∀ ⦃b d e⦄, N b d → env.vector.Embeds d e → N true e)

omit hT
include hE hN

theorem putTail (shape : Shape) (levels : Nat) : RelatesWalks N R
    (putTail env walk shape levels) (putTail env' walk' shape levels) := by
  induction levels with
  | zero =>
    intro d v site hd
    unfold Marshal.putTail
    cases hform : d.form with
    | array =>
      exact ite (hR.putArray hw hE.twin ((hE.same hd).array hform)
        (fun _ ha => hN hd (.element hform ha)) _ _ _ _ _)
        (hw d v _ hd)
    | struct =>
      rw [hE.twin.config]
      exact ite (hw d v _ hd) (hR.throw _)
    | _ => exact hw d v _ hd
  | succ levels ih =>
    intro d v site hd
    unfold Marshal.putTail
    cases hform : d.form with
    | array =>
      exact ite (hR.putArray hw hE.twin ((hE.same hd).array hform)
        (fun _ ha => hN hd (.element hform ha)) _ _ _ _ _)
        (hw d v _ hd)
    | struct =>
      refine ite (hw d v _ hd) (hR.lift_bind
        (structParts_twin hE.twin ((hE.same hd).struct hform) v) fun parts hparts => ?_)
      obtain ⟨s, slots, scope⟩ := parts
      have hs := (structParts_eq_ok hparts).1
      exact hR.bind (hR.align _) fun _ =>
        hR.putFields hw hE.twin ih (fun e he => hN hd (.field hform hs he)) _ _ _
    | _ => exact hw d v _ hd

theorem putStruct {definition : Nat}
    (hsame : env'.vector.structDefinition definition = env.vector.structDefinition definition)
    (hf : ∀ s, env.vector.structDefinition definition = .ok s → ∀ e ∈ s.fields, N true e)
    (kind : StructKind) (v : Value) (site : Site Scope) :
    R (putStruct env walk kind definition v site)
      (putStruct env' walk' kind definition v site) := by
  refine hR.lift_bind (structParts_twin hE.twin hsame v) fun parts hparts => ?_
  obtain ⟨d, slots, scope⟩ := parts
  have hd := hf d (structParts_eq_ok hparts).1
  refine ite ?_ ?_
  · exact hR.bind (hR.align _) fun _ => hR.putFields hw hE.twin hw hd _ _ _
  · rw [hoistedShape_alike hE hN hd, hE.twin.config]
    refine hR.bind (hR.lift _) fun hoisted => hR.bind (hR.putExtents _ _) fun _ => ?_
    exact hR.bind (hR.align _) fun _ => hR.putFields hw hE.twin (hR.putTail hw hE hN _ _) hd _ _ _

omit hE hN in
include hT in
theorem putNested {fields : List Descriptor} (hf : ∀ d ∈ fields, N true d) (align layout : Nat)
    (v : Value) (site : Site Scope) : R (putNested env walk align layout fields v site)
      (putNested env' walk' align layout fields v site) := by
  refine hR.bind (hR.lift _) fun slots => ?_
  have hfields : ∀ scope : Scope, R
      (Marshal.putFields env walk walk layout slots { site with scope, embedded := true } 0 fields)
      (Marshal.putFields env' walk' walk' layout slots { site with scope, embedded := true } 0
        fields) :=
    fun _ => hR.putFields hw hT hw hf layout slots 0
  obtain ⟨vector, integers, deleted, rfl⟩ := hT
  exact hR.bind (hR.lift _) fun scope => hR.bind (hR.align _) fun _ => hfields scope

/-! ### Pipes -/

omit hE hN in
include hT in
/-- The chunks of a pipe, where its own steps are related. -/
theorem putPieces {element : Descriptor} (he : N site.embedded element) {h : PipeHandle}
    (hpipe : ∀ {α : Type} (x : EStateM Fault Pipe α), R (onPipe h x) (onPipe h x))
    (fuel : Nat) : R (putPieces env walk h element site fuel)
      (putPieces env' walk' h element site fuel) := by
  obtain ⟨vector, integers, deleted, rfl⟩ := hT
  induction fuel with
  | zero => exact hR.pure _
  | succ fuel ih =>
    refine hR.bind (hpipe _) fun granted => hR.bind (hpipe _) fun piece => hR.check ?_
    refine hR.bind (hR.count _) fun _ => hR.bind (hR.forM fun v _ => hw _ v _ he) fun _ => ?_
    exact hR.bind (hpipe _) fun _ => ite (hpipe _) ih

omit hE hN in
include hT in
/-- What a pipe holds, where its own steps are related. -/
theorem putStream {element : Descriptor} (he : N true element) {h : PipeHandle}
    (hpipe : ∀ {α : Type} (x : EStateM Fault Pipe α), R (onPipe h x) (onPipe h x)) :
    R (Marshal.putStream env walk h element site.inside)
      (Marshal.putStream env' walk' h element site.inside) :=
  hR.bind (hpipe _) fun _ => hR.bind (hpipe _) fun _ => hR.putPieces hw hT he hpipe _

omit hw hE hN in
/-- A pipe, where it is related once its handle and the type of its elements are known. -/
theorem putPipe (walk walk' : Walk) {element : Nat}
    (hsame : env'.vector.stream element = env.vector.stream element) (v : Value) (site : Site Scope)
    (hpipe : site.embedded = false → ∀ h d, v.pipe? = .ok h → env.vector.stream element = .ok d →
      R (Marshal.putStream env walk h d site.inside)
        (Marshal.putStream env' walk' h d site.inside)) :
    R (putPipe env walk element v site) (putPipe env' walk' element v site) := by
  rw [putPipe_eq, putPipe_eq]
  cases hsite : site.embedded with
  | true => exact hR.throw _
  | false =>
    refine hR.lift_bind rfl fun h hh => hR.lift_bind hsame fun d hd => ?_
    exact hR.bind (hR.lift _) fun _ => hpipe hsite h d hh hd

/-! ### Values -/

omit hw hE hN in
include hT in
theorem putContext (direction : ContextDirection) (v : Value) :
    R (putContext env direction v) (putContext env' direction v) := by
  have htoken := hR.token
  obtain ⟨vector, integers, deleted, rfl⟩ := hT
  unfold Marshal.putContext
  cases env.contexts with
  | none => exact hR.throw _
  | some registry => exact hR.bind (hR.lift _) fun h => hR.bind (hR.lift _) htoken

/-- What is embedded in a value is related; so is the value, where pointers, converted values, pipes
and deleted nodes are. -/
theorem putForm {d : Descriptor} {site : Site Scope} (hsame : env.vector.Same env'.vector d)
    (hparts : ∀ e, env.vector.Embeds d e → N true e) (v : Value)
    (hpointer : ∀ {kind props pointee}, d.form = .pointer kind props pointee →
      R (putPointer env walk kind pointee v site)
        (putPointer env' walk' kind pointee v site))
    (hconverted : ∀ {kind props routine wire}, d.form = .converted kind props routine wire →
      R (putConverted env walk routine wire v site) (putConverted env' walk' routine wire v site))
    (hpipe : ∀ {props element}, d.form = .pipe props element →
      R (Marshal.putPipe env walk element v site) (Marshal.putPipe env' walk' element v site))
    (hdeleted : d.form = .deletedNodes → R (Marshal.putDeleted env) (Marshal.putDeleted env')) :
    R (putForm env walk d v site) (putForm env' walk' d v site) := by
  unfold Marshal.putForm
  cases hform : d.form with
  | scalar kind => exact hR.scalar kind v
  | struct =>
    exact hR.putStruct hw hE hN (hsame.struct hform)
      (fun _ hs _ he => hparts _ (.field hform hs he)) _ _ _
  | nested =>
    exact hR.putNested hw hE.twin (fun _ he => hparts _ (.nestedField hform he)) _ _ _ _
  | array =>
    exact hR.putArray hw hE.twin (hsame.array hform)
      (fun _ ha => hparts _ (.element hform ha)) _ _ _ _ _
  | encapsulatedUnion props definition =>
    exact hR.putUnion hw (hsame.union (.inl ⟨props, hform⟩)) (fun u switch a offset e hu ha hb he =>
      hparts _ (.arm (.inl ⟨props, hform⟩) hu ha hb he)) _ _ _
  | switchedUnion props field definition =>
    exact hR.putUnion hw (hsame.union (.inr ⟨props, field, hform⟩))
      (fun u switch a offset e hu ha hb he =>
        hparts _ (.arm (.inr ⟨props, field, hform⟩) hu ha hb he)) _ _ _
  | pointer => exact hpointer hform
  | ignore => exact hR.count _
  | converted => exact hconverted hform
  | pipe => exact hpipe hform
  | context direction => exact hR.putContext hE.twin _ _
  | align boundary => exact hR.align _
  | deletedNodes => exact hdeleted hform
  | void => exact hR.pure _
  | unhosted opcode => exact hR.throw _

end

/-- Whole operations are related, where the walks over their parameters are, and the rest of each. -/
theorem putParameters (hT : env.Twin env')
    (hw : ∀ room, RelatesWalks N R (Marshal.walk env room) (Marshal.walk env' room)) {offset : Nat}
    {params : List Value}
    (hsame : env'.vector.parameters offset = env.vector.parameters offset)
    (hlist : ∀ list, env.vector.parameters offset = .ok list → ∀ p ∈ list, N false p.descriptor)
    (hflush : ∀ room, R (flush env (Marshal.walk env room))
      (flush env' (Marshal.walk env' room))) :
    R (putParameters env offset params) (putParameters env' offset params) := by
  obtain ⟨vector, integers, deleted, rfl⟩ := hT
  refine hR.lift_bind hsame fun list hl => hR.forM fun p hp => ?_
  cases params[p.index]? with
  | none => exact hR.throw _
  | some v => exact hR.bind (hw _ _ _ _ (hlist list hl p hp)) fun _ => hflush _

end RelatesSilent

namespace RelatesPlain

variable (hR : RelatesPlain env env' R)

include hR

/-! ### Converted values -/

section

variable {walk walk' : Walk} (hw : RelatesWalks N R walk walk')

include hw

theorem putConverted (hT : env.Twin env') {wire : Nat} {site : Site Scope}
    (hsame : env'.vector.stream wire = env.vector.stream wire)
    (hd : ∀ d, env.vector.stream wire = .ok d → N site.embedded d) (index : Nat) (v : Value) :
    R (putConverted env walk index wire v site)
      (putConverted env' walk' index wire v site) := by
  obtain ⟨vector, integers, deleted, rfl⟩ := hT
  refine hR.bind (hR.lift _) fun routine => hR.lift_bind hsame fun d hwire => hR.check ?_
  have hmade : ∀ made, R (putMade walk index v d site made) (putMade walk' index v d site made) := by
    intro made
    cases made with
    | error e => exact hR.bind (hR.call _) fun _ => hR.throw e
    | ok w => exact hR.bind (hR.call _) fun _ => hR.recorded _ (hw d w _ (hd d hwire))
  exact hR.seeCalls fun calls => hmade (routine.toWire calls v)

/-- What is embedded in a value is related; so is the value, where pointers, pipes and deleted nodes
are. -/
theorem putForm (hE : env.Alike env' N)
    (hN : ∀ ⦃b d e⦄, N b d → env.vector.Embeds d e → N true e) {d : Descriptor}
    {site : Site Scope} (hsame : env.vector.Same env'.vector d)
    (hparts : ∀ e, env.vector.Embeds d e → N true e)
    (hwire : ∀ {kind props routine wire e}, d.form = .converted kind props routine wire →
      env.vector.stream wire = .ok e → N site.embedded e) (v : Value)
    (hpointer : ∀ {kind props pointee}, d.form = .pointer kind props pointee →
      R (putPointer env walk kind pointee v site)
        (putPointer env' walk' kind pointee v site))
    (hpipe : ∀ {props element}, d.form = .pipe props element →
      R (Marshal.putPipe env walk element v site) (Marshal.putPipe env' walk' element v site))
    (hdeleted : d.form = .deletedNodes → R (Marshal.putDeleted env) (Marshal.putDeleted env')) :
    R (putForm env walk d v site) (putForm env' walk' d v site) :=
  hR.toRelatesSilent.putForm hw hE hN hsame hparts v hpointer
    (fun h => hR.putConverted hw hE.twin (hsame.wire h) (fun _ he => hwire h he) _ _) hpipe hdeleted

end

section

variable (hE : env.Alike env' N) (hN : env.vector.ClosedAtHand N)
  (hdeleted : ∀ b d, N b d → d.form = .deletedNodes →
    R (Marshal.putDeleted env) (Marshal.putDeleted env'))
  (hpointer : ∀ {walk walk' : Walk}, RelatesWalks N R walk walk' →
    ∀ {d kind props pointee} {site : Site Scope}, N site.embedded d →
      d.form = .pointer kind props pointee → ∀ v, R (putPointer env walk kind pointee v site)
        (putPointer env' walk' kind pointee v site))
  (hpipe : ∀ room, RelatesWalks N R (Marshal.walk env room) (Marshal.walk env' room) →
    ∀ {d props element} {site : Site Scope}, N site.embedded d → d.form = .pipe props element →
      ∀ v, R (Marshal.putPipe env (Marshal.walk env room) element v site)
        (Marshal.putPipe env' (Marshal.walk env' room) element v site))

include hE hN hdeleted hpointer hpipe

/-- Walks over the same value are related, where pointers and pipes are. -/
theorem walk (room : Nat) : RelatesWalks N R (walk env room) (walk env' room) := by
  induction room with
  | zero =>
    intro d v site hd
    unfold Marshal.walk
    rw [hE.twin.config]
    exact hR.throw _
  | succ room ih =>
    intro d v site hd
    have hform := hR.putForm ih hE (fun _ _ _ => hN.embedded) (hE.same hd) (fun _ => hN.embedded hd)
      (hN.wire hd) v (fun h => hpointer ih hd h v) (fun h => hpipe room ih hd h v)
      fun h => hdeleted _ d hd h
    refine hR.bind hform fun _ => ?_
    cases d.modifiers.freeRep with
    | none => exact hR.pure _
    | some routine =>
      obtain ⟨vector, integers, deleted, rfl⟩ := hE.twin
      exact hR.bind (hR.lift _) fun _ => hR.call _

/-- Whole operations are related, where the rest of each parameter is. -/
theorem putParameters {offset : Nat} {params : List Value}
    (hsame : env'.vector.parameters offset = env.vector.parameters offset)
    (hlist : ∀ list, env.vector.parameters offset = .ok list → ∀ p ∈ list, N false p.descriptor)
    (hflush : ∀ room, R (flush env (Marshal.walk env room))
      (flush env' (Marshal.walk env' room))) :
    R (putParameters env offset params) (putParameters env' offset params) :=
  hR.toRelatesSilent.putParameters hE.twin (hR.walk hE hN hdeleted hpointer hpipe) hsame hlist hflush

end

end RelatesPlain

namespace Relates

variable (hR : Relates env env' R)

include hR

/-- Pipes are related, where their elements are. -/
theorem putPipe {walk walk' : Walk} (hw : RelatesWalks N R walk walk') (hT : env.Twin env')
    {element : Nat} (hsame : env'.vector.stream element = env.vector.stream element)
    (he : ∀ d, env.vector.stream element = .ok d → N true d) (v : Value) (site : Site Scope) :
    R (putPipe env walk element v site) (putPipe env' walk' element v site) :=
  hR.toRelatesSilent.putPipe _ _ hsame v site fun _ h d _ hd =>
    hR.putStream hw hT (he d hd) (hR.onPipe h)

variable (hE : env.Alike env' N) (hN : env.vector.ClosedAtHand N)
  (hdeleted : ∀ b d, N b d → d.form = .deletedNodes →
    R (putDeleted env) (putDeleted env'))
  (hpointer : ∀ {walk walk' : Walk}, RelatesWalks N R walk walk' →
    ∀ {d kind props pointee} {site : Site Scope}, N site.embedded d →
      d.form = .pointer kind props pointee → ∀ v, R (putPointer env walk kind pointee v site)
        (putPointer env' walk' kind pointee v site))

include hE hN hdeleted hpointer

/-- Walks over the same value are related, where pointers are. -/
theorem walk (room : Nat) : RelatesWalks N R (walk env room) (walk env' room) :=
  hR.toRelatesPlain.walk hE hN hdeleted hpointer
    (fun _ ih _ _ _ _ hd hform v => hR.putPipe ih hE.twin ((hE.same hd).piped hform)
      (fun _ he => hN.embedded hd (.piped hform he)) v _) room

/-- Whole operations are related, where the rest of each parameter is. -/
theorem putParameters {offset : Nat} {params : List Value}
    (hsame : env'.vector.parameters offset = env.vector.parameters offset)
    (hlist : ∀ list, env.vector.parameters offset = .ok list → ∀ p ∈ list, N false p.descriptor)
    (hflush : ∀ room, R (flush env (Marshal.walk env room))
      (flush env' (Marshal.walk env' room))) :
    R (putParameters env offset params) (putParameters env' offset params) :=
  hR.toRelatesPlain.putParameters hE hN hdeleted hpointer
    (fun _ ih _ _ _ _ hd hform v => hR.putPipe ih hE.twin ((hE.same hd).piped hform)
      (fun _ he => hN.embedded hd (.piped hform he)) v _) hsame hlist hflush

end Relates

/-! ### Pointers -/

namespace RelatesNodes

variable (hR : RelatesNodes env env' M R) {walk walk' : Walk}

include hR

/-- A pointer, where its pointee is related that is written in its place or put off. -/
theorem putPointer_of_place (walk walk' : Walk) {pointee : Nat} {site : Site Scope}
    (hplace : ∀ cell, R (placePointee env walk cell pointee site)
      (placePointee env' walk' cell pointee site)) (kind : PointerKind) (v : Value) :
    R (putPointer env walk kind pointee v site)
      (putPointer env' walk' kind pointee v site) := by
  have htarget : ∀ cell, R (putTarget env walk pointee cell site)
      (putTarget env' walk' pointee cell site) := by
    intro cell
    refine hR.bind (hR.sight cell) fun found => ?_
    cases found with
    | again id => exact hR.count id
    | first id => exact hR.bind (hR.count id) fun _ => hplace cell
  unfold Marshal.putPointer
  cases v with
  | pointer target =>
    cases kind <;> cases target
    · exact hR.throw _
    · exact RelatesSilent.ite (hR.bind (hR.count _) fun _ => hplace _) (hplace _)
    · exact hR.count 0
    · exact htarget _
    · exact hR.count 0
    · exact htarget _
  | _ => exact hR.throw _

variable (hw : RelatesWalks N R walk walk') (hT : env.Twin env') {pointee : Nat}
  (hsame : env'.vector.stream pointee = env.vector.stream pointee)
  (he : ∀ e, env.vector.stream pointee = .ok e → N false e)

include hw hT hsame he

theorem putPointee (cell : CellId) (site : Site Scope) :
    R (putPointee env walk cell pointee site)
      (putPointee env' walk' cell pointee site) := by
  obtain ⟨vector, integers, deleted, rfl⟩ := hT
  exact hR.lift_bind hsame fun d hd => hR.bind (hR.lift _) fun v => hw d v _ (he d hd)

variable (hM : M pointee)

include hM

theorem placePointee (cell : CellId) (site : Site Scope) :
    R (placePointee env walk cell pointee site)
      (placePointee env' walk' cell pointee site) :=
  RelatesSilent.ite (hR.defer hM) (hR.putPointee hw hT hsame he cell site)

theorem putPointer (kind : PointerKind) (v : Value) (site : Site Scope) :
    R (putPointer env walk kind pointee v site)
      (putPointer env' walk' kind pointee v site) :=
  hR.putPointer_of_place _ _ (fun cell => hR.placePointee hw hT hsame he hM cell site) kind v

end RelatesNodes

namespace RelatesNodes

variable (hR : RelatesNodes env env' M R) {walk walk' : Walk} (hw : RelatesWalks N R walk walk')
  (hE : env.Alike env' N)
  (hM : ∀ p, M p → env'.vector.stream p = env.vector.stream p ∧
    ∀ e, env.vector.stream p = .ok e → N false e)

include hR hw hE hM

theorem putDeferred (depth : Nat) {ds : List (Deferred Scope)} (hds : ∀ d ∈ ds, M d.pointee) :
    R (putDeferred env walk depth ds) (putDeferred env' walk' depth ds) := by
  induction depth generalizing ds with
  | zero =>
    cases ds with
    | nil => exact hR.pure _
    | cons d ds => exact hR.throw _
  | succ depth ih =>
    cases ds with
    | nil => exact hR.pure _
    | cons d ds =>
      refine hR.forM fun d hd => ?_
      exact hR.bind (hR.putPointee hw hE.twin (hM _ (hds d hd)).1 (hM _ (hds d hd)).2 _ _) fun _ =>
        hR.takeDeferred fun es hes => ih hes

theorem flush : R (flush env walk) (flush env' walk') := by
  have hdepth : referenceDepth env' = referenceDepth env := by
    unfold referenceDepth
    rw [hE.size]
    obtain ⟨vector, integers, deleted, rfl⟩ := hE.twin
    rfl
  unfold Marshal.flush
  rw [hdepth]
  exact hR.takeDeferred fun _ hds => hR.putDeferred hw hE hM _ hds

end RelatesNodes

end Ndr.Marshal
