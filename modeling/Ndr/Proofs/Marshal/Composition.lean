import Ndr.Proofs.Marshal.Traversal

/-!
Properties of whatever is composed of the steps of writing: where every step has a property, and an
action in turn has it where its parts do, every walk has it whose pointers have it. They are
relations of one side.
-/

namespace Ndr.Marshal

variable {env : Env} {N : Bool → Descriptor → Prop} {P : {α : Type} → Marshalling α → Prop}

/-- A property that the steps of writing have that keep no cell in mind, and that actions in turn
have where each of them has it. What is looked up in a state may only decide which action follows. -/
structure Composes (env : Env) (P : {α : Type} → Marshalling α → Prop) : Prop where
  pure : ∀ {α : Type} (a : α), P (pure a)
  throw : ∀ {α : Type} (e : Fault), P (throw e : Marshalling α)
  bind : ∀ {α β : Type} {x : Marshalling α} {f : α → Marshalling β}, P x → (∀ a, P (f a)) →
    P (x >>= f)
  align : ∀ n, P (put (Writer.align n))
  count : ∀ v, P (putCount env v)
  shortCount : ∀ v, P (put (Writer.putAligned env.order 2 v))
  word : ∀ v, P (put (Writer.putWord env.order 2 v))
  scalar : ∀ kind v, P (put (Writer.putScalar env.representation kind v))
  run : ∀ bytes, P (put (Writer.putRun bytes))
  onPipe : ∀ h {α : Type} (x : EStateM Fault Pipe α), P (onPipe h x)
  call : ∀ c, P (recordCall c)
  /-- A call that is recorded however an action ends. -/
  recorded : ∀ {x : Marshalling Unit} (c : Routine.Call), P x → P (tryFinally x (recordCall c))
  seeCalls : ∀ {α : Type} {f : List Routine.Call → Marshalling α}, (∀ c, P (f c)) →
    P (get >>= fun s => f s.calls)

/-! ### Relations of states -/

section

variable {α : Type} {R : State → State → Prop}

/-- An action that leads from a state to one that `R` relates it to, where it succeeds. -/
def Moves (R : State → State → Prop) (x : Marshalling α) : Prop := ∀ ⦃s a t⦄, x s = .ok a t → R s t

/-- **What every step does**: a relation in turn that holds where neither the nodes change nor what
is put off is kept to by every step of writing that meets no cell. -/
theorem composes_moves (frame : ∀ s t : State, t.nodes = s.nodes → t.deferred = s.deferred → R s t)
    (trans : ∀ {s t u}, R s t → R t u → R s u) : Composes env (Moves R) := by
  have hcall : ∀ c, Moves R (recordCall c) := fun c s _ t e => by
    obtain rfl := modify_eq_ok.1 e
    exact frame s _ rfl rfl
  have hput : ∀ {α : Type} (x : Put α), Moves R (put x) := fun x s _ t e => by
    obtain ⟨w, -, rfl⟩ := onPart_eq_ok.1 e
    exact frame s _ rfl rfl
  exact {
    pure := fun a s _ t e => by
      obtain ⟨-, rfl⟩ := pure_eq_ok.1 e
      exact frame s s rfl rfl
    throw := fun _ _ _ _ e => absurd e throw_ne_ok
    bind := fun hx hf _ _ _ e => by
      obtain ⟨a, u, h1, h2⟩ := bind_eq_ok.1 e
      exact trans (hx h1) (hf a h2)
    align := fun _ => hput _
    count := fun _ => hput _
    shortCount := fun _ => hput _
    word := fun _ => hput _
    scalar := fun _ _ => hput _
    run := fun _ => hput _
    onPipe := fun _ _ _ s _ t e => by
      obtain ⟨w, -, rfl⟩ := onPart_eq_ok.1 e
      exact frame s _ rfl rfl
    call := hcall
    recorded := fun c hx _ _ _ e => by
      obtain ⟨u, b, h1, h2⟩ := tryFinally_eq_ok.1 e
      exact trans (hx h1) (hcall c h2)
    seeCalls := fun h _ _ _ e => by
      obtain ⟨_, _, h1, h2⟩ := bind_eq_ok.1 e
      obtain ⟨rfl, rfl⟩ := get_eq_ok.1 h1
      exact h _ h2 }

end

/-! ### Walks -/

/-- Walks that have a property are related by it. -/
theorem relatesWalks {walk : Walk} (hw : ∀ d v site, P (walk d v site)) :
    RelatesWalks (fun _ _ => True) (fun x _ => P x) walk walk := fun d v site _ => hw d v site

namespace Composes

variable (hP : Composes env P)

include hP

/-- A property as a relation that looks at one side. -/
theorem relates : Relates env env fun x _ => P x where
  pure := hP.pure
  throw := hP.throw
  bind := hP.bind
  align := hP.align
  count := hP.count
  shortCount := hP.shortCount
  scalar := hP.scalar
  run := hP.run
  token _ := hP.bind (hP.count _) fun _ => hP.bind (hP.count _) fun _ => hP.bind (hP.word _) fun _ =>
    hP.bind (hP.word _) fun _ => hP.run _
  onPipe := hP.onPipe
  call := hP.call
  recorded := hP.recorded
  seeCalls := hP.seeCalls

/-! ### Actions of several steps -/

section

variable {α : Type}

theorem lift (x : Except Fault α) : P (liftM x : Marshalling α) := hP.relates.lift x

omit hP in
theorem ite {c : Prop} [Decidable c] {x y : Marshalling α} (hx : P x) (hy : P y) :
    P (if c then x else y) := by
  split
  · exact hx
  · exact hy

theorem forM {f : α → Marshalling PUnit} {as : List α} (h : ∀ a ∈ as, P (f a)) : P (as.forM f) :=
  hP.relates.forM (g := f) h

end

theorem putSize (v1 : Bool) (n : Nat) : P (putSize env v1 n) :=
  hP.relates.putSize v1 n

theorem putExtents (shape : Shape) (v1 : Bool) : P (putExtents env shape v1) :=
  hP.relates.putExtents shape v1

theorem putRanges (shape : Shape) (v1 : Bool) : P (putRanges env shape v1) :=
  hP.relates.putRanges shape v1

theorem putDeleted : P (putDeleted env) := hP.relates.putDeleted rfl

section

variable {walk last : Walk} (hw : ∀ d v site, P (walk d v site))
  (hl : ∀ d v site, P (last d v site))

include hw

theorem putElements (element : Descriptor) (elements : List Value) (site : Site Scope) :
    P (putElements env walk element elements site) :=
  hP.relates.putElements (relatesWalks hw) (.refl env) trivial elements

theorem putPart (element : Descriptor) (shape : Shape) (elements : List Value)
    (site : Site Scope) : P (putPart env walk element shape elements site) :=
  hP.relates.putPart (relatesWalks hw) (.refl env) trivial shape elements

theorem putString (d : ArrayDefinition) (elements : List Value) (site : Site Scope) :
    P (putString env walk d elements site) :=
  hP.relates.putString (relatesWalks hw) (.refl env) trivial elements

theorem putArm (u : UnionDefinition) (switch : Int) (v : Value) (site : Site Scope) :
    P (putArm env walk u switch v site) :=
  hP.relates.putArm (relatesWalks hw) ⟨rfl, fun _ _ _ _ => rfl⟩ (fun _ _ _ _ _ _ => trivial) v

include hl in
theorem putFields (layout : Nat) (slots : List Value) (site : Site Scope) (index : Nat)
    (ds : List Descriptor) : P (putFields env walk last layout slots site index ds) :=
  hP.relates.putFields (relatesWalks hw) (.refl env) (relatesWalks hl) (fun _ _ => trivial)
    layout slots index

theorem putTail (shape : Shape) (levels : Nat) (d : Descriptor) (v : Value) (site : Site Scope) :
    P (putTail env walk shape levels d v site) :=
  hP.relates.putTail (relatesWalks hw) (.refl env _) (fun _ _ _ _ _ => trivial) shape
    levels d v site trivial

end

/-- Walks over the types among `N` have a property where pointers have it. -/
theorem walk (hN : env.vector.ClosedAtHand N)
    (hpointer : ∀ {walk : Walk},
      (∀ d v (site : Site Scope), N site.embedded d → P (walk d v site)) →
      ∀ {d kind props pointee} {site : Site Scope}, N site.embedded d →
        d.form = .pointer kind props pointee → ∀ v, P (putPointer env walk kind pointee v site))
    (room : Nat) (d : Descriptor) (v : Value) (site : Site Scope) (hd : N site.embedded d) :
    P (walk env room d v site) :=
  hP.relates.walk (.refl env N) hN (fun _ _ _ _ => hP.putDeleted) (fun hw => hpointer hw) room
    d v site hd

end Composes

/-- Whole operations have a property, where the streams of pipes have it. -/
theorem operation_of_streams
    (hR : RelatesPointers env env (fun _ => True) fun x _ => P x)
    (hstream : ∀ room, (∀ d v site, P (walk env room d v site)) → ∀ h d (site : Site Scope),
      P (putStream env (walk env room) h d site.inside)) (offset : Nat) (params : List Value) :
    P (putParameters env offset params) := by
  have hE : env.Alike env fun _ _ => True := .refl env _
  have hN : env.vector.ClosedAtHand fun _ _ => True := (env.vector.closed_true).atHand
  have hdeleted : P (putDeleted env) := hR.putDeleted rfl
  have hpointer : ∀ {walk walk' : Walk},
      RelatesWalks (fun _ _ => True) (fun x _ => P x) walk walk' →
        ∀ {d : Descriptor} {kind props pointee} {site : Site Scope}, True →
          d.form = .pointer kind props pointee → ∀ v, P (putPointer env walk kind pointee v site) :=
    fun hw _ _ _ _ _ _ _ v => hR.putPointer hw (.refl env) rfl (fun _ _ => trivial) trivial _ v _
  have hpipe : ∀ room,
      RelatesWalks (fun _ _ => True) (fun x _ => P x) (walk env room) (walk env room) →
        ∀ {d : Descriptor} {props element} {site : Site Scope}, True → d.form = .pipe props element →
          ∀ v, P (putPipe env (walk env room) element v site) :=
    fun room hw _ _ _ site _ _ v => hR.toRelatesPlain.putPipe _ (walk env room) rfl v site
      fun _ h d _ _ => hstream room (fun d v site => hw d v site trivial) h d site
  refine hR.toRelatesPlain.putParameters hE hN (fun _ _ _ _ => hdeleted) hpointer hpipe rfl
    (fun _ _ _ _ => trivial) fun room => ?_
  exact hR.flush (hR.toRelatesPlain.walk hE hN (fun _ _ _ _ => hdeleted) hpointer hpipe room) hE
    fun _ _ => ⟨rfl, fun _ _ => trivial⟩

end Ndr.Marshal
