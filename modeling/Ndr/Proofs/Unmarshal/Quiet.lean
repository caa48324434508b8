import Ndr.Proofs.Packing
import Ndr.Proofs.Unmarshal.Traversal

/-!
Actions that leave the reader alone: neither do they read of the message, nor does what they do
depend on it. All steps are of this kind that do not read, so a property of what is read need only
be looked at where bytes are read.
-/

namespace Ndr

namespace Unmarshal

variable {α β : Type}

/-- An action that does nothing to the reader, and does not look at it. -/
def Quiet (x : Unmarshalling α) : Prop :=
  ∀ s : State, ∃ (a : Except Fault α) (s' : State),
    ∀ reader, x { s with reader } = Writer.ended a { s' with reader }

namespace Quiet

theorem pure (a : α) : Quiet (pure a) := fun s => ⟨.ok a, s, fun _ => rfl⟩

theorem throw (e : Fault) : Quiet (throw e : Unmarshalling α) := fun s => ⟨.error e, s, fun _ => rfl⟩

theorem lift (x : Except Fault α) : Quiet (liftM x : Unmarshalling α) :=
  fun s => ⟨x, s, fun _ => by cases x <;> rfl⟩

theorem modify {f : State → State}
    (h : ∀ (s : State) (reader : Reader), f { s with reader } = ({ f s with reader } : State)) :
    Quiet (modify f : Unmarshalling PUnit) :=
  fun s => ⟨.ok ⟨⟩, f s, fun reader => congrArg (EStateM.Result.ok _) (h s reader)⟩

theorem bind {x : Unmarshalling α} {f : α → Unmarshalling β} (hx : Quiet x)
    (hf : ∀ a, Quiet (f a)) : Quiet (x >>= f) := by
  intro s
  obtain ⟨a, s1, h1⟩ := hx s
  cases a with
  | error e => exact ⟨.error e, s1, fun reader => bind_of_error (h1 reader) f⟩
  | ok a =>
    obtain ⟨b, s2, h2⟩ := hf a s1
    exact ⟨b, s2, fun reader => (bind_of_ok (h1 reader) f).trans (h2 reader)⟩

/-- An action that depends on what it sees in the state, the reader apart. -/
theorem see {γ : Type} {g : State → γ} {f : γ → Unmarshalling α} (hf : ∀ c, Quiet (f c))
    (hg : ∀ (s : State) (reader : Reader), g { s with reader } = g s) :
    Quiet (get >>= fun s => f (g s)) := by
  intro s
  obtain ⟨a, s', h⟩ := hf (g s) s
  refine ⟨a, s', fun reader => ?_⟩
  have hget : (get : Unmarshalling State) { s with reader }
      = .ok { s with reader } { s with reader } := rfl
  rw [bind_of_ok hget, hg]
  exact h reader

theorem onPipe (h : PipeHandle) (x : EStateM Fault Pipe α) : Quiet (onPipe h x) := by
  intro s
  cases e : Pipe.under h x s.pipes with
  | ok a pipes =>
    refine ⟨.ok a, { s with pipes }, fun reader => ?_⟩
    unfold Unmarshal.onPipe onPart
    rw [show Pipe.under h x ({ s with reader } : State).pipes = _ from e]
    rfl
  | error fault pipes =>
    refine ⟨.error fault, { s with pipes }, fun reader => ?_⟩
    unfold Unmarshal.onPipe onPart
    rw [show Pipe.under h x ({ s with reader } : State).pipes = _ from e]
    rfl

end Quiet

/-! ### Steps -/

theorem quiet_adoptContext (registry : Registry) (held : Option ContextHandle) (u : Uuid) :
    Quiet (adoptContext registry held u) := by
  have hadopt : Quiet (do
      if (registry.resolve? u).isNone then
        modify fun s : State => { s with
          contexts := some (registry.adopt u).2
          adopted := (registry.adopt u).1 :: s.adopted }
      return some (registry.adopt u).1 : Unmarshalling (Option ContextHandle)) := by
    split
    · exact .bind (.modify fun _ _ => rfl) fun _ => .pure _
    · exact .pure _
  unfold adoptContext
  split
  · exact .bind (.modify fun _ _ => rfl) fun _ => .pure _
  · exact hadopt

theorem quiet_allocate : Quiet allocate :=
  .see (g := State.heap) (f := fun heap => (do
      heap.checkRoom
      let c := (← get).heap.allocations
      modify fun s : State => { s with heap := s.heap.append .void, allocated := c :: s.allocated }
      return c : Unmarshalling CellId))
    (fun _ => .bind (.lift _) fun _ => .see (g := State.heap) (f := fun heap => (do
        modify fun s : State =>
          { s with heap := s.heap.append .void, allocated := heap.allocations :: s.allocated }
        return heap.allocations : Unmarshalling CellId))
      (fun _ => .bind (.modify fun _ _ => rfl) fun _ => .pure _) fun _ _ => rfl)
    fun _ _ => rfl

theorem quiet_store (c : CellId) (v : Value) : Quiet (store c v) :=
  .see (g := fun s => s.heap.isLive c) (f := fun live => (do
      if live then modify fun s : State => { s with heap := s.heap.put c v }
      else MonadExcept.throw (Fault.invalidCell c) : Unmarshalling Unit))
    (fun live => by cases live <;> [exact .throw _; exact .modify fun _ _ => rfl]) fun _ _ => rfl

theorem quiet_register (id : Nat) (c : CellId) : Quiet (register id c) :=
  .see (g := State.nodes) (f := fun nodes => (do
      let nodes ← nodes.register id c
      modify fun s : State => { s with nodes } : Unmarshalling Unit))
    (fun _ => .bind (.lift _) fun _ => .modify fun _ _ => rfl) fun _ _ => rfl

theorem quiet_takeDeferred : Quiet takeDeferred :=
  fun s => ⟨.ok s.deferred.reverse, { s with deferred := [] }, fun _ => rfl⟩

theorem quiet_openScope (scope : Scope) : Quiet (openScope scope) :=
  fun s => ⟨.ok s.scopes.size, { s with scopes := s.scopes.push scope }, fun _ => rfl⟩

theorem quiet_scopeOf (id : ScopeId) : Quiet (scopeOf id) :=
  .see (g := fun s => s.scopes[id]?.getD #[]) (f := fun scope => return scope) (fun _ => .pure _)
    fun _ _ => rfl

theorem quiet_setField (id : ScopeId) (field : Nat) (v : Option Int) :
    Quiet (setField id field v) := by
  cases v with
  | none => exact .pure _
  | some v => exact .modify fun _ _ => rfl

theorem quiet_verifyLate (scope : ScopeId) : Quiet (verifyLate scope) := by
  have hall : ∀ (due : List LateCheck) fields,
      Quiet (due.forM fun c => c.verify fields : Unmarshalling PUnit) := by
    intro due fields
    induction due with
    | nil => exact .pure _
    | cons c due ih => exact .bind (.lift _) fun _ => ih
  exact .see (g := fun s => s.due scope) (f := fun due => (do
      modify fun s : State => { s with late := s.late.erase scope }
      let fields ← scopeOf scope
      due.reverse.forM fun c => c.verify fields : Unmarshalling PUnit))
    (fun due => .bind (.modify fun _ _ => rfl) fun _ => .bind (quiet_scopeOf _) fun _ => hall _ _)
    fun _ _ => rfl

end Unmarshal

/-! ### Steps that read -/

/-- A property that steps of a reader in turn have where each of them has it, and that the reads
have of which all others are made. -/
structure Reader.Composes (Q : {α : Type} → Fetch α → Prop) : Prop where
  lift : ∀ {α : Type} (x : Except Fault α), Q (liftM x : Fetch α)
  bind : ∀ {α β : Type} {x : Fetch α} {f : α → Fetch β}, Q x → (∀ a, Q (f a)) → Q (x >>= f)
  /-- How much was read before. -/
  seePosition : ∀ {α : Type} {f : Nat → Fetch α}, (∀ n, Q (f n)) →
    Q (get >>= fun r => f r.position)
  together : ∀ n, Q (Reader.getTogether n)
  run : ∀ n, Q (Reader.getRun n)

namespace Reader.Composes

variable {Q : {α : Type} → Fetch α → Prop} (hQ : Reader.Composes Q)

include hQ

theorem pure {α : Type} (a : α) : Q (pure a : Fetch α) := hQ.lift (.ok a)

theorem align (alignment : Nat) : Q (Reader.align alignment) :=
  hQ.seePosition (f := fun position => do
    if padding position alignment ≠ 0 then
      let _ ← Reader.getTogether (padding position alignment)) fun position => by
    split
    · exact hQ.bind (hQ.together _) fun _ => hQ.pure _
    · exact hQ.pure _

theorem word (order : ByteOrder) (width : Nat) : Q (Reader.getWord order width) :=
  hQ.bind (hQ.together _) fun _ => hQ.pure _

theorem aligned (order : ByteOrder) (width : Nat) : Q (Reader.getAligned order width) :=
  hQ.bind (hQ.align _) fun _ => hQ.word _ _

theorem scalar (r : Representation) (kind : Scalar) : Q (Reader.getScalar r kind) :=
  hQ.bind (hQ.align _) fun _ => hQ.bind (hQ.lift _) fun _ => hQ.bind (hQ.word _ _) fun _ =>
    hQ.bind (hQ.lift _) fun _ => hQ.pure _

theorem token (order : ByteOrder) : Q (Unmarshal.getToken order) :=
  hQ.bind (hQ.aligned _ _) fun _ => hQ.bind (hQ.aligned _ _) fun _ =>
    hQ.bind (hQ.word _ _) fun _ => hQ.bind (hQ.word _ _) fun _ =>
      hQ.bind (hQ.run _) fun _ => hQ.pure _

end Reader.Composes

namespace Reader

/-! #### What reading keeps -/

variable {I : Reader → Prop} (ensure : ∀ n, Keeps I (fun _ => True) (Reader.ensure n))
  (pass : ∀ r n position, I r → I { r with current := r.current.drop n, position })

include ensure pass

theorem keeps_getRunFrom (fuel n : Nat) (before : List (List UInt8)) :
    Keeps I (fun _ => True) (getRunFrom fuel n before) := by
  induction fuel generalizing n before with
  | zero => cases n <;> exact .pure trivial
  | succ fuel ih =>
    cases n with
    | zero => exact .pure trivial
    | succ n =>
      have hrest : Keeps I (fun _ => True) (do
          let bytes ← modifyGet fun r : Reader =>
            let bytes := r.current.take (n + 1)
            (bytes, { r with
              current := r.current.drop (n + 1)
              position := r.position + bytes.length })
          getRunFrom fuel (n + 1 - bytes.length) (bytes :: before) : Fetch _) :=
        Keeps.bind (P := fun _ => True) (Keeps.modifyGet fun t ht => ⟨pass t _ _ ht, trivial⟩)
          fun _ _ => ih _ _
      refine Keeps.get.bind fun t _ => .ite ?_ hrest
      exact (ensure 1).bind fun _ _ => hrest

/-- A property of readers is kept where chunks come in and where bytes are passed, and so wherever
something is read. -/
theorem composes_keeps : Reader.Composes (Keeps I fun _ => True) where
  lift x := (Keeps.lift x).weaken
  bind hx hf := hx.bind fun a _ => hf a
  seePosition hf := Keeps.get.bind fun r _ => hf r.position
  together n := (ensure n).bind fun _ _ => Keeps.modifyGet fun t ht => ⟨pass t n _ ht, trivial⟩
  run n := keeps_getRunFrom ensure pass n n []

end Reader

namespace Unmarshal

/-- A property of actions that quiet ones have, and whatever reads with a property `Q`. What is
looked up in the state, the reader apart, may decide which action follows. -/
structure Lifts (Q : {α : Type} → Fetch α → Prop) (P : {α : Type} → Unmarshalling α → Prop) :
    Prop extends Reader.Composes Q where
  quiet : ∀ {α : Type} {x : Unmarshalling α}, Quiet x → P x
  fetch : ∀ {α : Type} {x : Fetch α}, Q x → P (fetch x)
  after : ∀ {α β : Type} {x : Unmarshalling α} {f : α → Unmarshalling β}, P x → (∀ a, P (f a)) →
    P (x >>= f)
  see : ∀ {α γ : Type} {g : State → γ} {f : γ → Unmarshalling α}, (∀ c, P (f c)) →
    (∀ (s : State) (reader : Reader), g { s with reader } = g s) → P (get >>= fun s => f (g s))

namespace Lifts

variable {Q : {α : Type} → Fetch α → Prop} {P : {α : Type} → Unmarshalling α → Prop}
  (hP : Lifts Q P) (env : Env)

include hP

theorem context (direction : ContextDirection) (current : Value) :
    P (getContext env direction current) := by
  rw [getContext_eq]
  refine hP.see (g := State.contexts) (fun contexts => ?_) fun _ _ => rfl
  cases contexts with
  | none => exact hP.quiet (.throw _)
  | some registry =>
    refine hP.after (hP.fetch (hP.token _)) fun u => hP.quiet ?_
    cases env.side with
    | server => exact .bind (.lift _) fun _ => .pure _
    | client => exact .bind (quiet_adoptContext _ _ _) fun _ => .pure _

/-- The steps of reading have the property. -/
theorem relates : RelatesSteps env (fun _ => True) (fun _ => True) fun x _ => P x where
  pure a := hP.quiet (.pure a)
  throw e := hP.quiet (.throw e)
  bind := hP.after
  align n := hP.fetch (hP.align n)
  count := hP.fetch (hP.aligned _ _)
  shortCount := hP.fetch (hP.aligned _ _)
  scalar kind := hP.fetch (hP.scalar _ kind)
  run n := hP.fetch (hP.run n)
  context := hP.context env
  onPipe h _ x := hP.quiet (.onPipe h x)
  call _ := hP.quiet (.modify fun _ _ => rfl)
  allocate h := hP.after (hP.quiet quiet_allocate) fun c => h c trivial
  store _ _ := hP.quiet (quiet_store _ _)
  register _ _ := hP.quiet (quiet_register _ _)
  sight _ := hP.quiet (.modify fun _ _ => rfl)
  defer _ _ := hP.quiet (.modify fun _ _ => rfl)
  takeDeferred h := hP.after (hP.quiet quiet_takeDeferred) fun ds =>
    h ds fun _ _ => ⟨trivial, trivial⟩
  openScope scope := hP.quiet (quiet_openScope scope)
  setField _ _ _ := hP.quiet (quiet_setField _ _ _)
  scopeOf id := hP.quiet (quiet_scopeOf id)
  keepLate _ _ := hP.quiet (.modify fun _ _ => rfl)
  verifyLate scope := hP.quiet (quiet_verifyLate scope)
  seeNodes h := hP.see h fun _ _ => rfl
  seeHeap h := hP.see h fun _ _ => rfl
  seeCalls h := hP.see h fun _ _ => rfl

theorem getDeleted : P (getDeleted env) :=
  (hP.relates env).getDeleted fun _ => hP.quiet (.modify fun _ _ => rfl)

/-- Every walk has the property. -/
theorem walk (room : Nat) (d : Descriptor) (site : Site ScopeId) : P (walk env room d site) :=
  (hP.relates env).walk (N := fun _ => True) (.refl env _) (TypeVector.closed_true _)
    (fun _ _ => hP.getDeleted env)
    (fun hw _ _ _ _ _ _ =>
      (hP.relates env).getPointer hw (.refl env) trivial rfl (fun _ _ => trivial) _)
    room d trivial site

/-- A whole operation has the property, where loops have it that go on to the end of the message. -/
theorem getParameters (hpieces : ∀ room h e site, P (getAllPieces env (Unmarshal.walk env room) h e site))
    (hflush : ∀ room, P (flush env (Unmarshal.walk env room))) (offset : Nat) (params : List Value) :
    P (getParameters env offset params) :=
  (hP.relates env).getParameters (N := fun _ => True) (.refl env _)
    (TypeVector.closed_true _) (fun _ _ => hP.getDeleted env)
    (fun hw _ _ _ _ _ _ =>
      (hP.relates env).getPointer hw (.refl env) trivial rfl (fun _ _ => trivial) _)
    rfl (fun _ _ _ _ => trivial) (fun room h e site _ => hpieces room h e site) hflush

end Lifts

/-- What is kept wherever something is read is kept by every action. -/
theorem lifts_keeps {I : Reader → Prop} (h : Reader.Composes (Keeps I fun _ => True)) :
    Lifts (Keeps I fun _ => True) (Keeps (fun s : State => I s.reader) fun _ => True) where
  toComposes := h
  quiet {_ x} hx := by
    intro s hs
    obtain ⟨a, t, ht⟩ := hx s
    rw [show x s = _ from ht s.reader]
    cases a with
    | ok a => exact ⟨hs, trivial⟩
    | error e => exact hs
  fetch {_ x} hx := by
    intro s hs
    have hends := hx s.reader hs
    unfold Unmarshal.fetch onPart
    generalize x s.reader = result at hends
    cases result with
    | ok a r => exact ⟨hends.1, trivial⟩
    | error e r => exact hends
  after hx hf := hx.bind fun a _ => hf a
  see hf _ := Keeps.get.bind fun s _ => hf _

end Unmarshal

end Ndr
