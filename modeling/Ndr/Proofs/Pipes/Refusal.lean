import Ndr.Proofs.Pipes.Receiving
import Ndr.Proofs.Pipes.Sending

/-!
Pipes that refuse. An operation that comes to a pipe that is over, or that goes the other way, fails
there; one that does not fail so goes the same way whatever pipe is under the handle, so it never came
to it. Two runs are compared, one with the pipe and one with any other in its place.
-/

namespace Ndr

/-! ### Writing -/

namespace Marshal

variable {env : Env} {h : PipeHandle} {p q : Pipe} {s t : State} {α : Type}

/-- The same state but for the pipe under `h`, which is `p` in the first. -/
def Swapped (h : PipeHandle) (p q : Pipe) (s t : State) : Prop :=
  s.pipes[h]? = some p ∧ t = s.setPipe h q

/-- The first run failed because the pipe under `h` refused it. -/
def Refused (h : PipeHandle) (p : Pipe) (e : Fault) (s _ : State) : Prop :=
  e.IsRefusal ∧ s.pipes[h]? = some p

/-- An action that does not come to the pipe under `h`, or is refused by it. -/
abbrev Shuns (h : PipeHandle) (p q : Pipe) (x : Marshalling α) : Prop :=
  Shadowing (Swapped h p q) (Refused h p) x

theorem refused_keeps (x : Marshalling α) (e : Fault) (s : State) :
    Keeps (Refused h p e s) (fun _ => True) x := by
  intro t ht
  cases x t with
  | ok a u => exact ⟨ht, trivial⟩
  | error f u => exact ht

theorem shuns_modify {f : State → State} (hpipes : ∀ s, (f s).pipes = s.pipes)
    (hblind : ∀ s, f (s.setPipe h q) = (f s).setPipe h q) :
    Shuns h p q (modify f : Marshalling PUnit) :=
  .modify (fun s _ ⟨hp, ht⟩ => ⟨hpipes s ▸ hp, ht ▸ hblind s⟩) fun _ _ _ hs => hs

theorem shuns_see {f : State → Marshalling α} (hblind : ∀ s, f (s.setPipe h q) = f s)
    (hf : ∀ s, Shuns h p q (f s)) : Shuns h p q (get >>= f) :=
  .see (fun s _ ⟨_, ht⟩ => ht ▸ hblind s) hf

/-- An action that neither looks at pipes nor changes them. -/
theorem shuns_of_blind {x : Marshalling α} (hx : Pipeless x)
    (hblind : Blind (State.setPipe · h q) x) : Shuns h p q x := by
  refine ⟨?_, refused_keeps x⟩
  rintro s _ ⟨hp, rfl⟩
  have hlands := lands_of_pipeless hx s
  rw [show x (s.setPipe h q) = _ from hblind s]
  cases e : x s with
  | ok a t => rw [e] at hlands; exact .inl (.ok ⟨hlands.pipes ▸ hp, rfl⟩)
  | error f t => rw [e] at hlands; exact .inl (.error ⟨hlands.pipes ▸ hp, rfl⟩)

theorem shuns_put {x : Put α} (hx : Writer.Produces x) : Shuns h p q (put x) := by
  refine shuns_of_blind (pipeless_put hx) (Blind.onPart ?_ ?_ x)
  · exact fun _ => rfl
  · exact fun _ _ => rfl

theorem shuns_onPipe_ne {h' : PipeHandle} (hne : h' ≠ h) (x : EStateM Fault Pipe α) :
    Shuns h p q (onPipe h' x) := by
  refine ⟨?_, refused_keeps _⟩
  rintro s _ ⟨hp, rfl⟩
  have hends := ends_onPipe_ne hne x s
  have hblind : onPipe h' x (s.setPipe h q) = withLast (State.setPipe · h q) (onPipe h' x s) := by
    unfold onPipe onPart Pipe.under
    rw [getElem?_setPipe_ne hne.symm]
    cases s.pipes[h']? with
    | none => rfl
    | some r =>
      dsimp only
      unfold onPart
      cases x r with
      | ok a r => simp [withLast, State.setPipe, Array.setIfInBounds_comm _ _ hne]
      | error e r => simp [withLast, State.setPipe, Array.setIfInBounds_comm _ _ hne]
  rw [hblind]
  cases e : onPipe h' x s with
  | ok a t => rw [e] at hends; exact .inl (.ok ⟨hends.1.2.trans hp, rfl⟩)
  | error f t => rw [e] at hends; exact .inl (.error ⟨hends.2.trans hp, rfl⟩)

theorem relates_shuns (env : Env) (h : PipeHandle) (p q : Pipe) :
    RelatesPointers env env (fun _ => True) fun x _ => Shuns h p q x where
  pure := .pure
  throw := .throw
  bind := .bind
  align n := shuns_put (Writer.produces_align n)
  count _ := shuns_put (Writer.produces_putAligned _ _ _)
  shortCount _ := shuns_put (Writer.produces_putAligned _ _ _)
  scalar kind v := shuns_put (Writer.produces_putScalar _ kind v)
  run bytes := shuns_put (Writer.produces_putRun bytes)
  token u := by
    have hcount := fun n => shuns_put (h := h) (p := p) (q := q)
      (Writer.produces_putAligned env.order 4 n)
    have hword := fun n => shuns_put (h := h) (p := p) (q := q)
      (Writer.produces_putTogether (env.order.encode 2 n))
    exact (hcount _).bind fun _ => (hcount _).bind fun _ => (hword _).bind fun _ =>
      (hword _).bind fun _ => shuns_put (Writer.produces_putRun _)
  call _ := shuns_modify (fun _ => rfl) fun _ => rfl
  recorded _ hx := hx.tryFinally_modify (fun _ _ ⟨hp, ht⟩ => ⟨hp, by rw [ht]; rfl⟩)
    (fun _ _ _ hs => hs) fun _ _ _ hs => hs
  seeCalls hf := shuns_see (fun _ => rfl) fun s => hf s.calls
  sight c := shuns_see (fun _ => rfl) fun s => .bind (.lift _) fun found =>
    .bind (shuns_modify (fun _ => rfl) fun _ => rfl) fun _ => .pure _
  defer _ := shuns_modify (fun _ => rfl) fun _ => rfl
  takeDeferred hf := .bind (shuns_of_blind pipeless_takeDeferred fun _ => rfl)
    fun ds => hf ds fun _ _ => trivial

/-- A pipe refuses the operation when it comes to it. -/
theorem shuns_putStream (hp : p.Blocked .send) (walk : Walk) (element : Descriptor)
    (site : Site Scope) : Shuns h p q (putStream env walk h element site) := by
  refine ⟨?_, refused_keeps _⟩
  rintro s _ ⟨hs, rfl⟩
  have hlands := lands_onPipe hs (Pipe.lands_enter .send p)
  unfold putStream
  cases henter : onPipe h (Pipe.enter .send) s with
  | ok a t =>
    rw [henter] at hlands
    obtain ⟨_, ⟨hblocked, -⟩, -⟩ := hlands
    exact absurd hp hblocked
  | error e t =>
    rw [henter] at hlands
    obtain ⟨r, ⟨-, hrefusal, hr⟩, rfl⟩ := hlands
    have hrefused : Refused h p e (s.setPipe h r) (s.setPipe h q) :=
      ⟨hrefusal, hr ▸ getElem?_setPipe hs⟩
    exact .inr ⟨e, _, bind_of_error henter _, refused_keeps _ _ _ _ hrefused⟩

/-- **A pipe that refuses**: an operation is refused by it, or never comes to it. -/
theorem shuns_putParameters (env : Env) (h : PipeHandle) (q : Pipe) (hp : p.Blocked .send)
    (offset : Nat) (params : List Value) : Shuns h p q (putParameters env offset params) := by
  have hR := relates_shuns env h p q
  refine operation_of_streams hR (fun room hw k d site => ?_) offset params
  by_cases hk : k = h
  · exact hk ▸ shuns_putStream hp _ d site.inside
  · have honPipe : ∀ {α : Type} (x : EStateM Fault Pipe α), Shuns h p q (onPipe k x) :=
      shuns_onPipe_ne hk
    exact (honPipe _).bind fun _ => (honPipe _).bind fun pending =>
      hR.toRelatesPlain.putPieces (relatesWalks hw) (.refl env) trivial honPipe _

end Marshal

/-! ### Reading -/

namespace Unmarshal

variable {env : Env} {h : PipeHandle} {p q : Pipe} {s t : State} {α : Type}

/-- The same state but for the pipe under `h`, which is `p` in the first. -/
def Swapped (h : PipeHandle) (p q : Pipe) (s t : State) : Prop :=
  s.pipes[h]? = some p ∧ t = s.setPipe h q

/-- The first run failed because the pipe under `h` refused it. -/
def Refused (h : PipeHandle) (p : Pipe) (e : Fault) (s _ : State) : Prop :=
  e.IsRefusal ∧ s.pipes[h]? = some p

/-- An action that does not come to the pipe under `h`, or is refused by it. -/
abbrev Shuns (h : PipeHandle) (p q : Pipe) (x : Unmarshalling α) : Prop :=
  Shadowing (Swapped h p q) (Refused h p) x

theorem refused_keeps (x : Unmarshalling α) (e : Fault) (s : State) :
    Keeps (Refused h p e s) (fun _ => True) x := by
  intro t ht
  cases x t with
  | ok a u => exact ⟨ht, trivial⟩
  | error f u => exact ht

theorem shuns_modify {f : State → State} (hpipes : ∀ s, (f s).pipes = s.pipes)
    (hblind : ∀ s, f (s.setPipe h q) = (f s).setPipe h q) :
    Shuns h p q (modify f : Unmarshalling PUnit) :=
  .modify (fun s _ ⟨hp, ht⟩ => ⟨hpipes s ▸ hp, ht ▸ hblind s⟩) fun _ _ _ hs => hs

theorem shuns_see {f : State → Unmarshalling α} (hblind : ∀ s, f (s.setPipe h q) = f s)
    (hf : ∀ s, Shuns h p q (f s)) : Shuns h p q (get >>= f) :=
  .see (fun s _ ⟨_, ht⟩ => ht ▸ hblind s) hf

/-- An action that neither looks at pipes nor changes them. -/
theorem shuns_of_blind {x : Unmarshalling α} (hx : Pipeless x)
    (hblind : Blind (State.setPipe · h q) x) : Shuns h p q x := by
  refine ⟨?_, refused_keeps x⟩
  rintro s _ ⟨hp, rfl⟩
  have hlands := lands_of_pipeless hx s
  rw [show x (s.setPipe h q) = _ from hblind s]
  cases e : x s with
  | ok a t => rw [e] at hlands; exact .inl (.ok ⟨hlands.pipes ▸ hp, rfl⟩)
  | error f t => rw [e] at hlands; exact .inl (.error ⟨hlands.pipes ▸ hp, rfl⟩)

theorem shuns_fetch {x : Fetch α} (hx : Reader.Advances x) : Shuns h p q (fetch x) := by
  refine shuns_of_blind (pipeless_fetch hx) (Blind.onPart ?_ ?_ x)
  · exact fun _ => rfl
  · exact fun _ _ => rfl

theorem shuns_onPipe_ne {h' : PipeHandle} (hne : h' ≠ h) (x : EStateM Fault Pipe α) :
    Shuns h p q (onPipe h' x) := by
  refine ⟨?_, refused_keeps _⟩
  rintro s _ ⟨hp, rfl⟩
  have hends := ends_onPipe_ne hne x s
  have hblind : onPipe h' x (s.setPipe h q) = withLast (State.setPipe · h q) (onPipe h' x s) := by
    unfold onPipe onPart Pipe.under
    rw [getElem?_setPipe_ne hne.symm]
    cases s.pipes[h']? with
    | none => rfl
    | some r =>
      dsimp only
      unfold onPart
      cases x r with
      | ok a r => simp [withLast, State.setPipe, Array.setIfInBounds_comm _ _ hne]
      | error e r => simp [withLast, State.setPipe, Array.setIfInBounds_comm _ _ hne]
  rw [hblind]
  cases e : onPipe h' x s with
  | ok a t => rw [e] at hends; exact .inl (.ok ⟨hends.1.2.trans hp, rfl⟩)
  | error f t => rw [e] at hends; exact .inl (.error ⟨hends.2.trans hp, rfl⟩)

theorem shuns_getContext (env : Env) (direction : ContextDirection) (current : Value) :
    Shuns h p q (getContext env direction current) := by
  have hadopt : ∀ (registry : Registry) held u,
      Shuns h p q (adoptContext registry held u) := by
    intro registry held u
    unfold adoptContext
    refine .ite (.bind (shuns_modify (fun _ => rfl) fun _ => rfl) fun _ => .pure _)
      (.ite ?_ (.pure _))
    exact .bind (shuns_modify (fun _ => rfl) fun _ => rfl) fun _ => .pure _
  rw [getContext_eq]
  refine shuns_see (fun _ => rfl) fun s => ?_
  cases s.contexts with
  | none => exact .throw _
  | some registry =>
    refine .bind (shuns_fetch (advances_getToken env.order)) fun u => ?_
    cases env.side with
    | server => exact .bind (.lift _) fun _ => .pure _
    | client => exact .bind (hadopt _ _ _) fun _ => .pure _

theorem shuns_scopeOf (id : ScopeId) : Shuns h p q (scopeOf id) :=
  shuns_see (fun _ => rfl) fun _ => .pure _

theorem relates_shuns (env : Env) (h : PipeHandle) (p q : Pipe) :
    RelatesPointers env (fun _ => True) (fun _ => True) fun x _ => Shuns h p q x where
  pure := .pure
  throw := .throw
  bind := .bind
  align n := shuns_fetch (Reader.advances_align n)
  count := shuns_fetch (Reader.advances_getAligned _ _)
  shortCount := shuns_fetch (Reader.advances_getAligned _ _)
  scalar kind := shuns_fetch (Reader.advances_getScalar _ kind)
  run n := shuns_fetch (Reader.advances_getRun n)
  context := shuns_getContext env
  call _ := shuns_modify (fun _ => rfl) fun _ => rfl
  openScope scope := shuns_of_blind ((relates_pipeless env).openScope scope) fun _ => rfl
  setField id field v := by
    cases v with
    | none => exact .pure _
    | some v => exact shuns_modify (fun _ => rfl) fun _ => rfl
  scopeOf := shuns_scopeOf
  keepLate _ _ := shuns_modify (fun _ => rfl) fun _ => rfl
  verifyLate scope := shuns_see (fun _ => rfl) fun s =>
    .bind (shuns_modify (fun _ => rfl) fun _ => rfl) fun _ =>
      .bind (shuns_scopeOf scope) fun _ => .forM (fun _ => .lift _) _
  seeHeap hf := shuns_see (fun _ => rfl) fun s => hf s.heap
  seeCalls hf := shuns_see (fun _ => rfl) fun s => hf s.calls
  store _ _ := shuns_see (fun _ => rfl) fun _ =>
    .ite (shuns_modify (fun _ => rfl) fun _ => rfl) (.throw _)
  takeDeferred hf := .bind (shuns_of_blind pipeless_takeDeferred fun _ => rfl)
    fun ds => hf ds fun _ _ => ⟨trivial, trivial⟩
  allocate hf := .bind (shuns_see (fun _ => rfl) fun _ => .bind (.lift _) fun _ =>
    shuns_see (fun _ => rfl) fun _ => .bind (shuns_modify (fun _ => rfl) fun _ => rfl)
      fun _ => .pure _) fun c => hf c trivial
  register id c := shuns_see (fun _ => rfl) fun s => .bind (.lift _) fun _ =>
    shuns_modify (fun _ => rfl) fun _ => rfl
  sight _ := shuns_modify (fun _ => rfl) fun _ => rfl
  defer _ _ := shuns_modify (fun _ => rfl) fun _ => rfl
  seeNodes hf := shuns_see (fun _ => rfl) fun s => hf s.nodes

theorem shuns_getDeleted (env : Env) : Shuns h p q (getDeleted env) :=
  (relates_shuns env h p q).getDeleted fun _ => shuns_modify (fun _ => rfl) fun _ => rfl

/-- A pipe refuses the operation when it comes to it. -/
theorem shuns_getStream (hp : p.Blocked .receive) (walk : Walk) (element : Descriptor)
    (site : Site ScopeId) : Shuns h p q (getStream env walk h element site) := by
  refine ⟨?_, refused_keeps _⟩
  rintro s _ ⟨hs, rfl⟩
  have hlands := lands_onPipe hs (Pipe.lands_enter .receive p)
  unfold getStream
  cases henter : onPipe h (Pipe.enter .receive) s with
  | ok a t =>
    rw [henter] at hlands
    obtain ⟨_, ⟨hblocked, -⟩, -⟩ := hlands
    exact absurd hp hblocked
  | error e t =>
    rw [henter] at hlands
    obtain ⟨r, ⟨-, hrefusal, hr⟩, rfl⟩ := hlands
    have hrefused : Refused h p e (s.setPipe h r) (s.setPipe h q) :=
      ⟨hrefusal, hr ▸ getElem?_setPipe hs⟩
    exact .inr ⟨e, _, bind_of_error henter _, refused_keeps _ _ _ _ hrefused⟩

/-- **A pipe that refuses**: an operation is refused by it, or never comes to it. -/
theorem shuns_getParameters (env : Env) (h : PipeHandle) (q : Pipe) (hp : p.Blocked .receive)
    (offset : Nat) (params : List Value) : Shuns h p q (getParameters env offset params) := by
  have hR := relates_shuns env h p q
  have hrest : ∀ {α : Type} {f : Nat → Unmarshalling α}, (∀ n, Shuns h p q (f n)) →
      Shuns h p q (get >>= fun s => f s.reader.rest.length) :=
    fun hf => shuns_see (fun _ => rfl) fun s => hf s.reader.rest.length
  refine operation_of_streams hR (shuns_getDeleted env) hrest (fun room hw k d site => ?_)
    offset params
  by_cases hk : k = h
  · exact hk ▸ shuns_getStream hp _ d site.inside
  · have honPipe : ∀ {α : Type} (x : EStateM Fault Pipe α), Shuns h p q (onPipe k x) :=
      shuns_onPipe_ne hk
    have hpieces : Shuns h p q (getAllPieces env (Unmarshal.walk env room) k d site.inside) :=
      hrest (f := fun n => getPieces env _ k d site.inside (n + 1)) fun _ =>
        hR.toRelatesPlain.getPieces (relatesWalks hw) (.refl env) honPipe trivial site.inside _
    exact (honPipe _).bind fun _ => hpieces.bind fun _ => hR.pure _

end Unmarshal

end Ndr
