import Ndr.Proofs.Context
import Ndr.Proofs.Stream

/-!
Parameter lists of pipes and records. Each pipe of the list delivers to its partner what was handed
over to it, each record is read as it was written, and neither looks at the pipes of the others.
-/

namespace Ndr

/-! ### Pipes that were never used -/

namespace Pipe

/-- A pipe that nothing went through yet. -/
structure Unused (p : Pipe) : Prop where
  direction : p.direction = none
  finished : p.finished = false
  transferred : p.transferred = 0
  events : p.events = []

/-- A pipe with a direction. -/
def toward (p : Pipe) (direction : Direction) : Pipe := { p with direction := some direction }

variable {p : Pipe} {direction : Direction}

theorem Unused.carried (h : p.Unused) : (p.toward direction).Carried direction false 0 :=
  ⟨rfl, h.finished, h.transferred⟩

theorem Unused.pulled (h : p.Unused) : (p.toward direction).pulled = [] := by
  show p.events.reverse.filterMap _ = []
  rw [h.events]
  rfl

theorem Unused.pushed (h : p.Unused) : (p.toward direction).pushed = [] := by
  show p.events.reverse.filterMap _ = []
  rw [h.events]
  rfl

theorem Unused.granted (h : p.Unused) : (p.toward direction).granted = [] := by
  show p.events.reverse.filterMap _ = []
  rw [h.events]
  rfl

theorem Unused.sending (h : p.Unused) : (p.toward .send).Sending where
  full := by simp [h.pulled]
  carried := by
    rw [h.pulled]
    exact h.carried

theorem Unused.receiving (h : p.Unused)
    (haccepts : ∀ history piece, p.application.accept history piece = .ok ()) :
    (p.toward .receive).Receiving where
  fits := by
    rw [h.pushed, h.granted]
    exact .nil
  carried := by
    rw [h.pushed]
    exact h.carried
  accepts := haccepts

/-- Two pipes that are ready for a stream: neither was used, and the application of the second takes
every piece. -/
structure Meet (p q : Pipe) : Prop where
  sender : p.Unused
  receiver : q.Unused
  accepts : ∀ history piece, q.application.accept history piece = .ok ()

/-! ### Other pipes -/

/-- Pipes are as they were, but for those of `own`. -/
def Stay (own : PipeHandle → Prop) (ps qs : Array Pipe) : Prop := ∀ h, ¬own h → qs[h]? = ps[h]?

theorem Stay.trans {own : PipeHandle → Prop} {ps qs rs : Array Pipe} (h : Stay own ps qs)
    (h' : Stay own qs rs) : Stay own ps rs := fun k hk => (h' k hk).trans (h k hk)

theorem Stay.mono {own own' : PipeHandle → Prop} {ps qs : Array Pipe} (h : Stay own ps qs)
    (ho : ∀ k, own k → own' k) : Stay own' ps qs := fun k hk => h k fun hown => hk (ho k hown)

theorem Stay.some {own : PipeHandle → Prop} {ps qs : Array Pipe} (h : Stay own ps qs) {k : PipeHandle}
    (hk : ¬own k) {p : Pipe} (hp : ps[k]? = some p) : qs[k]? = some p := (h k hk).trans hp

theorem keeps_under {α : Type} {own : PipeHandle → Prop} {h : PipeHandle} (hown : own h)
    (x : EStateM Fault Pipe α) (ps : Array Pipe) : Keeps (Stay own ps) (fun _ => True) (under h x) := by
  intro qs hqs
  have hset : ∀ p, Stay own ps (qs.setIfInBounds h p) := fun p k hk => by
    rw [Array.getElem?_setIfInBounds_ne (fun hkh : h = k => hk (hkh ▸ hown)), hqs k hk]
  unfold under
  cases qs[h]? with
  | none => exact hqs
  | some p =>
    show Ends _ _ (onPart _ _ x qs)
    unfold onPart
    cases x p with
    | ok a p => exact ⟨hset p, trivial⟩
    | error e p => exact hset p

end Pipe

/-- The pipes that two sides hold at `k` are as `R` says. -/
def PipesAt (R : Pipe → Pipe → Prop) (params params' : List Value) (ps qs : Array Pipe) (k : Nat) :
    Prop :=
  ∃ h h' p q, params[k]? = some (.pipe h) ∧ params'[k]? = some (.pipe h') ∧ ps[h]? = some p ∧
    qs[h']? = some q ∧ R p q

/-- No pipe is passed twice. -/
def HeldOnce (params : List Value) : Prop :=
  ∀ (j k : Nat) (h : PipeHandle), params[j]? = some (Value.pipe h) → params[k]? = some (Value.pipe h) →
    j = k

/-- A type of pipes. -/
def Descriptor.IsPipe (d : Descriptor) : Prop := ∃ props element, d.form = .pipe props element

/-- What is conveyed to a parameter: a pipe keeps the end that it holds, and all else takes the value
that was written for it. -/
structure Conveyed (params params' : List Value) (p : Parameter) (w : Value) : Prop where
  pipe : p.descriptor.IsPipe → params'[p.index]? = some w
  value : ¬p.descriptor.IsPipe → params[p.index]? = some w

/-- The types that a parameter list conveys: records, and pipes of them. -/
inductive Interface.Conveys (i : Interface) (D : Descriptor → Prop) (d : Descriptor) : Prop where
  | pipe {props : UInt8} {n : Nat} {element : Descriptor} (form : d.form = .pipe props n)
      (stream : i.vector.stream n = .ok element) (record : D element) (field : element.isField)
  | record (record : D d) (field : d.isField)

theorem Interface.OfRecords.not_isPipe {i : Interface} {D : Descriptor → Prop} (hD : i.OfRecords D)
    {d : Descriptor} (hd : D d) : ¬d.IsPipe := by
  rintro ⟨props, n, hform⟩
  have hrecord := hD.record hd
  unfold Descriptor.IsRecord at hrecord
  rw [hform] at hrecord
  exact hrecord

theorem Descriptor.IsRecord.not_context {i : Interface} {d : Descriptor} (h : d.IsRecord i)
    (direction : ContextDirection) : d.form ≠ .context direction := by
  intro hform
  unfold IsRecord at h
  rw [hform] at h
  exact h

/-! ### Writing -/

namespace Marshal

variable {env : Env} {D : Descriptor → Prop} {walk : Walk} {site : Site Scope} {h : PipeHandle}
  {s t : State} {own : PipeHandle → Prop} {u : Unit}

/-- What was written with no node met, nothing put off, and no pipe used but those of `own`. -/
structure Beside (own : PipeHandle → Prop) (s t : State) : Prop where
  nodes : t.nodes = s.nodes
  deferred : t.deferred = s.deferred
  pipes : Pipe.Stay own s.pipes t.pipes

theorem Beside.of_eq (h : t.aside = s.aside) : Beside own s t :=
  ⟨congrArg (·.1) h, congrArg (·.2.1) h, fun k _ => congrArg (fun a => a.2.2[k]?) h⟩

theorem Beside.trans {r : State} (h : Beside own r s) (h' : Beside own s t) : Beside own r t :=
  ⟨h'.nodes.trans h.nodes, h'.deferred.trans h.deferred, h.pipes.trans h'.pipes⟩

/-- An action that uses no pipe but those of `own`. -/
abbrev Uses {α : Type} (own : PipeHandle → Prop) (x : Marshalling α) : Prop :=
  ∀ r, Keeps (Beside own r) (fun _ => True) x

theorem Spares.uses {α : Type} {x : Marshalling α} (hx : Spares x) : Uses own x := by
  intro r s hs
  have hends := hx s.aside s rfl
  cases e : x s with
  | ok a t =>
    rw [e] at hends
    exact ⟨hs.trans (.of_eq hends.1), trivial⟩
  | error f t =>
    rw [e] at hends
    exact hs.trans (.of_eq hends)

theorem uses_onPipe {α : Type} (hown : own h) (x : EStateM Fault Pipe α) : Uses own (onPipe h x) := by
  intro r s hs
  have hends := Pipe.keeps_under hown x r.pipes s.pipes hs.pipes
  unfold onPipe onPart
  cases e : Pipe.under h x s.pipes with
  | ok a ps =>
    rw [e] at hends
    exact ⟨⟨hs.nodes, hs.deferred, hends.1⟩, trivial⟩
  | error f ps =>
    rw [e] at hends
    exact ⟨hs.nodes, hs.deferred, hends⟩

/-- The pieces of a pipe are taken from it alone. -/
theorem uses_putPieces (hown : own h) {element : Descriptor}
    (hspares : ∀ v, Spares (walk element v site)) (fuel : Nat) :
    Uses own (putPieces env walk h element site fuel) := by
  induction fuel with
  | zero => exact fun _ => .pure trivial
  | succ fuel ih =>
    intro r
    unfold putPieces
    refine (uses_onPipe hown _ r).bind fun _ _ => (uses_onPipe hown _ r).bind fun piece _ => ?_
    refine .check ((Spares.uses (spares_put _) r).bind fun _ _ => ?_)
    refine (Keeps.forM (P := fun _ => True) (fun v _ => (hspares v).uses r)
      fun _ _ => trivial).bind fun _ _ => (uses_onPipe hown _ r).bind fun _ _ => ?_
    exact .ite (uses_onPipe hown _ r) (ih r)

/-- The release of a host's value leaves no trace in the message. -/
theorem walk_eq_ok {room : Nat} {d : Descriptor} {v : Value}
    (e : Marshal.walk env room d v site s = .ok u t) :
    ∃ below s', room = below + 1 ∧ putForm env (Marshal.walk env below) d v site s = .ok () s' ∧
      t = { s' with calls := t.calls } := by
  cases room with
  | zero => exact absurd e throw_ne_ok
  | succ below =>
    obtain ⟨_, s', h1, h2⟩ := bind_eq_ok.1 e
    refine ⟨below, s', rfl, h1, ?_⟩
    cases hroutine : d.modifiers.freeRep with
    | some routine =>
      simp only [hroutine] at h2
      obtain ⟨_, s1, h3, h4⟩ := bind_eq_ok.1 h2
      obtain ⟨-, rfl⟩ := lift_eq_ok.1 h3
      obtain rfl := modify_eq_ok.1 h4
      rfl
    | none =>
      simp only [hroutine] at h2
      obtain ⟨-, rfl⟩ := pure_eq_ok.1 h2
      rfl

/-- A pipe as it is written: all its pieces, from its start on. -/
structure Piped (env : Env) (room n : Nat) (v : Value) (site : Site Scope) (s t : State)
    (h : PipeHandle) (p p' : Pipe) (element : Descriptor) : Prop where
  value : v = .pipe h
  held : s.pipes[h]? = some p
  enter : Pipe.enter .send p = .ok () p'
  stream : env.vector.stream n = .ok element
  piped : element.checkPiped = .ok ()
  pieces : putPieces env (Marshal.walk env room) h element site.inside (p'.pending.length + 1)
    (s.setPipe h p') = .ok () t

theorem putPipe_eq_ok {room n : Nat} {v : Value}
    (e : putPipe env (Marshal.walk env room) n v site s = .ok u t) :
    ∃ h p p' element, Piped env room n v site s t h p p' element := by
  unfold putPipe at e
  split at e
  · obtain ⟨_, _, h1, -⟩ := bind_eq_ok.1 e
    exact absurd h1 throw_ne_ok
  obtain ⟨h, _, h1, e⟩ := bind_eq_ok.1 e
  obtain ⟨hv, rfl⟩ := lift_eq_ok.1 h1
  obtain ⟨element, _, h2, e⟩ := bind_eq_ok.1 e
  obtain ⟨hstream, rfl⟩ := lift_eq_ok.1 h2
  obtain ⟨_, _, h3, e⟩ := bind_eq_ok.1 e
  obtain ⟨hpiped, rfl⟩ := lift_eq_ok.1 h3
  obtain ⟨_, s1, h4, e⟩ := bind_eq_ok.1 e
  obtain ⟨_, hunder, -⟩ := onPart_eq_ok.1 h4
  obtain ⟨p, -, hp, -⟩ := Pipe.under_eq_ok.1 hunder
  obtain ⟨p', henter, rfl⟩ := (onPipe_eq_ok hp).1 h4
  obtain ⟨pending, s2, h5, e⟩ := bind_eq_ok.1 e
  obtain ⟨p2, hget, rfl⟩ := (onPipe_eq_ok (getElem?_setPipe hp)).1 h5
  obtain ⟨rfl, rfl⟩ : p'.pending.length = pending ∧ p' = p2 := by
    obtain ⟨q, q', hq, hlength⟩ := bind_eq_ok.1 hget
    obtain ⟨rfl, rfl⟩ := get_eq_ok.1 hq
    exact pure_eq_ok.1 hlength
  have hvalue : v = .pipe h := by
    unfold Value.pipe? at hv
    split at hv
    · rw [Except.ok.inj hv]
    · exact absurd hv (by simp)
  rw [setPipe_setPipe] at e
  exact ⟨h, p, p', element, hvalue, hp, henter, hstream, hpiped, e⟩

/-- A parameter that is a pipe, as it is written. -/
theorem walk_pipe_eq_ok {room n : Nat} {props : UInt8} {d : Descriptor} {v : Value}
    (hform : d.form = .pipe props n) (e : Marshal.walk env room d v site s = .ok u t) :
    ∃ below s' h p p' element, room = below + 1 ∧ Piped env below n v site s s' h p p' element ∧
      t = { s' with calls := t.calls } := by
  obtain ⟨below, s', rfl, h1, ht⟩ := walk_eq_ok e
  unfold putForm at h1
  rw [hform] at h1
  obtain ⟨h, p, p', element, hpiped⟩ := putPipe_eq_ok h1
  exact ⟨below, s', h, p, p', element, rfl, hpiped, ht⟩

theorem Piped.beside (hD : env.interface.OfRecords D) {room n : Nat} {v : Value} {p p' : Pipe}
    {element : Descriptor} (helement : D element) (hown : own h)
    (hpiped : Piped env room n v site s t h p p' element) : Beside own s t := by
  have hset : Beside own s (s.setPipe h p') :=
    ⟨rfl, rfl, fun k hk => Array.getElem?_setIfInBounds_ne fun hkh : h = k => hk (hkh ▸ hown)⟩
  have hpieces : Ends (Beside own s) (fun _ => True) (putPieces env (Marshal.walk env room) h element
      site.inside (p'.pending.length + 1) (s.setPipe h p')) :=
    uses_putPieces hown (fun v => spares_walk hD room helement v _) _ _ _ hset
  rw [hpiped.pieces] at hpieces
  exact hpieces.1

/-- A parameter as it is written, with nothing behind it. -/
theorem writeParameter_eq_ok (hD : env.interface.OfRecords D) {room : Nat} {params : List Value}
    {scope : Scope} {p : Parameter} (hp : env.interface.Conveys D p.descriptor) (hd : s.deferred = [])
    (e : Lockstep.writeParameter env (Marshal.walk env room) params scope p s = .ok u t) :
    ∃ v, params[p.index]? = some v ∧
      Marshal.walk env room p.descriptor v { scope, embedded := false } s = .ok () t ∧
      Beside (fun h => params[p.index]? = some (.pipe h)) s t := by
  unfold Lockstep.writeParameter at e
  cases hv : params[p.index]? with
  | none =>
    simp only [hv] at e
    exact absurd e throw_ne_ok
  | some v =>
    simp only [hv] at e
    obtain ⟨_, s1, h1, e1⟩ := bind_eq_ok.1 e
    have hbeside : Beside (fun h => some v = some (.pipe h)) s s1 := by
      cases hp with
      | record record field => exact .of_eq ((spares_walk hD room record v _).aside_eq h1)
      | @pipe _ n element form stream record field =>
        obtain ⟨below, s2, h, q, q', _, rfl, hpiped, hs1⟩ := walk_pipe_eq_ok form h1
        obtain rfl := Except.ok.inj (stream.symm.trans hpiped.stream)
        rw [hs1]
        exact (hpiped.beside hD record (congrArg some hpiped.value)).trans ⟨rfl, rfl, fun _ _ => rfl⟩
    rw [flush_of_nothing (hbeside.deferred.trans hd)] at e1
    obtain ⟨-, rfl⟩ := EStateM.Result.ok.inj e1
    exact ⟨v, rfl, h1, hbeside⟩

/-- The parameters of a list as they are written: only the pipes that they hold were used. -/
theorem beside_writeParameters (hD : env.interface.OfRecords D) {room : Nat} {params : List Value}
    {scope : Scope} {list : List Parameter} (hlist : ∀ p ∈ list, env.interface.Conveys D p.descriptor)
    (hd : s.deferred = [])
    (e : list.forM (Lockstep.writeParameter env (Marshal.walk env room) params scope) s = .ok u t) :
    Beside (fun h => ∃ p ∈ list, params[p.index]? = some (.pipe h)) s t := by
  induction list generalizing s with
  | nil => exact (pure_eq_ok.1 e).2 ▸ ⟨rfl, rfl, fun _ _ => rfl⟩
  | cons p list ih =>
    obtain ⟨_, s1, h1, e1⟩ := bind_eq_ok.1 e
    obtain ⟨-, -, -, hbeside⟩ := writeParameter_eq_ok hD (hlist p List.mem_cons_self) hd h1
    have hrest := ih (fun q hq => hlist q (List.mem_cons_of_mem _ hq)) (hbeside.deferred.trans hd) e1
    refine ⟨hrest.nodes.trans hbeside.nodes, hrest.deferred.trans hbeside.deferred, ?_⟩
    exact (hbeside.pipes.mono fun h hh => ⟨p, List.mem_cons_self, hh⟩).trans
      (hrest.pipes.mono fun h ⟨q, hq, hh⟩ => ⟨q, List.mem_cons_of_mem _ hq, hh⟩)

end Marshal

/-! ### Reading -/

namespace Unmarshal

variable {env : Env} {D : Descriptor → Prop} {walk : Walk} {site : Site ScopeId} {h : PipeHandle}
  {s t : State} {own : PipeHandle → Prop}

/-- An action that uses no pipe but those of `own`. -/
abbrev Uses {α : Type} (own : PipeHandle → Prop) (x : Unmarshalling α) : Prop :=
  ∀ ps, Holds (fun s => Pipe.Stay own ps s.pipes) x

theorem Spares.uses {α : Type} {x : Unmarshalling α} (hx : Spares x) : Uses own x := by
  intro ps s hs
  have hends := hx s.aside s rfl
  have hsame : ∀ t : State, t.aside = s.aside → Pipe.Stay own ps t.pipes := fun t ht => by
    rw [show t.pipes = s.pipes from congrArg (·.2) ht]
    exact hs
  cases e : x s with
  | ok a t =>
    rw [e] at hends
    exact ⟨hsame t hends.1, trivial⟩
  | error f t =>
    rw [e] at hends
    exact hsame t hends

theorem uses_onPipe {α : Type} (hown : own h) (x : EStateM Fault Pipe α) : Uses own (onPipe h x) := by
  intro ps s hs
  have hends := Pipe.keeps_under hown x ps s.pipes hs
  unfold onPipe onPart
  cases e : Pipe.under h x s.pipes with
  | ok a qs =>
    rw [e] at hends
    exact hends
  | error f qs =>
    rw [e] at hends
    exact hends

/-- The pieces of a message go to one pipe. -/
theorem uses_getPieces (hown : own h) {element : Descriptor} (hspares : Spares (walk element site))
    (fuel : Nat) : Uses own (getPieces env walk h element site fuel) := by
  have hpiece : ∀ fuel n, Uses own (getPiece walk h element site fuel n) := by
    intro fuel
    induction fuel with
    | zero =>
      intro n
      cases n <;> exact fun _ => .pure trivial
    | succ fuel ih =>
      intro n ps
      cases n with
      | zero => exact .pure trivial
      | succ n =>
        unfold getPiece
        exact (uses_onPipe hown _ ps).bind fun _ _ => (Keeps.repeatM (hspares.uses ps) _).bind fun _ _ =>
          (uses_onPipe hown _ ps).bind fun _ _ => (uses_onPipe hown _ ps).bind fun _ _ => ih _ ps
  induction fuel with
  | zero => exact fun _ => .pure trivial
  | succ fuel ih =>
    intro ps
    unfold getPieces
    refine (Spares.uses (spares_fetch _) ps).bind fun n _ => .ite ?_ ?_
    · exact (uses_onPipe hown _ ps).bind fun _ _ => uses_onPipe hown _ ps
    · exact (Keeps.lift _).bind fun _ _ => (hpiece _ _ ps).bind fun _ _ => ih ps

/-- A pipe that is read uses no other. -/
theorem uses_getPipe (hown : own h) {n : Nat} (hspares : ∀ d, env.vector.stream n = .ok d →
    ∀ site, Spares (walk d site)) : Uses own (getPipe env walk n (.pipe h) site) := fun ps =>
  (Keeps.lift _).bind fun k hk => (Keeps.lift _).bind fun d hd => (Keeps.lift _).bind fun _ _ => by
    obtain rfl : h = k := Except.ok.inj hk
    exact (uses_onPipe hown _ ps).bind fun _ _ => Keeps.get.bind fun _ _ =>
      (uses_getPieces hown (hspares d hd _) _ ps).bind fun _ _ => .pure trivial

/-- A pipe is read where its pieces are. -/
theorem getPipe_of_ok {n : Nat} {element : Descriptor} {q q' : Pipe}
    (hstream : env.vector.stream n = .ok element) (hpiped : element.checkPiped = .ok ())
    (hq : s.pipes[h]? = some q) (henter : Pipe.enter .receive q = .ok () q')
    (e : getPieces env walk h element site.inside (s.reader.rest.length + 1) (s.setPipe h q')
      = .ok () t) :
    getPipe env walk n (.pipe h) site s = .ok (.pipe h) t :=
  bind_eq_ok.2 ⟨h, s, lift_eq_ok.2 ⟨rfl, rfl⟩, bind_eq_ok.2 ⟨element, s, lift_eq_ok.2 ⟨hstream, rfl⟩,
    bind_eq_ok.2 ⟨(), s, lift_eq_ok.2 ⟨hpiped, rfl⟩, bind_eq_ok.2 ⟨(), s.setPipe h q',
      (onPipe_eq_ok hq).2 ⟨q', henter, rfl⟩, bind_eq_ok.2 ⟨_, _, rfl, bind_eq_ok.2 ⟨(), t, e, rfl⟩⟩⟩⟩⟩⟩

end Unmarshal

/-! ### Both sides -/

namespace Lockstep

section

variable {env : Marshal.Env} {D : Descriptor → Prop} {N : Naming} {G : List Frame} {F : Frame}
  {x : Site Scope} {y : Site ScopeId} {s t : Marshal.State} {u : Unmarshal.State}
  {bytes tail : List UInt8} (side : Side) (previous : NodeTable)

/-- A pipe parameter is read into the pipe that the reader holds for it. -/
theorem pipe_reads (hD : env.interface.OfRecords D) (hN : ∀ c, ¬N.Knows c) {d element : Descriptor}
    {props : UInt8} {n : Nat} (hform : d.form = .pipe props n)
    (hstream : env.vector.stream n = .ok element) (helement : D element) (hfield : element.isField)
    {v : Value} {h h' : PipeHandle} {p q : Pipe} (hv : v = .pipe h) (hp : s.pipes[h]? = some p)
    (hq : u.pipes[h']? = some q) (hmeet : p.Meet q) (hm : Meets G F x y) (hs : Marshal.Ready s)
    (hcovers : N.Covers s.nodes) {room : Nat} {a : Unit}
    (e : Marshal.walk env room d v x s = .ok a t)
    (hmax : ∀ p', t.pipes[h]? = some p' → ∀ piece ∈ p'.pulled,
      piece.length ≤ env.config.maxElements)
    (hwrote : Writer.Wrote s.writer t.writer bytes)
    (hu : Follows env (recordTerms D) N G s u) (hr : u.reader.rest = bytes ++ tail) :
    ∃ u' G' p' q', Unmarshal.getPipe (env.receiver side previous)
        (Unmarshal.walk (env.receiver side previous) room) n (.pipe h') y u = .ok (.pipe h') u' ∧
      u'.reader.rest = tail ∧ Follows env (recordTerms D) N G' t u' ∧
      Course env N (fun _ => False) Unmarshal.None G G' u u' ∧ t.pipes[h]? = some p' ∧
      u'.pipes[h']? = some q' ∧ p'.Delivers q' ∧ Pipe.Stay (h' = ·) u.pipes u'.pipes := by
  obtain ⟨below, s', k, p0, p1, element', rfl, hpiped, ht⟩ := Marshal.walk_pipe_eq_ok hform e
  obtain rfl := Except.ok.inj (hstream.symm.trans hpiped.stream)
  obtain rfl : k = h := Value.pipe.inj (hpiped.value.symm.trans hv)
  obtain rfl := Option.some.inj (hp.symm.trans hpiped.held)
  obtain rfl : p.toward .send = p1 := (Pipe.enter_eq_ok.1 hpiped.enter).2.2.symm
  have hready : Marshal.Ready (s.setPipe k (p.toward .send)) := ⟨hs.bufferSize, hs.nodes⟩
  have hwriter : t.writer = s'.writer := by rw [ht]
  have hpipes : t.pipes = s'.pipes := by rw [ht]
  rw [hwriter] at hwrote
  rw [hpipes] at hmax
  have hwalks := lockedWalks_record (N := N) hD side previous (Nat.le_succ below)
  have hf : Follows env (recordTerms D) N G (s.setPipe k (p.toward .send))
      (u.setPipe h' (q.toward .receive)) := hu.of_pipes _ _
  have hsame : (q.toward .receive).pushed.flatten = (p.toward .send).pulled.flatten := by
    rw [hmeet.receiver.pushed, hmeet.sender.pulled]
  obtain ⟨u', G', p', q', eu, hrest, hu', hcourse, hp', hq', hdelivers⟩ :=
    getPieces_reads side previous hwalks (fun v => Marshal.spares_walk hD below helement v _)
      (Unmarshal.spares_walk hD (below + 1) helement _) helement hfield hN hm.inside hready
      (Marshal.getElem?_setPipe hp) hmeet.sender.sending (Nat.lt_succ_self _) hpiped.pieces hmax
      hcovers hwrote hf hr (Nat.lt_succ_self _) (Unmarshal.getElem?_setPipe hq)
      (hmeet.receiver.receiving hmeet.accepts) hsame
  have eget : Unmarshal.getPipe (env.receiver side previous) (Unmarshal.walk
      (env.receiver side previous) (below + 1)) n (.pipe h') y u = .ok (.pipe h') u' :=
    Unmarshal.getPipe_of_ok hstream hpiped.piped hq
      (Pipe.enter_eq_ok.2 ⟨hmeet.receiver.finished, .inl hmeet.receiver.direction, rfl⟩) eu
  refine ⟨u', G', p', q', eget, hrest, ?_, ?_, hpipes ▸ hp', hq', hdelivers, ?_⟩
  · rw [ht]
    exact hu'.of_quiet rfl rfl rfl
  · have h0 : Course env N (fun _ => False) Unmarshal.None G G u (u.setPipe h' (q.toward .receive)) :=
      .of_eq rfl rfl rfl
    exact h0.trans_none hcourse
  · have hspares : ∀ d, env.interface.vector.stream n = .ok d → ∀ site, Unmarshal.Spares
        (Unmarshal.walk (env.receiver side previous) (below + 1) d site) := by
      intro d hd site
      obtain rfl := Except.ok.inj (hstream.symm.trans hd)
      exact Unmarshal.spares_walk hD _ helement site
    have huses : Unmarshal.Uses (h' = ·) (Unmarshal.getPipe (env.receiver side previous)
        (Unmarshal.walk (env.receiver side previous) (below + 1)) n (.pipe h') y) :=
      Unmarshal.uses_getPipe rfl hspares
    have hends := huses u.pipes u fun _ _ => rfl
    rw [eget] at hends
    exact hends.1

variable {params params' : List Value} {i : ScopeId}

/-- One parameter of a list of pipes and records is read where it was written. -/
theorem conveyed_reads (hD : env.interface.OfRecords D) (hN : ∀ c, ¬N.Knows c) {p : Parameter}
    (hp : env.interface.Conveys D p.descriptor) (hlen : params'.length = params.length)
    (hmeet : p.descriptor.IsPipe → PipesAt Pipe.Meet params params' s.pipes u.pipes p.index)
    (hF : G[i]? = some F) (hreadable : ∀ k, ¬F.readable k) (hs : Marshal.Ready s)
    (hd : s.deferred = []) (hcovers : N.Covers s.nodes) {a : Unit}
    (e : writeParameter env (Marshal.walk env env.config.maxNesting) params F.scope p s = .ok a t)
    (hmax : ∀ h p', params[p.index]? = some (.pipe h) → t.pipes[h]? = some p' →
      ∀ piece ∈ p'.pulled, piece.length ≤ env.config.maxElements)
    (hwrote : Writer.Wrote s.writer t.writer bytes)
    (hu : Follows env (recordTerms D) N G s u) (hr : u.reader.rest = bytes ++ tail) :
    ∃ w u' G', Unmarshal.readParameter (env.receiver side previous) params' i p u
        = .ok (p.index, w) u' ∧
      u'.reader.rest = tail ∧ Follows env (recordTerms D) N G' t u' ∧ G <+: G' ∧
      Conveyed params params' p w ∧
      (p.descriptor.IsPipe → PipesAt Pipe.Delivers params params' t.pipes u'.pipes p.index) ∧
      Pipe.Stay (fun h => params'[p.index]? = some (.pipe h)) u.pipes u'.pipes := by
  obtain ⟨v, hv, hwalk, hbeside⟩ := Marshal.writeParameter_eq_ok hD hp hd e
  have hlt : p.index < params'.length := by
    rw [hlen]
    exact (List.getElem?_eq_some_iff.1 hv).1
  have hsite : Meets G F { scope := F.scope, embedded := false } { scope := i, embedded := false } :=
    ⟨hF, rfl, rfl⟩
  -- nothing is put off, and what is read is of no use to others
  suffices hread : ∃ w u₁ G', Unmarshal.getParameter (env.receiver side previous) p.descriptor
      params'[p.index] { scope := i, embedded := false } u = .ok w u₁ ∧ u₁.reader.rest = tail ∧
      Follows env (recordTerms D) N G' t u₁ ∧ G <+: G' ∧ Conveyed params params' p w ∧
      (p.descriptor.IsPipe → PipesAt Pipe.Delivers params params' t.pipes u₁.pipes p.index) ∧
      Pipe.Stay (fun h => params'[p.index]? = some (.pipe h)) u.pipes u₁.pipes by
    obtain ⟨w, u1, G1, e1, r1, f1, hG, hconveyed, hdelivers, hstay⟩ := hread
    have hdeferred := f1.deferred_nil (hbeside.deferred.trans hd)
    have f2 := f1.setField (frame_mono hG hF) fun (hk : F.readable p.index) n
      (_ : correlationOf u1.heap w = some n) => absurd hk (hreadable _)
    refine ⟨w, { u1 with scopes := Unmarshal.enter u1.scopes i p.index (correlationOf u1.heap w) }, G1,
      ?_, r1, f2, hG, hconveyed, hdelivers, hstay⟩
    simp only [Unmarshal.readParameter, List.getElem?_eq_getElem hlt]
    exact bind_eq_ok.2 ⟨w, u1, e1, bind_eq_ok.2 ⟨(), u1, Unmarshal.flush_of_nothing hdeferred,
      bind_eq_ok.2 ⟨u1, u1, rfl, bind_eq_ok.2 ⟨(), _, Unmarshal.setField_eq_ok.2 rfl, rfl⟩⟩⟩⟩
  cases hp with
  | record record field =>
    have hpipe := hD.not_isPipe record
    have hwalks := lockedWalks_record (N := N) hD side previous (Nat.le_refl env.config.maxNesting)
    have hvalue : (recordTerms D).value p.descriptor v F :=
      ⟨record, fun hmarker => absurd (field.symm.trans hmarker) (by simp)⟩
    have hcovers' : N.Covers t.nodes := hbeside.nodes ▸ hcovers
    obtain ⟨w, u1, G1, e1, r1, f1, c1, hcopy⟩ :=
      (hwalks.reads hvalue hsite).reads hs hwalk hcovers' List.prefix_rfl hwrote hu hr
    have haside := (Unmarshal.spares_walk hD _ record _).aside_eq e1
    refine ⟨w, u1, G1, ?_, r1, f1, c1.frames, ⟨fun h => absurd h hpipe, fun _ => ?_⟩,
      fun h => absurd h hpipe, fun h _ => ?_⟩
    · rw [getParameter_eq_walk (fun props n hform => hpipe ⟨props, n, hform⟩)
        (hD.record record).not_context]
      exact e1
    · rw [hv, hcopy.eq_self hN]
    · rw [show u1.pipes = u.pipes from congrArg (·.2) haside]
  | @pipe props n element form stream record field =>
    obtain ⟨h, h', q, q', hh, hh', hq, hq', hmeets⟩ := hmeet ⟨props, n, form⟩
    obtain rfl := Option.some.inj (hv.symm.trans hh)
    obtain ⟨u1, G1, p1, q1, e1, r1, f1, c1, hp1, hq1, hdelivers, hstay⟩ := pipe_reads side previous hD hN
      form stream record field rfl hq hq' hmeets hsite hs hcovers hwalk (hmax h · hh) hwrote hu hr
    have hcurrent : params'[p.index] = .pipe h' := by
      rw [List.getElem?_eq_getElem hlt] at hh'
      exact Option.some.inj hh'
    have hget : Unmarshal.getParameter (env.receiver side previous) p.descriptor params'[p.index]
        { scope := i, embedded := false } u = .ok (.pipe h') u1 := by
      unfold Unmarshal.getParameter
      rw [form, hcurrent]
      exact e1
    have hothers := hstay.mono fun k hk => hh'.trans (congrArg (fun k => some (Value.pipe k)) hk)
    exact ⟨.pipe h', u1, G1, hget, r1, f1, c1.frames,
      ⟨fun _ => hh', fun hnot => absurd ⟨_, _, form⟩ hnot⟩,
      fun _ => ⟨h, h', p1, q1, hh, hh', hp1, hq1, hdelivers⟩, hothers⟩

/-- The parameters of a list of pipes and records are read where they were written, and all its pipes
deliver. -/
theorem allConveyed_reads (hD : env.interface.OfRecords D) (hN : ∀ c, ¬N.Knows c)
    {list : List Parameter} (hlist : ∀ p ∈ list, env.interface.Conveys D p.descriptor)
    (hnodup : (list.map Parameter.index).Nodup) (hlen : params'.length = params.length)
    (honce : HeldOnce params) (honce' : HeldOnce params')
    (hmeet : ∀ p ∈ list, p.descriptor.IsPipe →
      PipesAt Pipe.Meet params params' s.pipes u.pipes p.index)
    (hF : G[i]? = some F) (hreadable : ∀ k, ¬F.readable k) (hs : Marshal.Ready s)
    (hd : s.deferred = []) (hcovers : N.Covers s.nodes) {a : Unit}
    (e : list.forM (writeParameter env (Marshal.walk env env.config.maxNesting) params F.scope) s
      = .ok a t)
    (hmax : ∀ p ∈ list, ∀ h p', params[p.index]? = some (.pipe h) → t.pipes[h]? = some p' →
      ∀ piece ∈ p'.pulled, piece.length ≤ env.config.maxElements)
    (hwrote : Writer.Wrote s.writer t.writer bytes)
    (hu : Follows env (recordTerms D) N G s u) (hr : u.reader.rest = bytes ++ tail) :
    ∃ values u' G', list.mapM (Unmarshal.readParameter (env.receiver side previous) params' i) u
        = .ok values u' ∧
      u'.reader.rest = tail ∧ Follows env (recordTerms D) N G' t u' ∧ G <+: G' ∧
      List.Forall₂ (fun p w => w.1 = p.index ∧ Conveyed params params' p w.2) list values ∧
      (∀ p ∈ list, p.descriptor.IsPipe →
        PipesAt Pipe.Delivers params params' t.pipes u'.pipes p.index) ∧
      Pipe.Stay (fun h => ∃ p ∈ list, params'[p.index]? = some (.pipe h)) u.pipes u'.pipes := by
  induction list generalizing s u G bytes with
  | nil =>
    obtain ⟨-, rfl⟩ := pure_eq_ok.1 e
    obtain rfl := hwrote.unique .refl
    refine ⟨[], u, G, ?_, hr, hu, List.prefix_rfl, .nil, fun p hp => absurd hp List.not_mem_nil,
      fun _ _ => rfl⟩
    rw [List.mapM_nil]
    rfl
  | cons p list ih =>
    obtain ⟨hp, hlist⟩ := List.forall_mem_cons.1 hlist
    obtain ⟨hmeetp, hmeet⟩ := List.forall_mem_cons.1 hmeet
    obtain ⟨hmaxp, hmax⟩ := List.forall_mem_cons.1 hmax
    rw [List.map_cons, List.nodup_cons] at hnodup
    obtain ⟨hnot, hnodup⟩ := hnodup
    have hne : ∀ q ∈ list, q.index ≠ p.index := fun q hq hqp =>
      hnot (hqp ▸ List.mem_map_of_mem hq)
    obtain ⟨_, s1, h1, e1⟩ := bind_eq_ok.1 e
    obtain ⟨-, -, -, hbeside⟩ := Marshal.writeParameter_eq_ok hD hp hd h1
    have hbeside1 := Marshal.beside_writeParameters hD hlist (hbeside.deferred.trans hd) e1
    have g1 := grown_writeParameter (Marshal.grows_walk _) hs h1
    have g2 := grown_writeParameters (Marshal.grows_walk _) g1.ready e1
    obtain ⟨bytes1, hw1⟩ := g1.wrote
    obtain ⟨bytes2, hw2⟩ := g2.wrote
    obtain rfl := hwrote.unique (hw1.trans hw2)
    rw [List.append_assoc] at hr
    -- the others do not use the pipe of this parameter, and this one does not use theirs
    have hlater : ∀ h q, params[p.index]? = some (.pipe h) → s1.pipes[h]? = some q →
        t.pipes[h]? = some q := fun h q hh hq => hbeside1.pipes.some (fun ⟨r, hr, hrh⟩ =>
      hne r hr (honce _ _ _ hrh hh)) hq
    obtain ⟨w, u1, G1, e2, r2, f2, hG1, hw, hdelivers, hstay⟩ := conveyed_reads side previous hD hN hp
      hlen hmeetp hF hreadable hs hd hcovers h1 (fun h q hh hq => hmaxp h q hh (hlater h q hh hq)) hw1
      hu hr
    have hmeet1 : ∀ q ∈ list, q.descriptor.IsPipe →
        PipesAt Pipe.Meet params params' s1.pipes u1.pipes q.index := by
      intro q hq hpipe
      obtain ⟨h, h', p0, q0, hh, hh', hp0, hq0, hmeets⟩ := hmeet q hq hpipe
      exact ⟨h, h', p0, q0, hh, hh', hbeside.pipes.some (fun hph => hne q hq (honce _ _ _ hh hph)) hp0,
        hstay.some (fun hph => hne q hq (honce' _ _ _ hh' hph)) hq0, hmeets⟩
    obtain ⟨values, u2, G2, e3, r3, f3, hG2, hvalues, hdelivers2, hstay2⟩ := ih hlist hnodup hmeet1
      (frame_mono hG1 hF) g1.ready (hbeside.deferred.trans hd) (hbeside.nodes ▸ hcovers) e1 hmax hw2 f2
      r2
    refine ⟨(p.index, w) :: values, u2, G2, ?_, r3, f3, hG1.trans hG2, .cons ⟨rfl, hw⟩ hvalues, ?_, ?_⟩
    · rw [List.mapM_cons]
      exact bind_eq_ok.2 ⟨(p.index, w), u1, e2, bind_eq_ok.2 ⟨values, u2, e3, rfl⟩⟩
    · refine List.forall_mem_cons.2 ⟨fun hpipe => ?_, hdelivers2⟩
      obtain ⟨h, h', p1, q1, hh, hh', hp1, hq1, hd1⟩ := hdelivers hpipe
      exact ⟨h, h', p1, q1, hh, hh', hlater h p1 hh hp1, hstay2.some (fun ⟨r, hr, hrh⟩ =>
        hne r hr (honce' _ _ _ hrh hh')) hq1, hd1⟩
    · exact (hstay.mono fun h hh => ⟨p, List.mem_cons_self, hh⟩).trans
        (hstay2.mono fun h ⟨q, hq, hh⟩ => ⟨q, List.mem_cons_of_mem _ hq, hh⟩)

/-- All parameters of a list of pipes and records are read where they were written. -/
theorem getParameters_conveyed (hD : env.interface.OfRecords D) (hN : ∀ c, ¬N.Knows c)
    {list : List Parameter} {offset : Nat} (hlist : env.vector.parameters offset = .ok list)
    (hconveys : ∀ p ∈ list, env.interface.Conveys D p.descriptor)
    (hnodup : (list.map Parameter.index).Nodup) (hlen : params'.length = params.length)
    (honce : HeldOnce params) (honce' : HeldOnce params')
    (hmeet : ∀ p ∈ list, p.descriptor.IsPipe →
      PipesAt Pipe.Meet params params' s.pipes u.pipes p.index) (hs : Marshal.Ready s)
    (hd : s.deferred = []) (hcovers : N.Covers s.nodes)
    (e : Marshal.putParameters env offset params s = .ok () t)
    (hmax : ∀ p ∈ list, ∀ h p', params[p.index]? = some (.pipe h) → t.pipes[h]? = some p' →
      ∀ piece ∈ p'.pulled, piece.length ≤ env.config.maxElements)
    (hwrote : Writer.Wrote s.writer t.writer bytes)
    (hu : Follows env (recordTerms D) N [] s u) (hr : u.reader.rest = bytes ++ tail) :
    ∃ values u', Unmarshal.getParameters (env.receiver side previous) offset params' u
        = .ok values u' ∧
      u'.reader.rest = tail ∧
      List.Forall₂ (fun p w => w.1 = p.index ∧ Conveyed params params' p w.2) list values ∧
      ∀ p ∈ list, p.descriptor.IsPipe →
        PipesAt Pipe.Delivers params params' t.pipes u'.pipes p.index := by
  obtain ⟨list', s1, h1, e1⟩ := bind_eq_ok.1 e
  obtain ⟨hlist', rfl⟩ := lift_eq_ok.1 h1
  obtain rfl := Except.ok.inj (hlist.symm.trans hlist')
  have hscopes : u.scopes.size = 0 := hu.scopes
  -- no field of the scope is of use
  obtain ⟨F, hscope, hreadable⟩ : ∃ F : Frame,
      F.scope = (params.map (correlationOf env.heap)).toArray ∧ ∀ k, ¬F.readable k :=
    ⟨{ Frame.ofParameters env.heap list params with readable := fun _ => False }, rfl, fun _ => id⟩
  have f1 : Follows env (recordTerms D) N [F] s
      { u with scopes := u.scopes.push (Unmarshal.parameterScope u.heap list params') } :=
    hu.openScope fun k _ hk => absurd hk (hreadable k)
  rw [← hscope] at e1
  obtain ⟨values, u2, G2, e2, r2, f2, hG, hvalues, hdelivers, -⟩ := allConveyed_reads side previous
    (i := 0) (u := { u with scopes := u.scopes.push (Unmarshal.parameterScope u.heap list params') }) hD hN hconveys hnodup hlen honce honce' hmeet rfl hreadable hs hd hcovers e1 hmax hwrote f1
    hr
  obtain ⟨u3, e3, r3, -, -⟩ := verifyLate_reads (· = 0) f2 (frame_mono hG rfl : G2[0]? = some F)
    fun k _ hk => absurd hk (hreadable k)
  have hpipes : u3.pipes = u2.pipes :=
    congrArg (·.2) ((Unmarshal.spares_verifyLate 0).aside_eq e3)
  refine ⟨values, u3, ?_, by rw [r3, r2], hvalues, hpipes ▸ hdelivers⟩
  exact bind_eq_ok.2 ⟨list, u, lift_eq_ok.2 ⟨hlist, rfl⟩, bind_eq_ok.2 ⟨u, u, rfl,
    bind_eq_ok.2 ⟨0, _, Unmarshal.openScope_eq_ok.2 ⟨hscopes.symm, rfl⟩,
      bind_eq_ok.2 ⟨values, u2, e2, bind_eq_ok.2 ⟨(), u3, e3, rfl⟩⟩⟩⟩⟩

end

end Lockstep

end Ndr
