import Ndr.Proofs.Pipes.Order
import Ndr.Proofs.Pipes.Steps

/-!
The pipe under one handle while an operation writes. The operation may fail at any point; what it did
to the pipe is then one of three things: it did not use it, it wrote a whole stream up to the count of
zero, or it wrote some chunks in full and failed at the next. A pipe that refuses the operation is not
looked at for anything else.
-/

namespace Ndr.Marshal

variable {env : Env} {h : PipeHandle} {s t u v w : State} {p q r : Pipe} {e e' : Option Fault}
  {chunks chunks' : List (List Value)} {walk : Walk} {element : Descriptor} {site : Site Scope}
  {fuel : Nat} {α : Type}

/-! ### Embedded values -/

/-- A value that is embedded in others reaches no pipe: pipes are parameters, and pointees of embedded
pointers are put off. -/
theorem pipeless_walk (env : Env) (room : Nat) (d : Descriptor) (v : Value) {site : Site Scope}
    (hsite : site.embedded = true) : Pipeless (Marshal.walk env room d v site) := by
  have hR := relates_pipeless env
  refine hR.toRelatesPlain.walk (N := fun b _ => b = true) (.refl env _)
    ⟨fun _ _ => rfl, fun h => absurd h (by simp), fun h _ _ => h⟩ (fun _ _ _ _ => hR.putDeleted rfl)
    ?_ ?_ room d v site hsite
  · intro walk _ _ d kind props pointee site hsite _ v
    refine hR.putPointer_of_place _ walk (fun cell => ?_) kind v
    unfold placePointee
    rw [if_pos hsite]
    exact hR.defer trivial
  · intro room _ d props element site hsite _ v
    refine hR.toRelatesPlain.putPipe _ (Marshal.walk env room) rfl v site fun hout => ?_
    exact absurd (hsite.symm.trans hout) (by simp)

theorem pipeless_inside (env : Env) (room : Nat) (d : Descriptor) (site : Site Scope) (v : Value) :
    Pipeless (Marshal.walk env room d v site.inside) := pipeless_walk env room d v rfl

/-! ### Steps of a pipe -/

theorem getElem?_setPipe_ne {h' : PipeHandle} (hne : h' ≠ h) :
    (s.setPipe h' q).pipes[h]? = s.pipes[h]? := by
  simp [State.setPipe, hne]

/-- A step of the pipe under `h` ends as its action on that pipe. -/
theorem lands_onPipe {x : EStateM Fault Pipe α} {P : α → Pipe → Prop} {J : Fault → Pipe → Prop}
    (hp : s.pipes[h]? = some p) (hx : Lands P J (x p)) :
    Lands (fun a t => ∃ q, P a q ∧ t = s.setPipe h q) (fun e t => ∃ q, J e q ∧ t = s.setPipe h q)
      (onPipe h x s) := by
  unfold onPipe onPart Pipe.under
  simp only [hp]
  unfold onPart
  cases e : x p with
  | ok a q => rw [e] at hx; exact ⟨q, hx, rfl⟩
  | error f q => rw [e] at hx; exact ⟨q, hx, rfl⟩

theorem onPipe_modify (f : Pipe → Pipe) (hp : s.pipes[h]? = some p) :
    onPipe h (modify f) s = .ok ⟨⟩ (s.setPipe h (f p)) :=
  (onPipe_eq_ok hp).2 ⟨f p, modify_eq_ok.2 rfl, rfl⟩

theorem before_setPipe (s : State) (h : PipeHandle) (q : Pipe) : s.Before (s.setPipe h q) :=
  ⟨List.suffix_rfl, List.prefix_rfl⟩

/-- A step of another pipe leaves the pipe under `h` as it is. -/
theorem ends_onPipe_ne {h' : PipeHandle} (hne : h' ≠ h) (x : EStateM Fault Pipe α) (s : State) :
    Ends (fun t => s.Before t ∧ t.pipes[h]? = s.pipes[h]?) (fun _ => True) (onPipe h' x s) := by
  unfold onPipe onPart Pipe.under
  cases hp : s.pipes[h']? with
  | none => exact ⟨.refl s, rfl⟩
  | some p =>
    dsimp only
    unfold onPart
    cases x p with
    | ok a q => exact ⟨⟨before_setPipe s h' q, getElem?_setPipe_ne hne⟩, trivial⟩
    | error e q => exact ⟨before_setPipe s h' q, getElem?_setPipe_ne hne⟩

/-! ### Chunks -/

/-- Ask the application of a pipe for the next chunk. -/
def pullChunk (env : Env) (h : PipeHandle) : Marshalling (List Value) := do
  let least := env.config.minPipeChunk
  let capacity := max (← onPipe h (Pipe.ask least)) least
  onPipe h (Pipe.pull capacity)

/-- Write a chunk: its count, and its elements. -/
def putChunk (env : Env) (walk : Walk) (element : Descriptor) (site : Site Scope)
    (chunk : List Value) : Marshalling Unit := do
  if 2 ^ 32 ≤ chunk.length then throw .integerOverflow
  putCount env chunk.length
  chunk.forM fun v => walk element v site

/-- Have the next chunk of a pipe, write it, and count it when it is written. -/
def sendChunk (env : Env) (walk : Walk) (h : PipeHandle) (element : Descriptor) (site : Site Scope) :
    Marshalling (List Value) := do
  let chunk ← pullChunk env h
  putChunk env walk element site chunk
  onPipe h (modify (·.advance chunk.length))
  return chunk

theorem putPieces_eq (env : Env) (walk : Walk) (h : PipeHandle) (element : Descriptor)
    (site : Site Scope) (fuel : Nat) : putPieces env walk h element site (fuel + 1) = (do
      let chunk ← sendChunk env walk h element site
      if chunk.isEmpty then onPipe h (modify Pipe.finish)
      else putPieces env walk h element site fuel) := by
  unfold sendChunk pullChunk putChunk
  simp only [bind_assoc]
  refine bind_congr fun granted => bind_congr fun chunk => ?_
  by_cases hlong : 2 ^ 32 ≤ chunk.length <;> by_cases hnil : chunk.isEmpty <;>
    simp only [hlong, hnil, ↓reduceIte, Bool.false_eq_true, bind_assoc, pure_bind]

theorem lands_of_pipeless {x : Marshalling α} (hx : Pipeless x) (s : State) :
    Lands (fun _ t => s.Onward t) (fun _ t => s.Onward t) (x s) := by
  have hends := hx s s ⟨.refl s, rfl⟩
  cases e : x s with
  | ok a t => rw [e] at hends; exact hends.1
  | error f t => rw [e] at hends; exact hends

theorem pipeless_putChunk (hw : ∀ v, Pipeless (walk element v site)) (chunk : List Value) :
    Pipeless (putChunk env walk element site chunk) := by
  have hR := relates_pipeless env
  exact hR.check (f := fun _ => do
    putCount env chunk.length
    chunk.forM fun v => walk element v site) (g := fun _ => do
    putCount env chunk.length
    chunk.forM fun v => walk element v site)
    (hR.bind (y := putCount env chunk.length) (g := fun _ => chunk.forM fun v => walk element v site)
      (hR.count _) fun _ => hR.forM (g := fun v => walk element v site) fun v _ => hw v)

theorem lands_pullChunk (env : Env) (hp : s.pipes[h]? = some p) :
    Lands (fun chunk t => ∃ q, p.Moved [] [chunk] [] q ∧
        (chunk ≠ [] → q.pending.length < p.pending.length) ∧ t = s.setPipe h q)
      (fun _ t => ∃ broken q, broken.length ≤ 1 ∧ p.Moved [] broken [] q ∧ t = s.setPipe h q)
      (pullChunk env h s) := by
  refine ((lands_onPipe hp (Pipe.lands_ask env.config.minPipeChunk p)).mono (fun _ _ h => h)
    fun _ _ ⟨_, hfalse, _⟩ => hfalse.elim).bind ?_
  rintro granted _ ⟨q, ⟨hq, hpending⟩, rfl⟩
  refine (lands_onPipe (getElem?_setPipe hp) (Pipe.lands_pull _ q)).mono ?_ ?_
  · rintro chunk _ ⟨r, ⟨hr, hless⟩, rfl⟩
    exact ⟨r, hq.trans hr, fun hne => hpending ▸ hless hne, setPipe_setPipe s h q r⟩
  · rintro e _ ⟨r, ⟨broken, hbroken, hr⟩, rfl⟩
    exact ⟨broken, r, hbroken, hq.trans hr, setPipe_setPipe s h q r⟩

/-- A chunk that is sent is counted; where that fails, nothing is counted, and at most one chunk was
handed over in vain. -/
theorem lands_sendChunk (env : Env) (hw : ∀ v, Pipeless (walk element v site))
    (hp : s.pipes[h]? = some p) :
    Lands (fun chunk t => s.Before t ∧ ∃ q, t.pipes[h]? = some q ∧ p.Moved [chunk] [chunk] [] q ∧
        (chunk ≠ [] → q.pending.length < p.pending.length))
      (fun _ t => s.Before t ∧ ∃ broken q, broken.length ≤ 1 ∧ t.pipes[h]? = some q ∧
        p.Moved [] broken [] q)
      (sendChunk env walk h element site s) := by
  refine ((lands_pullChunk env hp).mono (fun _ _ h => h) ?_).bind ?_
  · rintro e _ ⟨broken, q, hbroken, hq, rfl⟩
    exact ⟨before_setPipe s h q, broken, q, hbroken, getElem?_setPipe hp, hq⟩
  rintro chunk _ ⟨q, hq, hless, rfl⟩
  have hheld : (s.setPipe h q).pipes[h]? = some q := getElem?_setPipe hp
  refine ((lands_of_pipeless (pipeless_putChunk hw chunk) (s.setPipe h q)).mono (fun _ _ h => h)
    ?_).bind ?_
  · intro e t ht
    exact ⟨(before_setPipe s h q).trans ht.toBefore, [chunk], q, Nat.le_refl _, ht.pipes ▸ hheld, hq⟩
  intro _ t ht
  have hheld : t.pipes[h]? = some q := ht.pipes ▸ hheld
  rw [bind_of_ok (onPipe_modify (·.advance chunk.length) hheld)]
  refine ⟨((before_setPipe s h q).trans ht.toBefore).trans (before_setPipe t h _), _,
    getElem?_setPipe hheld, ?_, hless⟩
  exact hq.trans (Pipe.moved_advance q chunk)

/-! ### Streams -/

/-- Chunks that are sent one after the other, none of them empty. -/
inductive Sends (env : Env) (walk : Walk) (h : PipeHandle) (element : Descriptor)
    (site : Site Scope) : State → List (List Value) → State → Prop where
  | nil (s : State) : Sends env walk h element site s [] s
  | cons {s t u : State} {chunk : List Value} {chunks : List (List Value)}
      (sent : sendChunk env walk h element site s = .ok chunk t) (full : chunk ≠ [])
      (rest : Sends env walk h element site t chunks u) :
      Sends env walk h element site s (chunk :: chunks) u

theorem Sends.moved (hsends : Sends env walk h element site s chunks t)
    (hw : ∀ v, Pipeless (walk element v site)) (hp : s.pipes[h]? = some p) :
    s.Before t ∧ (∀ chunk ∈ chunks, chunk ≠ []) ∧
      ∃ q, t.pipes[h]? = some q ∧ p.Moved chunks chunks [] q := by
  induction hsends generalizing p with
  | nil s => exact ⟨.refl s, by simp, p, hp, .refl p⟩
  | cons sent full _ ih =>
    have hlands := lands_sendChunk env hw hp
    rw [sent] at hlands
    obtain ⟨hst, q, hq, hmoved, -⟩ := hlands
    obtain ⟨htu, hfull, r, hr, hrest⟩ := ih hq
    exact ⟨hst.trans htu, List.forall_mem_cons.2 ⟨full, hfull⟩, r, hr, hmoved.trans hrest⟩

/-- The chunks of a pipe are sent up to an empty one, or up to one that fails. -/
theorem lands_putPieces (env : Env) (hw : ∀ v, Pipeless (walk element v site))
    (hp : s.pipes[h]? = some p)
    (hfuel : p.pending.length < fuel) :
    Lands (fun _ t => ∃ chunks v w q, Sends env walk h element site s chunks v ∧
        sendChunk env walk h element site v = .ok [] w ∧ w.pipes[h]? = some q ∧
        t = w.setPipe h q.finish)
      (fun e t => ∃ chunks v, Sends env walk h element site s chunks v ∧
        sendChunk env walk h element site v = .error e t)
      (putPieces env walk h element site fuel s) := by
  induction fuel generalizing s p with
  | zero => exact absurd hfuel (Nat.not_lt_zero _)
  | succ fuel ih =>
    have hlands := lands_sendChunk env hw hp
    rw [putPieces_eq]
    cases hsend : sendChunk env walk h element site s with
    | error e t =>
      rw [bind_of_error hsend]
      exact ⟨[], s, .nil s, hsend⟩
    | ok chunk t =>
      rw [hsend] at hlands
      obtain ⟨-, q, hq, -, hless⟩ := hlands
      rw [bind_of_ok hsend]
      by_cases hnil : chunk = []
      · subst hnil
        rw [if_pos List.isEmpty_nil, onPipe_modify Pipe.finish hq]
        exact ⟨[], s, t, q, .nil s, hsend, hq, rfl⟩
      · rw [if_neg (by simpa using hnil)]
        refine (ih hq (Nat.lt_of_lt_of_le (hless hnil) (Nat.le_of_lt_succ hfuel))).mono ?_ ?_
        · rintro _ u ⟨chunks, v, w, r, hsends, hlast⟩
          exact ⟨chunk :: chunks, v, w, r, .cons hsend hnil hsends, hlast⟩
        · rintro e u ⟨chunks, v, hsends, hlast⟩
          exact ⟨chunk :: chunks, v, .cons hsend hnil hsends, hlast⟩

/-- Some time after `s` the pipe `p` lets the operation in, and up to `v` the chunks are sent. -/
structure Opened (env : Env) (room : Nat) (h : PipeHandle) (element : Descriptor)
    (site : Site Scope) (s : State) (p : Pipe) (chunks : List (List Value)) (v : State) : Prop where
  entered : ∃ u u', s.Before u ∧ u.pipes[h]? = some p ∧ onPipe h (Pipe.enter .send) u = .ok () u' ∧
    Sends env (Marshal.walk env room) h element site.inside u' chunks v

theorem Opened.moved {room : Nat} (hopened : Opened env room h element site s p chunks v) :
    ¬p.Blocked .send ∧ (∀ chunk ∈ chunks, chunk ≠ []) ∧
      ∃ q, v.pipes[h]? = some q ∧ (p.toward .send).Moved chunks chunks [] q := by
  obtain ⟨u, u', -, hu, henter, hsends⟩ := hopened
  have hlands := lands_onPipe hu (Pipe.lands_enter .send p)
  rw [henter] at hlands
  obtain ⟨_, ⟨hblocked, rfl⟩, rfl⟩ := hlands
  exact ⟨hblocked, (hsends.moved (pipeless_inside env room element site) (getElem?_setPipe hu)).2⟩

/-- What writing does to the pipe `p` under a handle, between two states, the second of which may be
that of a fault: nothing; or it sends a stream up to an empty chunk; or it fails with a chunk. -/
inductive Passage (env : Env) (h : PipeHandle) (s : State) (p : Pipe) :
    Option Fault → State → List (List Value) → Pipe → Prop where
  | apart (e : Option Fault) (t : State) : Passage env h s p e t [] p
  | whole {room : Nat} {element : Descriptor} {site : Site Scope} {v w t : State} {q : Pipe}
      {chunks : List (List Value)} (e : Option Fault)
      (opened : Opened env room h element site s p chunks v)
      (last : sendChunk env (Marshal.walk env room) h element site.inside v = .ok [] w)
      (held : w.pipes[h]? = some q) (before : w.Before t) :
      Passage env h s p e t (chunks ++ [[]]) q.finish
  | broken {room : Nat} {element : Descriptor} {site : Site Scope} {v w t : State} {q : Pipe}
      {chunks : List (List Value)} {e : Fault}
      (opened : Opened env room h element site s p chunks v)
      (last : sendChunk env (Marshal.walk env room) h element site.inside v = .error e w)
      (held : w.pipes[h]? = some q) (before : w.Before t) :
      Passage env h s p (some e) t chunks q

namespace Passage

theorem earlier (hst : s.Before t) (h' : Passage env h t p e u chunks q) :
    Passage env h s p e u chunks q := by
  have hopened : ∀ {room element site chunks v}, Opened env room h element site t p chunks v →
      Opened env room h element site s p chunks v := by
    rintro _ _ _ _ _ ⟨u, u', hu, hopened⟩
    exact ⟨u, u', hst.trans hu, hopened⟩
  cases h' with
  | apart => exact .apart _ _
  | whole e opened last held before => exact .whole e (hopened opened) last held before
  | broken opened last held before => exact .broken (hopened opened) last held before

theorem later (h' : Passage env h s p e t chunks q) (htu : t.Before u) :
    Passage env h s p e u chunks q := by
  cases h' with
  | apart => exact .apart _ _
  | whole e opened last held before => exact .whole e opened last held (before.trans htu)
  | broken opened last held before => exact .broken opened last held (before.trans htu)

/-- The pipe says what went through. -/
theorem passes (h' : Passage env h s p e t chunks q) : p.Passes .send chunks q := by
  cases h' with
  | apart => exact .inl ⟨rfl, rfl⟩
  | @whole room element site _ _ _ q chunks _ opened last held _ =>
    obtain ⟨hblocked, hfull, r, hr, hmoved⟩ := opened.moved
    have hlands := lands_sendChunk env (pipeless_inside env room element site) hr
    rw [last] at hlands
    obtain ⟨-, q', hq', hlast, -⟩ := hlands
    obtain rfl := Option.some.inj (held.symm.trans hq')
    have hall := hmoved.trans hlast
    exact .inr {
      unblocked := hblocked
      application := hall.application
      direction := hall.direction
      transferred := hall.transferred
      finished := by simp [Pipe.finish]
      events := hall.events
      handedOver := fun _ => ⟨hall.pushed.trans (List.append_nil _), [], Nat.zero_le _,
        hall.pulled.trans (List.append_nil _).symm⟩
      taken := fun h => absurd h (by simp) }
  | @broken room element site _ _ _ q chunks _ opened last held _ =>
    obtain ⟨hblocked, hfull, r, hr, hmoved⟩ := opened.moved
    have hlands := lands_sendChunk env (pipeless_inside env room element site) hr
    rw [last] at hlands
    obtain ⟨-, broken, q', hbroken, hq', hlast⟩ := hlands
    obtain rfl := Option.some.inj (held.symm.trans hq')
    have hall := hmoved.trans hlast
    rw [List.append_nil] at hall
    exact .inr {
      unblocked := hblocked
      application := hall.application
      direction := hall.direction
      transferred := hall.transferred
      finished := by
        rw [hall.finished, show (p.toward .send).finished = p.finished from rfl,
          Pipe.not_finished_of_not_blocked hblocked]
        refine iff_of_false (by simp) fun hlast => ?_
        exact hfull [] (List.mem_of_getLast? hlast) rfl
      events := hall.events
      handedOver := fun _ => ⟨hall.pushed.trans (List.append_nil _), broken, hbroken,
        hall.pulled.trans (List.append_assoc _ _ _).symm⟩
      taken := fun h => absurd h (by simp) }

/-- What two steps do in turn. A pipe whose stream is over is not used again. -/
theorem trans (h₁ : Passage env h s p none t chunks q) (hst : s.Before t)
    (h₂ : Passage env h t q e u chunks' r) (htu : t.Before u) :
    ∃ chunks, Passage env h s p e u chunks r := by
  cases h₁ with
  | apart => exact ⟨_, h₂.earlier hst⟩
  | @whole _ _ _ _ _ _ q _ _ opened last held before =>
    have hblocked : q.finish.Blocked .send := .inl rfl
    obtain ⟨-, rfl⟩ := h₂.passes.of_blocked hblocked
    exact ⟨_, .whole e opened last held (before.trans htu)⟩

end Passage

/-! ### Operations -/

/-- A later state, and what was done to the pipe under `h`. -/
def Served (env : Env) (h : PipeHandle) (s : State) (e : Option Fault) (t : State) : Prop :=
  ∀ p, s.pipes[h]? = some p →
    s.Before t ∧ ∃ chunks q, t.pipes[h]? = some q ∧ Passage env h s p e t chunks q

theorem Served.of_same (hst : s.Before t) (hp : t.pipes[h]? = s.pipes[h]?) (e : Option Fault) :
    Served env h s e t := fun p hs => ⟨hst, [], p, hp.trans hs, .apart e t⟩

theorem Served.of_passage (hp : s.pipes[h]? = some p) (hst : s.Before t) (hq : t.pipes[h]? = some q)
    (h' : Passage env h s p e t chunks q) : Served env h s e t := fun _ hs =>
  ⟨hst, chunks, q, hq, Option.some.inj (hp.symm.trans hs) ▸ h'⟩

theorem Served.trans (h₁ : Served env h s none t) (h₂ : Served env h t e u) : Served env h s e u := by
  intro p hp
  obtain ⟨hst, _, q, hq, hfirst⟩ := h₁ p hp
  obtain ⟨htu, _, r, hr, hrest⟩ := h₂ q hq
  obtain ⟨chunks, hall⟩ := hfirst.trans hst hrest htu
  exact ⟨hst.trans htu, chunks, r, hr, hall⟩

/-- A call is recorded at the end. -/
theorem Served.record (h' : Served env h s e t) (c : Routine.Call) :
    Served env h s e { t with calls := c :: t.calls } := by
  intro p hp
  obtain ⟨hst, chunks, q, hq, hpassage⟩ := h' p hp
  have hcall : t.Before { t with calls := c :: t.calls } := ⟨List.suffix_cons _ _, List.prefix_rfl⟩
  exact ⟨hst.trans hcall, chunks, q, hq, hpassage.later hcall⟩

/-- An action that does one of the three things to the pipe under `h`. -/
abbrev Serves (env : Env) (h : PipeHandle) (x : Marshalling α) : Prop := Proceeds (Served env h) x

/-- Only where there is a pipe something is said of it. -/
theorem serves_of_held {x : Marshalling α} (hx : ∀ s p, s.pipes[h]? = some p →
    Lands (fun _ t => Served env h s none t) (fun e t => Served env h s (some e) t) (x s)) :
    Serves env h x := by
  intro s
  cases hp : s.pipes[h]? with
  | some p => exact hx s p hp
  | none =>
    have hnone : ∀ e t, Served env h s e t := fun _ _ p hs => absurd (hp.symm.trans hs) (by simp)
    cases x s with
    | ok a t => exact hnone _ _
    | error f t => exact hnone _ _

theorem serves_of_pipeless {x : Marshalling α} (hx : Pipeless x) : Serves env h x := fun s =>
  (lands_of_pipeless hx s).mono (fun _ _ ht => .of_same ht.toBefore (by rw [ht.pipes]) _)
    fun _ _ ht => .of_same ht.toBefore (by rw [ht.pipes]) _

theorem relates_serves (env : Env) (h : PipeHandle) :
    RelatesPointers env env (fun _ => True) fun x _ => Serves env h x where
  pure a := serves_of_pipeless ((relates_pipeless env).pure a)
  throw e := serves_of_pipeless ((relates_pipeless env).throw e)
  bind := .bind .trans
  align n := serves_of_pipeless ((relates_pipeless env).align n)
  count v := serves_of_pipeless ((relates_pipeless env).count v)
  shortCount v := serves_of_pipeless ((relates_pipeless env).shortCount v)
  scalar kind v := serves_of_pipeless ((relates_pipeless env).scalar kind v)
  run bytes := serves_of_pipeless ((relates_pipeless env).run bytes)
  token u := serves_of_pipeless ((relates_pipeless env).token u)
  call c := serves_of_pipeless ((relates_pipeless env).call c)
  recorded c := Proceeds.tryFinally_modify fun hs => hs.record c
  seeCalls hf s := hf s.calls s
  sight c := serves_of_pipeless ((relates_pipeless env).sight c)
  defer hd := serves_of_pipeless ((relates_pipeless env).defer hd)
  takeDeferred hf := .bind .trans
    (serves_of_pipeless pipeless_takeDeferred) fun ds => hf ds fun _ _ => trivial

/-- A stream of the pipe itself. -/
theorem serves_putStream (room : Nat) (element : Descriptor) (site : Site Scope) :
    Serves env h (putStream env (Marshal.walk env room) h element site.inside) := by
  have hw := pipeless_inside env room element site
  refine serves_of_held fun s p hp => ?_
  have hlands := lands_onPipe hp (Pipe.lands_enter .send p)
  unfold putStream
  cases henter : onPipe h (Pipe.enter .send) s with
  | error e t =>
    rw [henter] at hlands
    obtain ⟨_, ⟨-, -, rfl⟩, rfl⟩ := hlands
    rw [bind_of_error henter]
    exact .of_same (before_setPipe s h _) ((getElem?_setPipe hp).trans hp.symm) _
  | ok a t =>
    rw [henter] at hlands
    obtain ⟨_, ⟨-, rfl⟩, rfl⟩ := hlands
    have hset : (s.setPipe h (p.toward .send)).pipes[h]? = some (p.toward .send) :=
      getElem?_setPipe hp
    have hpending : onPipe h (do return (← get).pending.length) (s.setPipe h (p.toward .send))
        = .ok p.pending.length (s.setPipe h (p.toward .send)) :=
      (onPipe_eq_ok hset).2 ⟨p.toward .send, rfl, setPipe_setPipe s h _ _⟩
    rw [bind_of_ok henter, bind_of_ok hpending]
    have hstart := before_setPipe s h (p.toward .send)
    have hopened : ∀ {chunks v}, Sends env (Marshal.walk env room) h element site.inside
        (s.setPipe h (p.toward .send)) chunks v → Opened env room h element site s p chunks v :=
      fun hsends => ⟨s, _, .refl s, hp, henter, hsends⟩
    refine (lands_putPieces env hw hset (Nat.lt_succ_self _)).mono ?_ ?_
    · rintro _ _ ⟨chunks, v, w, q, hsends, hlast, hq, rfl⟩
      obtain ⟨hsv, -, _, hv, -⟩ := hsends.moved hw hset
      have hsend := lands_sendChunk env hw hv
      rw [hlast] at hsend
      exact .of_passage hp ((hstart.trans (hsv.trans hsend.1)).trans (before_setPipe w h _))
        (getElem?_setPipe hq) (.whole _ (hopened hsends) hlast hq (before_setPipe w h _))
    · rintro e t ⟨chunks, v, hsends, hlast⟩
      obtain ⟨hsv, -, _, hv, -⟩ := hsends.moved hw hset
      have hsend := lands_sendChunk env hw hv
      rw [hlast] at hsend
      obtain ⟨hvt, -, r, -, hr, -⟩ := hsend
      exact .of_passage hp (hstart.trans (hsv.trans hvt)) hr
        (.broken (hopened hsends) hlast hr (.refl t))

/-- A step of another pipe. -/
theorem serves_onPipe_ne {h' : PipeHandle} (hne : h' ≠ h) (x : EStateM Fault Pipe α) :
    Serves env h (onPipe h' x) := by
  intro s
  have hends := ends_onPipe_ne hne x s
  cases e : onPipe h' x s with
  | ok a t => rw [e] at hends; exact .of_same hends.1.1 hends.1.2 _
  | error f t => rw [e] at hends; exact .of_same hends.1 hends.2 _

/-- **What an operation does to a pipe**, wherever it fails: one of the three things. -/
theorem serves_putParameters (env : Env) (h : PipeHandle) (offset : Nat) (params : List Value) :
    Serves env h (putParameters env offset params) := by
  have hR := relates_serves env h
  refine operation_of_streams hR (fun room hw k d site => ?_) offset params
  by_cases hk : k = h
  · exact hk ▸ serves_putStream room d site
  · have honPipe : ∀ {α : Type} (x : EStateM Fault Pipe α), Serves env h (onPipe k x) :=
      serves_onPipe_ne hk
    exact .bind .trans (honPipe _) fun _ => .bind .trans (honPipe _) fun pending =>
      hR.toRelatesPlain.putPieces (relatesWalks hw) (.refl env) trivial honPipe _

end Ndr.Marshal
