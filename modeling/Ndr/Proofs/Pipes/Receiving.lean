import Ndr.Proofs.Pipes.Order
import Ndr.Proofs.Pipes.Steps

/-!
The pipe under one handle while an operation reads. The operation may fail at any point; what it did
to the pipe is then one of three things: it did not use it, its application took a whole stream, the
empty chunk behind the count of zero included, or its application took some chunks and the operation
failed before the stream was over.
-/

namespace Ndr.Unmarshal

variable {env : Env} {h : PipeHandle} {s t u v w : State} {p q r : Pipe} {e : Option Fault}
  {chunks chunks' : List (List Value)} {walk : Walk} {element : Descriptor} {site : Site ScopeId}
  {fuel n : Nat} {α : Type}

/-! ### Values -/

theorem pipeless_getDeleted (env : Env) : Pipeless (getDeleted env) :=
  (relates_pipeless env).getDeleted fun _ =>
    pipeless_modify (fun _ => rfl) (fun _ => List.suffix_rfl) fun _ => rfl

/-- No value reaches a pipe: pipes are parameters. -/
theorem pipeless_walk (env : Env) (room : Nat) (d : Descriptor) (site : Site ScopeId) :
    Pipeless (Unmarshal.walk env room d site) := by
  have hR := relates_pipeless env
  exact hR.toRelatesPlain.walk (N := fun _ => True) (.refl env _) (TypeVector.closed_true _)
    (fun _ _ => pipeless_getDeleted env)
    (fun hw _ _ _ _ _ _ _ => hR.getPointer hw (.refl env) trivial rfl (fun _ _ => trivial) _ _)
    room d trivial site

/-! ### Steps of a pipe -/

theorem getElem?_setPipe_ne {h' : PipeHandle} (hne : h' ≠ h) :
    (s.setPipe h' q).pipes[h]? = s.pipes[h]? := by
  simp [State.setPipe, hne]

/-- A step of the pipe under `h` ends as its action on that pipe. -/
theorem lands_onPipe {x : EStateM Fault Pipe α} {P : α → Pipe → Prop} {J : Fault → Pipe → Prop}
    (hp : s.pipes[h]? = some p) (hx : Lands P J (x p)) :
    Lands (fun a t => ∃ q, P a q ∧ t = s.setPipe h q) (fun e t => ∃ q, J e q ∧ t = s.setPipe h q)
      (onPipe h x s) := by
  unfold onPipe onPart Pipe.under
  simp only [hp]
  unfold onPart
  cases e : x p with
  | ok a q => rw [e] at hx; exact ⟨q, hx, rfl⟩
  | error f q => rw [e] at hx; exact ⟨q, hx, rfl⟩

theorem onPipe_modify (f : Pipe → Pipe) (hp : s.pipes[h]? = some p) :
    onPipe h (modify f) s = .ok ⟨⟩ (s.setPipe h (f p)) :=
  (onPipe_eq_ok hp).2 ⟨f p, modify_eq_ok.2 rfl, rfl⟩

theorem before_setPipe (s : State) (h : PipeHandle) (q : Pipe) : s.Before (s.setPipe h q) :=
  ⟨List.suffix_rfl, .refl _⟩

/-- A step of another pipe leaves the pipe under `h` as it is. -/
theorem ends_onPipe_ne {h' : PipeHandle} (hne : h' ≠ h) (x : EStateM Fault Pipe α) (s : State) :
    Ends (fun t => s.Before t ∧ t.pipes[h]? = s.pipes[h]?) (fun _ => True) (onPipe h' x s) := by
  unfold onPipe onPart Pipe.under
  cases hp : s.pipes[h']? with
  | none => exact ⟨.refl s, rfl⟩
  | some p =>
    dsimp only
    unfold onPart
    cases x p with
    | ok a q => exact ⟨⟨before_setPipe s h' q, getElem?_setPipe_ne hne⟩, trivial⟩
    | error e q => exact ⟨before_setPipe s h' q, getElem?_setPipe_ne hne⟩

theorem lands_of_pipeless {x : Unmarshalling α} (hx : Pipeless x) (s : State) :
    Lands (fun _ t => s.Onward t) (fun _ t => s.Onward t) (x s) := by
  have hends := hx s s ⟨.refl s, rfl⟩
  cases e : x s with
  | ok a t => rw [e] at hends; exact hends.1
  | error f t => rw [e] at hends; exact hends

/-! ### Chunks -/

/-- Between two states the application of the pipe `p` took chunks, none of them empty, and all their
elements were counted. -/
structure Gathers (h : PipeHandle) (s : State) (p : Pipe) (chunks : List (List Value)) (t : State)
    (q : Pipe) : Prop where
  before : s.Before t
  held : t.pipes[h]? = some q
  moved : p.Moved chunks [] chunks q
  full : ∀ chunk ∈ chunks, chunk ≠ []

theorem Gathers.refl (hp : s.pipes[h]? = some p) : Gathers h s p [] s p :=
  ⟨.refl s, hp, .refl p, by simp⟩

theorem Gathers.trans (h₁ : Gathers h s p chunks t q) (h₂ : Gathers h t q chunks' u r) :
    Gathers h s p (chunks ++ chunks') u r :=
  ⟨h₁.before.trans h₂.before, h₂.held, h₁.moved.trans h₂.moved, fun chunk hc =>
    (List.mem_append.1 hc).elim (h₁.full chunk) (h₂.full chunk)⟩

theorem Gathers.onward (h' : Gathers h s p chunks t q) (htu : t.Onward u) : Gathers h s p chunks u q :=
  ⟨h'.before.trans htu.toBefore, htu.pipes ▸ h'.held, h'.moved, h'.full⟩

/-- The elements of a chunk of the message are taken in chunks for which there is room. -/
theorem lands_getPiece (hw : Pipeless (walk element site)) (fuel n : Nat)
    (hp : s.pipes[h]? = some p) :
    Lands (fun _ t => ∃ chunks q, Gathers h s p chunks t q)
      (fun _ t => ∃ chunks q, Gathers h s p chunks t q) (getPiece walk h element site fuel n s) := by
  induction fuel generalizing n s p with
  | zero => cases n <;> exact ⟨[], p, .refl hp⟩
  | succ fuel ih =>
    cases n with
    | zero => exact ⟨[], p, .refl hp⟩
    | succ n =>
      refine ((lands_onPipe hp (Pipe.lands_ask (n + 1) p)).mono (fun _ _ h => h)
        fun _ _ ⟨_, hfalse, _⟩ => hfalse.elim).bind ?_
      rintro granted _ ⟨q, ⟨hq, -⟩, rfl⟩
      have hasked : Gathers h s p [] (s.setPipe h q) q :=
        ⟨before_setPipe s h q, getElem?_setPipe hp, hq, by simp⟩
      have helements := lands_of_pipeless (x := repeatM (min (max granted 1) (n + 1)) (walk element site))
        (fun start => Keeps.repeatM (hw start) _) (s.setPipe h q)
      have hlength : ∀ piece t, repeatM (min (max granted 1) (n + 1)) (walk element site)
          (s.setPipe h q) = .ok piece t → piece.length = min (max granted 1) (n + 1) :=
        fun piece t e => ((Keeps.repeatM_all (Keeps.ofTrue _) _).ok trivial e).2.1
      cases e : repeatM (min (max granted 1) (n + 1)) (walk element site) (s.setPipe h q) with
      | error f t =>
        rw [e] at helements
        rw [bind_of_error e]
        exact ⟨[], q, hasked.onward helements⟩
      | ok piece t =>
        rw [e] at helements
        rw [bind_of_ok e]
        have hread := hasked.onward helements
        have hpiece := hlength piece t e
        rw [← hpiece]
        refine ((lands_onPipe hread.held (Pipe.lands_push piece q)).mono (fun _ _ h => h) ?_).bind ?_
        · rintro f _ ⟨r, hr, rfl⟩
          exact ⟨[], r, hread.before.trans (before_setPipe t h r), getElem?_setPipe hread.held,
            hread.moved.trans hr, by simp⟩
        rintro _ _ ⟨r, hr, rfl⟩
        have hheld : (t.setPipe h r).pipes[h]? = some r := getElem?_setPipe hread.held
        rw [bind_of_ok (onPipe_modify (·.advance piece.length) hheld), setPipe_setPipe]
        have htaken : Gathers h s p [piece] (t.setPipe h (r.advance piece.length))
            (r.advance piece.length) := by
          refine ⟨hread.before.trans (before_setPipe t h _), getElem?_setPipe hread.held,
            (hread.moved.trans hr).trans (Pipe.moved_advance r piece), ?_⟩
          rintro _ hmem rfl
          have := List.mem_singleton.1 hmem ▸ hpiece
          simp only [List.length_nil] at this
          omega
        refine (ih _ htaken.held).mono ?_ ?_
        · rintro _ u ⟨chunks, r', hrest⟩
          exact ⟨_, r', htaken.trans hrest⟩
        · rintro _ u ⟨chunks, r', hrest⟩
          exact ⟨_, r', htaken.trans hrest⟩

/-! ### Streams -/

/-- Chunks are taken until, behind `v`, a count of zero is read and the application takes the empty
chunk. -/
structure Closes (env : Env) (h : PipeHandle) (s : State) (p : Pipe) (chunks : List (List Value))
    (w : State) (q : Pipe) : Prop where
  gathers : ∃ v, Gathers h s p chunks v q ∧ getCount env v = .ok 0 w
  held : w.pipes[h]? = some q
  accepted : q.application.accept q.history [] = .ok ()

/-- The chunks of a message are taken up to the empty one, or up to a fault. -/
theorem lands_getPieces (env : Env) (hw : Pipeless (walk element site))
    (hspends : ∀ d site, Spends 0 (walk d site)) (hp : s.pipes[h]? = some p)
    (hfuel : s.reader.rest.length < fuel) :
    Lands (fun _ t => ∃ chunks w q, Closes env h s p chunks w q ∧
        t = w.setPipe h (q.record (.pushed [])).finish)
      (fun _ t => ∃ chunks q, Gathers h s p chunks t q)
      (getPieces env walk h element site fuel s) := by
  induction fuel generalizing s p with
  | zero => exact absurd hfuel (Nat.not_lt_zero _)
  | succ fuel ih =>
    have hcount := lands_of_pipeless ((relates_pipeless env).count) s
    unfold getPieces
    cases ecount : getCount env s with
    | error e t =>
      rw [ecount] at hcount
      rw [bind_of_error ecount]
      exact ⟨[], p, (Gathers.refl hp).onward hcount⟩
    | ok n t =>
      rw [ecount] at hcount
      rw [bind_of_ok ecount]
      have hread : Gathers h s p [] t p := (Gathers.refl hp).onward hcount
      split
      · rename_i hn
        subst hn
        have hpush := lands_onPipe hread.held (Pipe.lands_push [] p)
        cases epush : onPipe h (Pipe.push []) t with
        | error e u =>
          rw [epush] at hpush
          obtain ⟨q, hq, rfl⟩ := hpush
          rw [bind_of_error epush]
          exact ⟨[], q, hread.before.trans (before_setPipe t h q), getElem?_setPipe hread.held,
            hq, by simp⟩
        | ok a u =>
          obtain ⟨q, hq, rfl⟩ := (onPipe_eq_ok hread.held).1 epush
          obtain ⟨haccept, rfl⟩ := Pipe.push_eq_ok.1 hq
          rw [bind_of_ok epush, onPipe_modify Pipe.finish (getElem?_setPipe hread.held),
            setPipe_setPipe]
          exact ⟨[], t, p, ⟨⟨s, .refl hp, ecount⟩, hread.held, haccept⟩, rfl⟩
      · cases hc : checkCount env n with
        | error e => exact ⟨[], p, hread⟩
        | ok =>
          show Lands _ _ ((getPiece walk h element site n n >>= fun _ =>
            getPieces env walk h element site fuel) t)
          have hpiece := lands_getPiece hw n n hread.held
          cases epiece : getPiece walk h element site n n t with
          | error e u =>
            rw [epiece] at hpiece
            obtain ⟨chunks, q, hchunks⟩ := hpiece
            rw [bind_of_error epiece]
            exact ⟨_, q, hread.trans hchunks⟩
          | ok a u =>
            rw [epiece] at hpiece
            obtain ⟨chunks, q, hchunks⟩ := hpiece
            have hless := (rest_getCount ecount).1
            have hmore := ((composes_spends env).getPiece hspends h element site n n epiece).rest
            have htaken := hread.trans hchunks
            rw [bind_of_ok epiece]
            refine (ih htaken.held (by omega)).mono ?_ ?_
            · rintro _ _ ⟨rest, w, r, ⟨⟨v, hrest, hzero⟩, hheld, haccept⟩, rfl⟩
              exact ⟨_, w, r, ⟨⟨v, htaken.trans hrest, hzero⟩, hheld, haccept⟩, rfl⟩
            · rintro _ _ ⟨rest, r, hrest⟩
              exact ⟨_, r, htaken.trans hrest⟩

/-- What reading does to the pipe `p` under a handle, between two states, the second of which may be
that of a fault: nothing; or a stream goes through up to its empty chunk; or only some chunks do. -/
inductive Passage (env : Env) (h : PipeHandle) (s : State) (p : Pipe) :
    Option Fault → State → List (List Value) → Pipe → Prop where
  | apart (e : Option Fault) (t : State) : Passage env h s p e t [] p
  | whole {u w t : State} {q : Pipe} {chunks : List (List Value)} (e : Option Fault)
      (start : s.Before u) (unblocked : ¬p.Blocked .receive)
      (closes : Closes env h u (p.toward .receive) chunks w q) (before : w.Before t) :
      Passage env h s p e t (chunks ++ [[]]) (q.record (.pushed [])).finish
  | broken {u v t : State} {q : Pipe} {chunks : List (List Value)} (e : Fault)
      (start : s.Before u) (unblocked : ¬p.Blocked .receive)
      (gathers : Gathers h u (p.toward .receive) chunks v q) (before : v.Before t) :
      Passage env h s p (some e) t chunks q

namespace Passage

theorem earlier (hst : s.Before t) (h' : Passage env h t p e u chunks q) :
    Passage env h s p e u chunks q := by
  cases h' with
  | apart => exact .apart _ _
  | whole e start unblocked closes before => exact .whole e (hst.trans start) unblocked closes before
  | broken e start unblocked gathers before => exact .broken e (hst.trans start) unblocked gathers before

/-- The pipe says what went through. -/
theorem passes (h' : Passage env h s p e t chunks q) : p.Passes .receive chunks q := by
  cases h' with
  | apart => exact .inl ⟨rfl, rfl⟩
  | @whole _ _ _ q chunks _ _ unblocked closes _ =>
    obtain ⟨v, hgathers, -⟩ := closes.gathers
    have hall := (hgathers.moved.trans (Pipe.moved_record q (.pushed []))).trans
      (Pipe.moved_advance _ [])
    rw [List.append_nil] at hall
    exact .inr {
      unblocked
      application := hall.application
      direction := hall.direction
      transferred := hall.transferred
      finished := by simp [Pipe.finish]
      events := hall.events
      handedOver := fun h => absurd h (by simp)
      taken := fun _ => ⟨hall.pulled.trans (List.append_nil _),
        hall.pushed.trans (by rw [List.append_nil]; rfl)⟩ }
  | broken e _ unblocked gathers _ =>
    have hall := gathers.moved
    exact .inr {
      unblocked
      application := hall.application
      direction := hall.direction
      transferred := hall.transferred
      finished := by
        rw [hall.finished, show (p.toward .receive).finished = p.finished from rfl,
          Pipe.not_finished_of_not_blocked unblocked]
        refine iff_of_false (by simp) fun hlast => ?_
        exact gathers.full [] (List.mem_of_getLast? hlast) rfl
      events := hall.events
      handedOver := fun h => absurd h (by simp)
      taken := fun _ => ⟨hall.pulled.trans (List.append_nil _), hall.pushed⟩ }

/-- What two steps do in turn. A pipe whose stream is over is not used again. -/
theorem trans (h₁ : Passage env h s p none t chunks q) (hst : s.Before t)
    (h₂ : Passage env h t q e u chunks' r) (htu : t.Before u) :
    ∃ chunks, Passage env h s p e u chunks r := by
  cases h₁ with
  | apart => exact ⟨_, h₂.earlier hst⟩
  | @whole _ _ _ q _ _ start unblocked closes before =>
    have hblocked : (q.record (.pushed [])).finish.Blocked .receive := .inl rfl
    obtain ⟨-, rfl⟩ := h₂.passes.of_blocked hblocked
    exact ⟨_, .whole e start unblocked closes (before.trans htu)⟩

end Passage

/-! ### Operations -/

/-- A later state, and what was done to the pipe under `h`. -/
def Served (env : Env) (h : PipeHandle) (s : State) (e : Option Fault) (t : State) : Prop :=
  ∀ p, s.pipes[h]? = some p →
    s.Before t ∧ ∃ chunks q, t.pipes[h]? = some q ∧ Passage env h s p e t chunks q

theorem Served.of_same (hst : s.Before t) (hp : t.pipes[h]? = s.pipes[h]?) (e : Option Fault) :
    Served env h s e t := fun p hs => ⟨hst, [], p, hp.trans hs, .apart e t⟩

theorem Served.of_passage (hp : s.pipes[h]? = some p) (hst : s.Before t) (hq : t.pipes[h]? = some q)
    (h' : Passage env h s p e t chunks q) : Served env h s e t := fun _ hs =>
  ⟨hst, chunks, q, hq, Option.some.inj (hp.symm.trans hs) ▸ h'⟩

theorem Served.trans (h₁ : Served env h s none t) (h₂ : Served env h t e u) : Served env h s e u := by
  intro p hp
  obtain ⟨hst, _, q, hq, hfirst⟩ := h₁ p hp
  obtain ⟨htu, _, r, hr, hrest⟩ := h₂ q hq
  obtain ⟨chunks, hall⟩ := hfirst.trans hst hrest htu
  exact ⟨hst.trans htu, chunks, r, hr, hall⟩

/-- An action that does one of the three things to the pipe under `h`. -/
abbrev Serves (env : Env) (h : PipeHandle) (x : Unmarshalling α) : Prop := Proceeds (Served env h) x

/-- Only where there is a pipe something is said of it. -/
theorem serves_of_held {x : Unmarshalling α} (hx : ∀ s p, s.pipes[h]? = some p →
    Lands (fun _ t => Served env h s none t) (fun e t => Served env h s (some e) t) (x s)) :
    Serves env h x := by
  intro s
  cases hp : s.pipes[h]? with
  | some p => exact hx s p hp
  | none =>
    have hnone : ∀ e t, Served env h s e t := fun _ _ p hs => absurd (hp.symm.trans hs) (by simp)
    cases x s with
    | ok a t => exact hnone _ _
    | error f t => exact hnone _ _

theorem serves_of_pipeless {x : Unmarshalling α} (hx : Pipeless x) : Serves env h x := fun s =>
  (lands_of_pipeless hx s).mono (fun _ _ ht => .of_same ht.toBefore (by rw [ht.pipes]) _)
    fun _ _ ht => .of_same ht.toBefore (by rw [ht.pipes]) _

theorem relates_serves (env : Env) (h : PipeHandle) :
    RelatesPointers env (fun _ => True) (fun _ => True) fun x _ => Serves env h x where
  pure a := serves_of_pipeless ((relates_pipeless env).pure a)
  throw e := serves_of_pipeless ((relates_pipeless env).throw e)
  bind := .bind .trans
  align n := serves_of_pipeless ((relates_pipeless env).align n)
  count := serves_of_pipeless (relates_pipeless env).count
  shortCount := serves_of_pipeless (relates_pipeless env).shortCount
  scalar kind := serves_of_pipeless ((relates_pipeless env).scalar kind)
  run n := serves_of_pipeless ((relates_pipeless env).run n)
  context direction current := serves_of_pipeless ((relates_pipeless env).context direction current)
  call c := serves_of_pipeless ((relates_pipeless env).call c)
  openScope scope := serves_of_pipeless ((relates_pipeless env).openScope scope)
  setField id field v := serves_of_pipeless ((relates_pipeless env).setField id field v)
  scopeOf id := serves_of_pipeless ((relates_pipeless env).scopeOf id)
  keepLate c scope := serves_of_pipeless ((relates_pipeless env).keepLate c scope)
  verifyLate scope := serves_of_pipeless ((relates_pipeless env).verifyLate scope)
  seeHeap hf s := hf s.heap s
  seeCalls hf s := hf s.calls s
  store hc v := serves_of_pipeless ((relates_pipeless env).store hc v)
  takeDeferred hf := .bind .trans
    (serves_of_pipeless pipeless_takeDeferred) fun ds => hf ds fun _ _ => ⟨trivial, trivial⟩
  allocate hf := .bind .trans
    (serves_of_pipeless pipeless_allocate) fun c => hf c trivial
  register id c := serves_of_pipeless ((relates_pipeless env).register id c)
  sight p := serves_of_pipeless ((relates_pipeless env).sight p)
  defer hc hM := serves_of_pipeless ((relates_pipeless env).defer hc hM)
  seeNodes hf s := hf s.nodes s

/-- A stream of the pipe itself. -/
theorem serves_getStream (room : Nat) (element : Descriptor) (site : Site ScopeId) :
    Serves env h (getStream env (Unmarshal.walk env room) h element site) := by
  refine serves_of_held fun s p hp => ?_
  have hlands := lands_onPipe hp (Pipe.lands_enter .receive p)
  unfold getStream
  cases henter : onPipe h (Pipe.enter .receive) s with
  | error e t =>
    rw [henter] at hlands
    obtain ⟨_, ⟨-, -, rfl⟩, rfl⟩ := hlands
    rw [bind_of_error henter]
    exact .of_same (before_setPipe s h _) ((getElem?_setPipe hp).trans hp.symm) _
  | ok a t =>
    rw [henter] at hlands
    obtain ⟨_, ⟨hblocked, rfl⟩, rfl⟩ := hlands
    have hset : (s.setPipe h (p.toward .receive)).pipes[h]? = some (p.toward .receive) :=
      getElem?_setPipe hp
    have hstart := before_setPipe s h (p.toward .receive)
    have hpieces := lands_getPieces env (pipeless_walk env room element site)
      ((composesWalks_spends env).walk room) hset (Nat.lt_succ_self _)
    rw [bind_of_ok henter]
    refine Lands.bind (P := fun _ t => Served env h s none t) (hpieces.mono ?_ ?_)
      fun _ _ ht => ht
    · rintro _ _ ⟨chunks, w, q, hcloses, rfl⟩
      have hwu := before_setPipe w h (q.record (.pushed [])).finish
      obtain ⟨v, hgathers, hzero⟩ := hcloses.gathers
      have hcount := lands_of_pipeless ((relates_pipeless env).count) v
      rw [hzero] at hcount
      exact .of_passage hp
        (((hstart.trans hgathers.before).trans hcount.toBefore).trans hwu)
        (getElem?_setPipe hcloses.held) (.whole none hstart hblocked hcloses hwu)
    · rintro e t ⟨chunks, q, hgathers⟩
      exact .of_passage hp (hstart.trans hgathers.before) hgathers.held
        (.broken e hstart hblocked hgathers (.refl t))

/-- A step of another pipe. -/
theorem serves_onPipe_ne {h' : PipeHandle} (hne : h' ≠ h) (x : EStateM Fault Pipe α) :
    Serves env h (onPipe h' x) := by
  intro s
  have hends := ends_onPipe_ne hne x s
  cases e : onPipe h' x s with
  | ok a t => rw [e] at hends; exact .of_same hends.1.1 hends.1.2 _
  | error f t => rw [e] at hends; exact .of_same hends.1 hends.2 _

/-- **What an operation does to a pipe**, wherever it fails: one of the three things. -/
theorem serves_getParameters (env : Env) (h : PipeHandle) (offset : Nat) (params : List Value) :
    Serves env h (getParameters env offset params) := by
  have hR := relates_serves env h
  refine operation_of_streams hR (serves_of_pipeless (pipeless_getDeleted env))
    (fun hf s => hf s.reader.rest.length s) (fun room hw k d site => ?_) offset params
  by_cases hk : k = h
  · exact hk ▸ serves_getStream room d site.inside
  · have honPipe : ∀ {α : Type} (x : EStateM Fault Pipe α), Serves env h (onPipe k x) :=
      serves_onPipe_ne hk
    have hpieces : Serves env h (getAllPieces env (Unmarshal.walk env room) k d site.inside) := fun s =>
      hR.toRelatesPlain.getPieces (relatesWalks hw) (.refl env) honPipe trivial site.inside _ s
    exact .bind .trans (honPipe _) fun _ => .bind .trans hpieces fun _ => hR.pure _

end Ndr.Unmarshal
