import Ndr.Proofs.Lockstep.Element
import Ndr.Proofs.Record
import Ndr.Proofs.Unmarshal.Progress

/-!
Streams: the elements that the application of a pipe hands over piece by piece are those that its
partner's application takes, in order and once each, however both cut them into pieces.
-/

namespace Ndr

/-! ### What went through a pipe -/

namespace Pipe

def Event.pulled? : Event → Option (List Value)
  | pulled _ piece => some piece
  | _ => none

def Event.pushed? : Event → Option (List Value)
  | pushed piece => some piece
  | _ => none

def Event.granted? : Event → Option Nat
  | asked _ granted => some granted
  | _ => none

/-- The pieces that the application handed over, in order. -/
def pulled (p : Pipe) : List (List Value) := p.events.reverse.filterMap Event.pulled?

/-- The pieces that the application took, in order. -/
def pushed (p : Pipe) : List (List Value) := p.events.reverse.filterMap Event.pushed?

/-- The room that the application granted each time that it was asked, in order. -/
def granted (p : Pipe) : List Nat := p.events.reverse.filterMap Event.granted?

variable (p : Pipe) (e : Event)

@[simp]
theorem pulled_record : (p.record e).pulled = p.pulled ++ e.pulled?.toList := by
  cases h : e.pulled? <;> simp [pulled, events, record, History.record, List.filterMap_append, h]

@[simp]
theorem pushed_record : (p.record e).pushed = p.pushed ++ e.pushed?.toList := by
  cases h : e.pushed? <;> simp [pushed, events, record, History.record, List.filterMap_append, h]

@[simp]
theorem granted_record : (p.record e).granted = p.granted ++ e.granted?.toList := by
  cases h : e.granted? <;> simp [granted, events, record, History.record, List.filterMap_append, h]

/-- How far a pipe is: its direction, whether it is over, and how many elements went through. -/
structure Carried (direction : Direction) (ended : Bool) (count : Nat) (p : Pipe) : Prop where
  direction : p.direction = some direction
  finished : p.finished = ended
  transferred : p.transferred = count

variable {p} {p' : Pipe} {direction : Direction} {n count : Nat} {ended : Bool} {piece : List Value}

theorem Carried.record (h : p.Carried direction ended count) (e : Event) :
    (p.record e).Carried direction ended count :=
  ⟨h.direction, h.finished, h.transferred⟩

theorem Carried.advance (h : p.Carried direction ended count) (n : Nat) :
    (p.advance n).Carried direction ended (count + n) :=
  ⟨h.direction, h.finished, congrArg (· + n) h.transferred⟩

theorem Carried.finish (h : p.Carried direction ended count) : p.finish.Carried direction true count :=
  ⟨h.direction, rfl, h.transferred⟩

theorem under_eq_ok {α : Type} {h : PipeHandle} {x : EStateM Fault Pipe α} {a : α}
    {ps qs : Array Pipe} : under h x ps = .ok a qs ↔
      ∃ p p', ps[h]? = some p ∧ x p = .ok a p' ∧ ps.setIfInBounds h p' = qs := by
  unfold under
  cases ps[h]? with
  | none => simp
  | some p => simp [onPart_eq_ok]

theorem enter_eq_ok {u : Unit} : enter direction p = .ok u p' ↔ p.finished = false ∧
    (p.direction = none ∨ p.direction = some direction) ∧
      p' = { p with direction := some direction } := by
  unfold enter
  cases p.finished with
  | true => simp
  | false =>
    by_cases h : p.direction = none ∨ p.direction = some direction
    · simp [h, eq_comm]
    · simp [h]

theorem ask_eq_ok {granted : Nat} : ask n p = .ok granted p' ↔
    p.application.grant p.history n = granted ∧ p.record (.asked n granted) = p' := by
  unfold ask
  constructor
  · rintro ⟨⟩
    exact ⟨rfl, rfl⟩
  · rintro ⟨rfl, rfl⟩
    rfl

theorem push_eq_ok {u : Unit} : push piece p = .ok u p' ↔
    p.application.accept p.history piece = .ok () ∧ p.record (.pushed piece) = p' := by
  unfold push
  cases p.application.accept p.history piece with
  | error f => simp
  | ok => simp

/-! ### Both ends of a stream -/

/-- What is left of a pipe when its application has handed over a piece. -/
structure HandsOver (p : Pipe) (piece : List Value) (p' : Pipe) : Prop where
  pulled : p'.pulled = p.pulled ++ [piece]
  carried : ∀ {direction ended count}, p.Carried direction ended count →
    p'.Carried direction ended count
  pending : piece ≠ [] → p'.pending.length < p.pending.length

theorem HandsOver.of_asked {granted : Nat} (h : (p.record (.asked n granted)).HandsOver piece p') :
    p.HandsOver piece p' where
  pulled := by
    rw [h.pulled, pulled_record]
    exact congrArg (· ++ [piece]) (List.append_nil _)
  carried hp := h.carried (hp.record _)
  pending := h.pending

theorem handsOver_of_pull (h : pull n p = .ok piece p') : p.HandsOver piece p' := by
  unfold pull at h
  cases hcut : p.application.cut p.history n with
  | error f => simp [hcut] at h
  | ok k =>
    simp only [hcut] at h
    split at h
    · exact absurd h (by simp)
    · obtain ⟨rfl, rfl⟩ := EStateM.Result.ok.inj h
      refine ⟨pulled_record _ _, fun h => ⟨h.direction, h.finished, h.transferred⟩, fun hne => ?_⟩
      have hk : 0 < k := Nat.pos_of_ne_zero fun h0 => hne (by rw [h0, List.take_zero])
      have hpending : 0 < p.pending.length :=
        List.length_pos_of_ne_nil fun hnil => hne (by rw [hnil, List.take_nil])
      rw [List.length_drop]
      exact Nat.sub_lt hpending hk

/-- A pipe that is sending: it counts what was handed over, and no piece was empty. -/
structure Sending (p : Pipe) : Prop where
  full : ∀ piece ∈ p.pulled, piece ≠ []
  carried : p.Carried .send false p.pulled.flatten.length

/-- A pipe that has sent all of a stream: only the last piece was empty. -/
structure HasSent (p : Pipe) : Prop where
  pieces : ∃ pieces, p.pulled = pieces ++ [[]] ∧ ∀ piece ∈ pieces, piece ≠ []
  carried : p.Carried .send true p.pulled.flatten.length

/-- A piece that an application takes: it is not empty, and no larger than the room granted for it, which
counts as one element at least. -/
def Fits (piece : List Value) (granted : Nat) : Prop := piece ≠ [] ∧ piece.length ≤ max granted 1

/-- A pipe that is receiving: it counts what was taken, and every piece fits. -/
structure Receiving (p : Pipe) : Prop where
  fits : List.Forall₂ Fits p.pushed p.granted
  carried : p.Carried .receive false p.pushed.flatten.length
  accepts : ∀ history piece, p.application.accept history piece = .ok ()

/-- A pipe that has received all of a stream: only the last piece was empty, and the others fit. -/
structure HasReceived (p : Pipe) : Prop where
  pieces : ∃ pieces, p.pushed = pieces ++ [[]] ∧ List.Forall₂ Fits pieces p.granted
  carried : p.Carried .receive true p.pushed.flatten.length

/-- A stream that has come through: what was taken at one end is what was handed over at the other. -/
structure Delivers (p q : Pipe) : Prop where
  sent : p.HasSent
  received : q.HasReceived
  elements : q.pushed.flatten = p.pulled.flatten

theorem Sending.handsOver (h : p.Sending) (hp : p.HandsOver piece p') (hne : piece ≠ []) :
    (p'.advance piece.length).Sending where
  full a ha := by
    rw [show (p'.advance piece.length).pulled = p.pulled ++ [piece] from hp.pulled,
      List.mem_append, List.mem_singleton] at ha
    rcases ha with ha | rfl
    · exact h.full a ha
    · exact hne
  carried := by
    have hcount : (p'.advance piece.length).pulled.flatten.length
        = p.pulled.flatten.length + piece.length := by
      rw [show (p'.advance piece.length).pulled = p.pulled ++ [piece] from hp.pulled]
      simp
    rw [hcount]
    exact (hp.carried h.carried).advance _

theorem Sending.finish (h : p.Sending) (hp : p.HandsOver [] p') : p'.finish.HasSent where
  pieces := ⟨p.pulled, hp.pulled, h.full⟩
  carried := by
    have hcount : p'.finish.pulled.flatten.length = p.pulled.flatten.length := by
      rw [show p'.finish.pulled = p.pulled ++ [[]] from hp.pulled]
      simp
    rw [hcount]
    exact (hp.carried h.carried).finish

/-- The pipe when its application has taken a piece, for which it granted room. -/
def take (p : Pipe) (requested granted : Nat) (piece : List Value) : Pipe :=
  ((p.record (.asked requested granted)).record (.pushed piece)).advance piece.length

theorem pushed_take {granted : Nat} : (p.take n granted piece).pushed = p.pushed ++ [piece] := by
  show ((p.record (.asked n granted)).record (.pushed piece)).pushed = _
  rw [pushed_record, pushed_record]
  exact congrArg (· ++ [piece]) (List.append_nil _)

theorem granted_take {granted : Nat} :
    (p.take n granted piece).granted = p.granted ++ [granted] := by
  show ((p.record (.asked n granted)).record (.pushed piece)).granted = _
  rw [granted_record, granted_record]
  exact List.append_nil _

/-- A pipe goes on receiving when a piece was taken. -/
theorem Receiving.take (h : p.Receiving) {granted : Nat} (hpiece : Fits piece granted) :
    (p.take n granted piece).Receiving where
  fits := by
    rw [pushed_take, granted_take]
    exact List.rel_append h.fits (.cons hpiece .nil)
  carried := by
    have hcount : (p.pushed ++ [piece]).flatten.length = p.pushed.flatten.length + piece.length := by
      simp
    rw [pushed_take, hcount]
    exact ((h.carried.record _).record _).advance _
  accepts := h.accepts

theorem Receiving.finish (h : p.Receiving) : (p.record (.pushed [])).finish.HasReceived ∧
    (p.record (.pushed [])).finish.pushed.flatten = p.pushed.flatten := by
  have hpushed : (p.record (.pushed [])).finish.pushed = p.pushed ++ [[]] := pushed_record p _
  have hgranted : (p.record (.pushed [])).finish.granted = p.granted :=
    (granted_record p _).trans (List.append_nil _)
  have hflat : (p.pushed ++ [[]]).flatten = p.pushed.flatten := by simp
  refine ⟨⟨⟨p.pushed, hpushed, hgranted ▸ h.fits⟩, ?_⟩, by rw [hpushed, hflat]⟩
  rw [hpushed, hflat]
  exact (h.carried.record _).finish

end Pipe

/-! ### Writing -/

namespace Marshal

/-- The state with another pipe under a handle. -/
def State.setPipe (s : State) (h : PipeHandle) (p : Pipe) : State :=
  { s with pipes := s.pipes.setIfInBounds h p }

variable {env : Env} {walk : Walk} {element : Descriptor} {site : Site Scope} {h : PipeHandle}
  {s t : State} {p p' : Pipe} {fuel : Nat}

theorem onPipe_eq_ok {α : Type} {x : EStateM Fault Pipe α} {a : α} (hp : s.pipes[h]? = some p) :
    onPipe h x s = .ok a t ↔ ∃ p', x p = .ok a p' ∧ s.setPipe h p' = t := by
  unfold onPipe
  simp only [onPart_eq_ok, Pipe.under_eq_ok, hp, Option.some.injEq]
  constructor
  · rintro ⟨_, ⟨_, p', rfl, hx, rfl⟩, rfl⟩
    exact ⟨p', hx, rfl⟩
  · rintro ⟨p', hx, rfl⟩
    exact ⟨_, ⟨p, p', rfl, hx, rfl⟩, rfl⟩

theorem getElem?_setPipe (hp : s.pipes[h]? = some p) : (s.setPipe h p').pipes[h]? = some p' := by
  obtain ⟨hlt, -⟩ := Array.getElem?_eq_some_iff.1 hp
  simp [State.setPipe, hlt]

theorem setPipe_setPipe (s : State) (h : PipeHandle) (p p' : Pipe) :
    (s.setPipe h p).setPipe h p' = s.setPipe h p' := by
  simp [State.setPipe]

/-- What one piece of a pipe does: it is handed over, written behind its number, and counted. The empty
piece is the last. -/
structure Piece (env : Env) (walk : Walk) (h : PipeHandle) (element : Descriptor)
    (site : Site Scope) (fuel : Nat) (s t : State) (p : Pipe) (piece : List Value) (p' : Pipe)
    (s' : State) : Prop where
  handsOver : p.HandsOver piece p'
  fits : piece.length < 2 ^ 32
  written : (do putCount env piece.length; piece.forM fun v => walk element v site : Marshalling Unit)
    (s.setPipe h p') = .ok () s'
  aside : s'.aside = (s.setPipe h p').aside
  last : piece = [] → t = s'.setPipe h p'.finish
  more : piece ≠ [] → putPieces env walk h element site fuel
    (s'.setPipe h (p'.advance piece.length)) = .ok () t

/-- The pieces of a pipe are written one after the other. -/
theorem piece_of_putPieces (hspares : ∀ v, Spares (walk element v site))
    (hp : s.pipes[h]? = some p) (e : putPieces env walk h element site (fuel + 1) s = .ok () t) :
    ∃ piece p' s', Piece env walk h element site fuel s t p piece p' s' := by
  unfold putPieces at e
  obtain ⟨granted, s1, h1, e1⟩ := bind_eq_ok.1 e
  obtain ⟨p1, hask, rfl⟩ := (onPipe_eq_ok hp).1 h1
  obtain ⟨-, rfl⟩ := Pipe.ask_eq_ok.1 hask
  obtain ⟨piece, s2, h2, e2⟩ := bind_eq_ok.1 e1
  obtain ⟨p2, hpull, rfl⟩ := (onPipe_eq_ok (getElem?_setPipe hp)).1 h2
  rw [setPipe_setPipe] at e2
  split at e2
  · obtain ⟨_, _, h3, -⟩ := bind_eq_ok.1 e2
    exact absurd h3 throw_ne_ok
  rename_i hfits
  obtain ⟨_, s3, h3, e3⟩ := bind_eq_ok.1 e2
  obtain ⟨_, s4, h4, e4⟩ := bind_eq_ok.1 e3
  have hwritten : (do putCount env piece.length; piece.forM fun v => walk element v site :
      Marshalling Unit) (s.setPipe h p2) = .ok () s4 := bind_eq_ok.2 ⟨_, s3, h3, h4⟩
  have haside : s4.aside = (s.setPipe h p2).aside := by
    refine Spares.aside_eq (fun a => ?_) hwritten
    exact (spares_put _ a).bind fun _ _ =>
      Keeps.forM (P := fun _ => True) (fun v _ => hspares v a) fun _ _ => trivial
  have hheld : s4.pipes[h]? = some p2 := by
    rw [show s4.pipes = (s.setPipe h p2).pipes from congrArg (·.2.2) haside]
    exact getElem?_setPipe hp
  obtain ⟨_, s5, h5, e5⟩ := bind_eq_ok.1 e4
  obtain ⟨p5, hadvance, rfl⟩ := (onPipe_eq_ok hheld).1 h5
  obtain rfl := modify_eq_ok.1 hadvance
  refine ⟨piece, p2, s4, (Pipe.handsOver_of_pull hpull).of_asked, Nat.lt_of_not_le hfits, hwritten,
    haside, fun hnil => ?_, fun hne => ?_⟩
  · subst hnil
    obtain ⟨p6, hfinish, rfl⟩ := (onPipe_eq_ok (getElem?_setPipe hheld)).1 e5
    obtain rfl := modify_eq_ok.1 hfinish
    exact setPipe_setPipe _ _ _ _
  · simpa [hne] using e5

theorem Piece.held {piece : List Value} {s' : State}
    (hpiece : Piece env walk h element site fuel s t p piece p' s') (hp : s.pipes[h]? = some p) :
    s'.pipes[h]? = some p' := by
  have haside : s'.pipes = (s.setPipe h p').pipes := congrArg (·.2.2) hpiece.aside
  rw [haside]
  exact getElem?_setPipe hp

/-- All of a stream is sent, up to its empty piece. -/
theorem hasSent_of_putPieces (hspares : ∀ v, Spares (walk element v site))
    (hp : s.pipes[h]? = some p) (hsending : p.Sending) (hfuel : p.pending.length < fuel)
    (e : putPieces env walk h element site fuel s = .ok () t) :
    ∃ p', t.pipes[h]? = some p' ∧ p'.HasSent ∧ p.pulled <+: p'.pulled ∧
      t.nodes = s.nodes ∧ t.deferred = s.deferred := by
  induction fuel generalizing s p with
  | zero => exact absurd hfuel (Nat.not_lt_zero _)
  | succ fuel ih =>
    obtain ⟨piece, p1, s1, hpiece⟩ := piece_of_putPieces hspares hp e
    have hnodes : s1.nodes = s.nodes := congrArg (·.1) hpiece.aside
    have hdeferred : s1.deferred = s.deferred := congrArg (·.2.1) hpiece.aside
    have hheld := hpiece.held hp
    by_cases hnil : piece = []
    · obtain rfl := hpiece.last hnil
      subst hnil
      refine ⟨p1.finish, getElem?_setPipe hheld, hsending.finish hpiece.handsOver, ?_, hnodes,
        hdeferred⟩
      exact ⟨[[]], hpiece.handsOver.pulled.symm⟩
    · have hless := hpiece.handsOver.pending hnil
      obtain ⟨p', hp', hsent, hprefix, hnodes', hdeferred'⟩ := ih (getElem?_setPipe hheld)
        (hsending.handsOver hpiece.handsOver hnil)
        (Nat.lt_of_lt_of_le hless (Nat.le_of_lt_succ hfuel)) (hpiece.more hnil)
      refine ⟨p', hp', hsent, .trans ⟨[piece], ?_⟩ hprefix, hnodes'.trans hnodes,
        hdeferred'.trans hdeferred⟩
      exact hpiece.handsOver.pulled.symm

end Marshal

/-! ### Reading -/

namespace Unmarshal

/-- The state with another pipe under a handle. -/
def State.setPipe (u : State) (h : PipeHandle) (q : Pipe) : State :=
  { u with pipes := u.pipes.setIfInBounds h q }

variable {h : PipeHandle} {u u' : State} {q q' : Pipe}

theorem onPipe_eq_ok {α : Type} {x : EStateM Fault Pipe α} {a : α} (hq : u.pipes[h]? = some q) :
    onPipe h x u = .ok a u' ↔ ∃ q', x q = .ok a q' ∧ u.setPipe h q' = u' := by
  unfold onPipe
  simp only [onPart_eq_ok, Pipe.under_eq_ok, hq, Option.some.injEq]
  constructor
  · rintro ⟨_, ⟨_, q', rfl, hx, rfl⟩, rfl⟩
    exact ⟨q', hx, rfl⟩
  · rintro ⟨q', hx, rfl⟩
    exact ⟨_, ⟨q, q', rfl, hx, rfl⟩, rfl⟩

theorem getElem?_setPipe (hq : u.pipes[h]? = some q) : (u.setPipe h q').pipes[h]? = some q' := by
  obtain ⟨hlt, -⟩ := Array.getElem?_eq_some_iff.1 hq
  simp [State.setPipe, hlt]

theorem setPipe_setPipe (u : State) (h : PipeHandle) (q q' : Pipe) :
    (u.setPipe h q).setPipe h q' = u.setPipe h q' := by
  simp [State.setPipe]

/-- Elements are read in a piece as large as the room that is granted for it, which the application
takes. -/
theorem getPiece_step {walk : Walk} {element : Descriptor} {site : Site ScopeId}
    {fuel n granted : Nat} {piece : List Value} (hn : n ≠ 0) (hq : u.pipes[h]? = some q)
    (hgranted : q.application.grant q.history n = granted)
    (hlength : piece.length = min (max granted 1) n)
    (e : repeatM piece.length (walk element site) (u.setPipe h (q.record (.asked n granted)))
      = .ok piece u')
    (hheld : u'.pipes[h]? = some (q.record (.asked n granted)))
    (haccepts : ∀ history piece, q.application.accept history piece = .ok ()) :
    getPiece walk h element site (fuel + 1) n u
      = getPiece walk h element site fuel (n - piece.length)
          (u'.setPipe h (q.take n granted piece)) := by
  have hask : onPipe h (Pipe.ask n) u
      = .ok granted (u.setPipe h (q.record (.asked n granted))) :=
    (onPipe_eq_ok hq).2 ⟨_, Pipe.ask_eq_ok.2 ⟨hgranted, rfl⟩, rfl⟩
  have hpush : onPipe h (Pipe.push piece) u' = .ok ()
      (u'.setPipe h ((q.record (.asked n granted)).record (.pushed piece))) :=
    (onPipe_eq_ok hheld).2 ⟨_, Pipe.push_eq_ok.2 ⟨haccepts _ _, rfl⟩, rfl⟩
  have hadvance : onPipe h (modify (·.advance piece.length)) (u'.setPipe h
      ((q.record (.asked n granted)).record (.pushed piece)))
      = .ok ⟨⟩ (u'.setPipe h (q.take n granted piece)) :=
    (onPipe_eq_ok (getElem?_setPipe hheld)).2
      ⟨_, modify_eq_ok.2 rfl, setPipe_setPipe _ _ _ _⟩
  rw [getPiece, bind_of_ok hask, ← hlength, bind_of_ok e, bind_of_ok hpush, bind_of_ok hadvance]
  exact hn

variable {env : Env} {walk : Walk} {element : Descriptor} {site : Site ScopeId} {fuel : Nat}

/-- A zero ends a stream. -/
theorem getPieces_last (e : getCount env u = .ok 0 u') (hq : u'.pipes[h]? = some q)
    (haccepts : ∀ history piece, q.application.accept history piece = .ok ()) :
    getPieces env walk h element site (fuel + 1) u
      = .ok () (u'.setPipe h (q.record (.pushed [])).finish) := by
  have hpush : onPipe h (Pipe.push []) u' = .ok () (u'.setPipe h (q.record (.pushed []))) :=
    (onPipe_eq_ok hq).2 ⟨_, Pipe.push_eq_ok.2 ⟨haccepts _ _, rfl⟩, rfl⟩
  rw [getPieces, bind_of_ok e, if_pos rfl, bind_of_ok hpush]
  exact (onPipe_eq_ok (getElem?_setPipe hq)).2 ⟨_, modify_eq_ok.2 rfl, setPipe_setPipe _ _ _ _⟩

/-- A number that is not zero is followed by as many elements, and by another piece. -/
theorem getPieces_more {n : Nat} {u'' : State} (hn : n ≠ 0) (hmax : n ≤ env.config.maxElements)
    (e : getCount env u = .ok n u') (e' : getPiece walk h element site n n u' = .ok () u'') :
    getPieces env walk h element site (fuel + 1) u
      = getPieces env walk h element site fuel u'' := by
  rw [getPieces, bind_of_ok e, if_neg hn, checkCount, if_pos hmax]
  exact bind_of_ok e' _

end Unmarshal

/-! ### Streams in lock-step -/

namespace Lockstep

section

variable {env : Marshal.Env} {T : Terms} {N : Naming} {G : List Frame} {F : Frame}
  {s t : Marshal.State} {u : Unmarshal.State} {bytes tail : List UInt8}

/-- A copy of a value in which no node is known. -/
theorem Naming.Copy.eq_self {v w : Value} (h : N.Copy v w) (hN : ∀ c, ¬N.Knows c) : w = v := by
  rw [h.eq]
  exact Value.rename_eq_self fun c hc => absurd (h.knows c hc) (hN c)

theorem eq_of_copies (hN : ∀ c, ¬N.Knows c) {vs ws : List Value} (h : List.Forall₂ N.Copy vs ws) :
    ws = vs := by
  induction h with
  | nil => rfl
  | cons hcopy _ ih => rw [hcopy.eq_self hN, ih]

/-- Pipes are no part of what is compared. -/
theorem Follows.of_pipes (hu : Follows env T N G s u) (ps qs : Array Pipe) :
    Follows env T N G { s with pipes := ps } { u with pipes := qs } where
  position := hu.position
  limit := hu.limit
  size := hu.size
  live := hu.live
  nodes := hu.nodes
  consistent := hu.consistent
  reached := hu.reached
  scopes := hu.scopes
  partly := hu.partly
  late := hu.late
  deferred := hu.deferred
  deleted := hu.deleted

end

section

variable {env : Marshal.Env} {D : Descriptor → Prop} {N : Naming} {G : List Frame} {F : Frame}
  {walk : Marshal.Walk} {walk' : Unmarshal.Walk} {element : Descriptor} {x : Site Scope}
  {y : Site ScopeId} {h h' : PipeHandle} {s t : Marshal.State} {u : Unmarshal.State} {p q : Pipe}
  {bytes tail : List UInt8} (side : Side) (previous : NodeTable)
  (hw : LockedWalks env (recordTerms D) N (recordTerms D).value walk walk')
  (hspares : ∀ v, Marshal.Spares (walk element v x)) (hspares' : Unmarshal.Spares (walk' element y))
  (helement : D element) (hfield : element.isField) (hN : ∀ c, ¬N.Knows c) (hm : Meets G F x y)

omit hw hspares hspares' helement hfield hN hm in
/-- The number in front of a piece is read as it was written, and pipes stay as they are. -/
theorem pieceCount_reads {n : Nat} (hn : n < 2 ^ 32) (hs : Marshal.Ready s)
    (e : Marshal.putCount env n s = .ok () t) (hcovers : N.Covers t.nodes)
    (hwrote : Writer.Wrote s.writer t.writer bytes) (hu : Follows env (recordTerms D) N G s u)
    (hr : u.reader.rest = bytes ++ tail) :
    ∃ u' G', Unmarshal.getCount (env.receiver side previous) u = .ok n u' ∧
      u'.reader.rest = tail ∧ Follows env (recordTerms D) N G' t u' ∧
      Course env N (fun _ => False) Unmarshal.None G G' u u' ∧ u'.pipes = u.pipes := by
  have hlocked : Locked env (recordTerms D) N (fun _ => False) G (Marshal.putCount env n)
      (Unmarshal.getCount (env.receiver side previous)) fun _ m => m = n :=
    locked_count side previous hn
  obtain ⟨_, u', G', eu, hrest, hu', hcourse, rfl⟩ :=
    hlocked.reads hs e hcovers List.prefix_rfl hwrote hu hr
  exact ⟨u', G', eu, hrest, hu', hcourse,
    congrArg (·.2) ((Unmarshal.spares_fetch _).aside_eq eu)⟩

include hw hspares' helement hfield hN hm

/-- Elements are read as they were written, and pipes stay as they are. -/
theorem elements_reads {vs : List Value} (hs : Marshal.Ready s)
    (e : vs.forM (fun v => walk element v x) s = .ok () t) (hcovers : N.Covers t.nodes)
    (hwrote : Writer.Wrote s.writer t.writer bytes) (hu : Follows env (recordTerms D) N G s u)
    (hr : u.reader.rest = bytes ++ tail) :
    ∃ u' G', repeatM vs.length (walk' element y) u = .ok vs u' ∧ u'.reader.rest = tail ∧
      Follows env (recordTerms D) N G' t u' ∧
      Course env N (fun _ => False) Unmarshal.None G G' u u' ∧ u'.pipes = u.pipes := by
  have hlocked : Locked env (recordTerms D) N (fun _ => False) G
      (vs.forM fun v => walk element v x) (repeatM vs.length (walk' element y))
      fun _ ws => List.Forall₂ N.Copy vs ws :=
    locked_forM (fun _ => hw.grows _ _ _) fun v _ =>
      hw.reads ⟨helement, fun hmarker => absurd (hfield.symm.trans hmarker) (by simp)⟩ hm
  obtain ⟨ws, u', G', eu, hrest, hu', hcourse, hcopies⟩ :=
    hlocked.reads hs e hcovers List.prefix_rfl hwrote hu hr
  obtain rfl := eq_of_copies hN hcopies
  have haside : u'.aside = u.aside :=
    Unmarshal.Spares.aside_eq (fun a => Keeps.repeatM (hspares' a) _) eu
  exact ⟨u', G', eu, hrest, hu', hcourse, congrArg (·.2) haside⟩

/-- Elements are read where they were written, and the application takes all of them. -/
theorem getPiece_reads {fuel : Nat} {vs : List Value} (hfuel : vs.length ≤ fuel)
    (hs : Marshal.Ready s) (e : vs.forM (fun v => walk element v x) s = .ok () t)
    (hcovers : N.Covers t.nodes) (hwrote : Writer.Wrote s.writer t.writer bytes)
    (hu : Follows env (recordTerms D) N G s u) (hr : u.reader.rest = bytes ++ tail)
    (hq : u.pipes[h']? = some q) (hreceiving : q.Receiving) :
    ∃ u' G' q', Unmarshal.getPiece walk' h' element y fuel vs.length u = .ok () u' ∧
      u'.reader.rest = tail ∧ Follows env (recordTerms D) N G' t u' ∧
      Course env N (fun _ => False) Unmarshal.None G G' u u' ∧ u'.pipes[h']? = some q' ∧
      q'.Receiving ∧ q'.pushed.flatten = q.pushed.flatten ++ vs := by
  induction fuel generalizing vs s u G bytes q with
  | zero =>
    obtain rfl := List.length_eq_zero_iff.1 (Nat.le_zero.1 hfuel)
    obtain ⟨-, rfl⟩ := pure_eq_ok.1 e
    obtain rfl := hwrote.unique .refl
    exact ⟨u, G, q, rfl, hr, hu, .refl, hq, hreceiving, (List.append_nil _).symm⟩
  | succ fuel ih =>
    cases hlength : vs.length with
    | zero =>
      obtain rfl := List.length_eq_zero_iff.1 hlength
      obtain ⟨-, rfl⟩ := pure_eq_ok.1 e
      obtain rfl := hwrote.unique .refl
      exact ⟨u, G, q, rfl, hr, hu, .refl, hq, hreceiving, (List.append_nil _).symm⟩
    | succ k =>
      -- the first piece is as large as the room that is granted for it
      obtain ⟨granted, hgranted⟩ : ∃ granted, q.application.grant q.history (k + 1) = granted :=
        ⟨_, rfl⟩
      obtain ⟨first, others, rfl, hfirst⟩ : ∃ first others, vs = first ++ others ∧
          first.length = min (max granted 1) (k + 1) := by
        refine ⟨vs.take (min (max granted 1) (k + 1)), vs.drop _,
          (List.take_append_drop _ _).symm, ?_⟩
        rw [List.length_take, hlength]
        omega
      have hothers : others.length = k + 1 - first.length := by
        rw [← hlength, List.length_append, Nat.add_sub_cancel_left]
      have hfits : Pipe.Fits first granted := by
        refine ⟨fun hnil => ?_, by omega⟩
        rw [hnil, List.length_nil] at hfirst
        omega
      obtain ⟨s1, h1, e1⟩ := forM_append_eq_ok.1 e
      obtain ⟨g1, -⟩ := (Marshal.composes_grows env).forM
        (fun v (_ : v ∈ first) => hw.grows element v x) hs h1
      obtain ⟨g2, -⟩ := (Marshal.composes_grows env).forM
        (fun v (_ : v ∈ others) => hw.grows element v x) g1.ready e1
      obtain ⟨bytes1, hw1⟩ := g1.wrote
      obtain ⟨bytes2, hw2⟩ := g2.wrote
      obtain rfl := hwrote.unique (hw1.trans hw2)
      rw [List.append_assoc] at hr
      have f1 : Follows env (recordTerms D) N G s
          (u.setPipe h' (q.record (.asked (k + 1) granted))) := hu.of_pipes s.pipes _
      obtain ⟨u2, G2, e2, r2, f2, c2, hpipes⟩ := elements_reads hw hspares' helement hfield hN hm
        hs h1 (hcovers.mono g2.nodes) hw1 f1 hr
      have hq2 : u2.pipes[h']? = some (q.record (.asked (k + 1) granted)) := by
        rw [hpipes]
        exact Unmarshal.getElem?_setPipe hq
      -- the others follow it
      have f3 : Follows env (recordTerms D) N G2 s1 (u2.setPipe h' (q.take (k + 1) granted first)) :=
        f2.of_pipes s1.pipes _
      obtain ⟨u4, G4, q4, e4, r4, f4, c4, hq4, hreceiving4, hpushed⟩ := ih (hm.mono c2.frames)
        (by omega : others.length ≤ fuel) g1.ready e1 hw2 f3 r2 (Unmarshal.getElem?_setPipe hq2)
        (hreceiving.take hfits)
      refine ⟨u4, G4, q4, ?_, r4, f4, ?_, hq4, hreceiving4, ?_⟩
      · rw [Unmarshal.getPiece_step (Nat.succ_ne_zero k) hq hgranted hfirst e2 hq2
          hreceiving.accepts, ← hothers, e4]
      · have c1 : Course env N (fun _ => False) Unmarshal.None G G u
            (u.setPipe h' (q.record (.asked (k + 1) granted))) := .of_eq rfl rfl rfl
        have c3 : Course env N (fun _ => False) Unmarshal.None G2 G2 u2
            (u2.setPipe h' (q.take (k + 1) granted first)) := .of_eq rfl rfl rfl
        exact ((c1.trans_none c2).trans_none c3).trans_none c4
      · rw [hpushed, Pipe.pushed_take]
        simp

include hspares

/-- **A stream comes through.** All that the application of one pipe hands over, up to its empty
piece, is taken by the application of the other, where no piece is larger than a reader takes. -/
theorem getPieces_reads {fuel fuel' : Nat} (hs : Marshal.Ready s) (hp : s.pipes[h]? = some p)
    (hsending : p.Sending) (hfuel : p.pending.length < fuel)
    (e : Marshal.putPieces env walk h element x fuel s = .ok () t)
    (hmax : ∀ p', t.pipes[h]? = some p' → ∀ piece ∈ p'.pulled,
      piece.length ≤ env.config.maxElements)
    (hcovers : N.Covers s.nodes) (hwrote : Writer.Wrote s.writer t.writer bytes)
    (hu : Follows env (recordTerms D) N G s u) (hr : u.reader.rest = bytes ++ tail)
    (hfuel' : u.reader.rest.length < fuel') (hq : u.pipes[h']? = some q)
    (hreceiving : q.Receiving) (hsame : q.pushed.flatten = p.pulled.flatten) :
    ∃ u' G' p' q', Unmarshal.getPieces (env.receiver side previous) walk' h' element y fuel' u
        = .ok () u' ∧
      u'.reader.rest = tail ∧ Follows env (recordTerms D) N G' t u' ∧
      Course env N (fun _ => False) Unmarshal.None G G' u u' ∧ t.pipes[h]? = some p' ∧
      u'.pipes[h']? = some q' ∧ p'.Delivers q' := by
  induction fuel generalizing s u G bytes p q fuel' with
  | zero => exact absurd hfuel (Nat.not_lt_zero _)
  | succ fuel ih =>
    obtain ⟨fuel', rfl⟩ := Nat.exists_eq_succ_of_ne_zero (Nat.ne_zero_of_lt hfuel')
    obtain ⟨piece, p1, s1, hpiece⟩ := Marshal.piece_of_putPieces hspares hp e
    have hheld := hpiece.held hp
    have hcovers1 : N.Covers s1.nodes := by
      have hnodes : s1.nodes = s.nodes := congrArg (·.1) hpiece.aside
      rwa [hnodes]
    -- the number of the piece and its elements
    obtain ⟨_, s0, hcount, helements⟩ := bind_eq_ok.1 hpiece.written
    have hs' : Marshal.Ready (s.setPipe h p1) := ⟨hs.bufferSize, hs.nodes⟩
    obtain ⟨g0, -⟩ := (Marshal.composes_grows env).count _ hs' hcount
    obtain ⟨g1, -⟩ := (Marshal.composes_grows env).forM
      (fun v (_ : v ∈ piece) => hw.grows element v x) g0.ready helements
    obtain ⟨bytes0, hw0⟩ := g0.wrote
    obtain ⟨bytes1, hw1⟩ := g1.wrote
    by_cases hnil : piece = []
    · subst hnil
      obtain rfl := hpiece.last rfl
      obtain ⟨-, rfl⟩ := pure_eq_ok.1 helements
      obtain rfl := hwrote.unique hw0
      obtain ⟨u1, G1, e1, r1, f1, c1, hpipes⟩ := pieceCount_reads side previous hpiece.fits hs' hcount
        hcovers1 hw0 (hu.of_pipes (s.setPipe h p1).pipes u.pipes) hr
      have hq1 : u1.pipes[h']? = some q := hpipes ▸ hq
      obtain ⟨hreceived, hflat⟩ := hreceiving.finish
      refine ⟨u1.setPipe h' (q.record (.pushed [])).finish, G1, p1.finish, _, ?_, r1,
        f1.of_pipes _ _, c1.trans_none (.of_eq rfl rfl rfl), Marshal.getElem?_setPipe hheld,
        Unmarshal.getElem?_setPipe hq1, hsending.finish hpiece.handsOver, hreceived, ?_⟩
      · exact Unmarshal.getPieces_last e1 hq1 hreceiving.accepts
      · rw [hflat, hsame, show p1.finish.pulled = p1.pulled from rfl, hpiece.handsOver.pulled]
        simp
    · have hsending1 := hsending.handsOver hpiece.handsOver hnil
      have hless := hpiece.handsOver.pending hnil
      have hfuel1 := Nat.lt_of_lt_of_le hless (Nat.le_of_lt_succ hfuel)
      have hmore := hpiece.more hnil
      have hp1 : (s1.setPipe h (p1.advance piece.length)).pipes[h]? = some (p1.advance piece.length) :=
        Marshal.getElem?_setPipe hheld
      have hs1 : Marshal.Ready (s1.setPipe h (p1.advance piece.length)) :=
        ⟨g1.ready.bufferSize, g1.ready.nodes⟩
      obtain ⟨g2, -⟩ := (Marshal.composes_grows env).relates.putPieces
        (Marshal.relatesWalks hw.grows) (.refl env) trivial ((Marshal.composes_grows env).onPipe h)
        fuel hs1 hmore
      obtain ⟨bytes2, hw2⟩ := g2.wrote
      obtain rfl := hwrote.unique ((hw0.trans hw1).trans hw2)
      rw [List.append_assoc, List.append_assoc] at hr
      obtain ⟨u1, G1, e1, r1, f1, c1, hpipes⟩ := pieceCount_reads side previous hpiece.fits hs' hcount
        (hcovers1.mono g1.nodes) hw0 (hu.of_pipes (s.setPipe h p1).pipes u.pipes) hr
      have hq1 : u1.pipes[h']? = some q := hpipes ▸ hq
      have hlength : piece.length ≤ env.config.maxElements := by
        obtain ⟨p', hp', -, ⟨pieces, hpulled⟩, -, -⟩ :=
          Marshal.hasSent_of_putPieces hspares hp1 hsending1 hfuel1 hmore
        refine hmax p' hp' piece ?_
        rw [← hpulled, show (p1.advance piece.length).pulled = p.pulled ++ [piece] from
          hpiece.handsOver.pulled]
        simp
      obtain ⟨u2, G2, q2, e2, r2, f2, c2, hq2, hreceiving2, hpushed2⟩ := getPiece_reads hw hspares'
        helement hfield hN (hm.mono c1.frames) (Nat.le_refl _) g0.ready helements hcovers1 hw1 f1 r1
        hq1 hreceiving
      have hfuel2 : u2.reader.rest.length < fuel' := by
        have htook : u1.reader.rest.length + 4 ≤ u.reader.rest.length :=
          (Unmarshal.rest_getCount e1).1
        rw [r1, List.length_append, ← r2] at htook
        omega
      have hsame2 : q2.pushed.flatten = (p1.advance piece.length).pulled.flatten := by
        rw [hpushed2, hsame, show (p1.advance piece.length).pulled = p.pulled ++ [piece] from
          hpiece.handsOver.pulled]
        simp
      obtain ⟨u3, G3, p3, q3, e3, r3, f3, c3, hp3, hq3, hdelivers⟩ := ih
        (hm.mono (c1.frames.trans c2.frames)) hs1 hp1 hsending1 hfuel1 hmore hcovers1 hw2
        (f2.of_pipes (s1.setPipe h (p1.advance piece.length)).pipes u2.pipes) r2 hfuel2 hq2
        hreceiving2 hsame2
      refine ⟨u3, G3, p3, q3, ?_, r3, f3, (c1.trans_none c2).trans_none c3, hp3, hq3, hdelivers⟩
      rw [Unmarshal.getPieces_more (mt List.length_eq_zero_iff.1 hnil) hlength e1 e2, e3]

end

end Lockstep

end Ndr
