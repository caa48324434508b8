import Ndr.Pipe.Script
import Ndr.Proofs.DeletedNodes
import Ndr.Proofs.Pipes.Refusal
import Ndr.Value.Equality

/-!
The life of a pipe. Operations of any machines come to it one after the other, and each may fail
wherever it can. What went through is counted, the first direction stays, and behind the empty chunk
that ends its stream the pipe refuses every operation before its application is asked for anything.
-/

namespace Ndr

/-- An operation of some machine, with all that it is given but for the pipes. -/
inductive Operation where
  | marshal (machine : Machine) (world : Surroundings) (offset : Nat) (params : List Value)
      (sink : Sink)
  | unmarshal (machine : Machine) (world : Surroundings) (offset : Nat) (params : List Value)
      (source : Source)

/-- The same but for the pipe under a handle. -/
def Outcome.setPipe {τ α : Type} (o : Outcome τ α) (h : PipeHandle) (p : Pipe) : Outcome τ α :=
  { o with surroundings.pipes := o.surroundings.pipes.setIfInBounds h p }

namespace Pipe

/-- What operations did to the pipe `p`, which is `q` now: the chunks went through. -/
structure Life (p : Pipe) (chunks : List (List Value)) (q : Pipe) : Prop where
  application : q.application = p.application
  /-- The direction stays, once there is one. -/
  direction : ∀ d, p.direction = some d → q.direction = some d
  /-- Without a direction nothing has happened. -/
  unused : q.direction = none → chunks = [] ∧ q = p
  /-- Nothing happens any more to a pipe that is over. -/
  ended : p.finished = true → chunks = [] ∧ q = p
  /-- A pipe is over when the empty chunk has gone through. -/
  finished : p.finished = false → (q.finished = true ↔ chunks.getLast? = some [])
  transferred : q.transferred = p.transferred + chunks.flatten.length
  /-- What the application was asked for before stays as it was. -/
  events : p.events <:+ q.events
  /-- Of the pieces that were handed over the chunks are those that were sent whole. -/
  handedOver : q.direction = some .send → (p.pulled ++ chunks).Sublist q.pulled
  /-- The chunks are the pieces that were taken. -/
  taken : q.direction = some .receive → q.pushed = p.pushed ++ chunks

namespace Life

variable {p q r : Pipe} {chunks chunks' : List (List Value)}

theorem refl (p : Pipe) : p.Life [] p where
  application := rfl
  direction _ hd := hd
  unused _ := ⟨rfl, rfl⟩
  ended _ := ⟨rfl, rfl⟩
  finished hopen := by simp [hopen]
  transferred := rfl
  events := List.suffix_rfl
  handedOver _ := by simp
  taken _ := by simp

theorem of_passes {d : Direction} (h : p.Passes d chunks q) : p.Life chunks q := by
  rcases h with ⟨rfl, rfl⟩ | h
  · exact .refl _
  have hopen := not_finished_of_not_blocked h.unblocked
  exact {
    application := h.application
    direction := fun d' hd => by rw [h.direction, direction_of_not_blocked h.unblocked hd]
    unused := fun hnone => absurd (h.direction.symm.trans hnone) (by simp)
    ended := fun hended => absurd (hopen.symm.trans hended) (by simp)
    finished := fun _ => h.finished
    transferred := h.transferred
    events := h.events
    handedOver := fun hsend => by
      obtain ⟨-, broken, -, hpulled⟩ := h.handedOver (Option.some.inj (h.direction.symm.trans hsend))
      rw [hpulled]
      exact List.sublist_append_left _ _
    taken := fun hreceive => (h.taken (Option.some.inj (h.direction.symm.trans hreceive))).2 }

theorem trans (h : p.Life chunks q) (h' : q.Life chunks' r) : p.Life (chunks ++ chunks') r where
  application := h'.application.trans h.application
  direction d hd := h'.direction d (h.direction d hd)
  unused hnone := by
    obtain ⟨rfl, rfl⟩ := h'.unused hnone
    obtain ⟨rfl, rfl⟩ := h.unused hnone
    exact ⟨rfl, rfl⟩
  ended hended := by
    obtain ⟨rfl, rfl⟩ := h.ended hended
    obtain ⟨rfl, rfl⟩ := h'.ended hended
    exact ⟨rfl, rfl⟩
  finished hopen := by
    have hfirst := h.finished hopen
    cases hq : q.finished with
    | true =>
      obtain ⟨rfl, rfl⟩ := h'.ended hq
      rw [List.append_nil, hfirst]
    | false =>
      rw [h'.finished hq, List.getLast?_append]
      have hlast : chunks.getLast? ≠ some [] := fun hlast => by simp [hfirst.2 hlast] at hq
      cases chunks'.getLast? with
      | none => simpa using hlast
      | some chunk => rfl
  transferred := by
    rw [h'.transferred, h.transferred, List.flatten_append, List.length_append, Nat.add_assoc]
  events := h.events.trans h'.events
  handedOver hsend := by
    rw [← List.append_assoc]
    refine List.Sublist.trans ?_ (h'.handedOver hsend)
    cases hq : q.direction with
    | none =>
      obtain ⟨rfl, rfl⟩ := h.unused hq
      simp
    | some d =>
      obtain rfl := Option.some.inj ((h'.direction d hq).symm.trans hsend)
      exact (h.handedOver hq).append_right _
  taken hreceive := by
    rw [h'.taken hreceive, ← List.append_assoc]
    cases hq : q.direction with
    | none =>
      obtain ⟨rfl, rfl⟩ := h.unused hq
      simp
    | some d =>
      obtain rfl := Option.some.inj ((h'.direction d hq).symm.trans hreceive)
      rw [h.taken hq]

end Life

end Pipe

namespace Operation

/-! ### One operation -/

/-- The way in which the operation uses pipes. -/
def direction : Operation → Pipe.Direction
  | marshal .. => .send
  | unmarshal .. => .receive

/-- The pipes after the operation. -/
def after (op : Operation) (pipes : Array Pipe) : Array Pipe :=
  match op with
  | marshal m world offset params sink =>
    (m.marshal { world with pipes } offset params sink).surroundings.pipes
  | unmarshal m world offset params source =>
    (m.unmarshal { world with pipes } offset params source).surroundings.pipes

/-- The operation ends in a fault. -/
def Fails (op : Operation) (pipes : Array Pipe) (e : Fault) : Prop :=
  match op with
  | marshal m world offset params sink =>
    (m.marshal { world with pipes } offset params sink).result = .error e
  | unmarshal m world offset params source =>
    (m.unmarshal { world with pipes } offset params source).result = .error e

/-- The operation does not come to the pipe under `h`: it is the same with any other in its place. -/
def Ignores (op : Operation) (pipes : Array Pipe) (h : PipeHandle) : Prop :=
  match op with
  | marshal m world offset params sink => ∀ q,
    m.marshal { world with pipes := pipes.setIfInBounds h q } offset params sink
      = (m.marshal { world with pipes } offset params sink).setPipe h q
  | unmarshal m world offset params source => ∀ q,
    m.unmarshal { world with pipes := pipes.setIfInBounds h q } offset params source
      = (m.unmarshal { world with pipes } offset params source).setPipe h q

/-- What the operation does to the pipe under `h`, up to where it ends or fails: the chunks go
through, as they are told apart by the passages of writing and reading. -/
def Carries (op : Operation) (pipes : Array Pipe) (h : PipeHandle) (p : Pipe)
    (chunks : List (List Value)) (q : Pipe) : Prop :=
  match op with
  | marshal m world offset params sink =>
    let start : Marshal.State := { world with pipes, writer := .new sink m.config }
    Lands (fun _ t => Marshal.Passage (m.writing world) h start p none t chunks q)
      (fun e t => Marshal.Passage (m.writing world) h start p (some e) t chunks q)
      (Marshal.putParameters (m.writing world) offset params start)
  | unmarshal m world offset params source =>
    let start : Unmarshal.State := { world with pipes, reader := { source } }
    Lands (fun _ t => Unmarshal.Passage m.reading h start p none t chunks q)
      (fun e t => Unmarshal.Passage m.reading h start p (some e) t chunks q)
      (Unmarshal.getParameters m.reading offset params start)

/-- One operation in the life of the pipe under `h`, which is `p` before it and `q` after it. -/
structure Turn (op : Operation) (pipes : Array Pipe) (h : PipeHandle) (p : Pipe)
    (chunks : List (List Value)) (q : Pipe) : Prop where
  before : pipes[h]? = some p
  after : (op.after pipes)[h]? = some q
  carries : op.Carries pipes h p chunks q
  passes : p.Passes op.direction chunks q
  /-- A pipe that is over or goes the other way: nothing happens to it, and an operation that comes
  to it is refused. -/
  refused : p.Blocked op.direction → chunks = [] ∧ q = p ∧
    (op.Ignores pipes h ∨ ∃ e, e.IsRefusal ∧ op.Fails pipes e)

end Operation

namespace Machine

variable (m : Machine) (world : Surroundings) (offset : Nat) (params : List Value) (h : PipeHandle)
  (p q : Pipe)

/-- The pipes that are left behind, and the fault, are those of the parameters. -/
theorem marshal_lands (sink : Sink) :
    let o := m.marshal world offset params sink
    Lands (fun _ t => o.surroundings.pipes = t.pipes)
      (fun e t => o.surroundings.pipes = t.pipes ∧ o.result = .error e)
      (Marshal.putParameters (m.writing world) offset params
        { world with writer := .new sink m.config }) := by
  dsimp only
  unfold marshal
  dsimp only [writing, startOperation]
  cases Marshal.putParameters _ offset params _ with
  | error e t => exact ⟨rfl, rfl⟩
  | ok u t =>
    dsimp only [Lands]
    cases Writer.finish t.writer <;> rfl

theorem unmarshal_lands (source : Source) :
    let o := m.unmarshal world offset params source
    Lands (fun _ t => o.surroundings.pipes = t.pipes)
      (fun e t => o.surroundings.pipes = t.pipes ∧ o.result = .error e)
      (Unmarshal.getParameters m.reading offset params { world with reader := { source } }) := by
  dsimp only
  unfold unmarshal
  dsimp only [reading, startOperation]
  cases Unmarshal.getParameters _ offset params _ with
  | error e t => exact ⟨rfl, rfl⟩
  | ok values t => rfl

/-- With another pipe the operation is the same, where its parameters are. -/
theorem marshal_swapped (sink : Sink) {pipes : Array Pipe}
    (hends : EndsAlike (Marshal.Swapped h p q)
      (Marshal.putParameters (m.writing world) offset params
        { world with pipes, writer := .new sink m.config })
      (Marshal.putParameters (m.writing world) offset params
        { world with pipes := pipes.setIfInBounds h q, writer := .new sink m.config })) :
    m.marshal { world with pipes := pipes.setIfInBounds h q } offset params sink
      = (m.marshal { world with pipes } offset params sink).setPipe h q := by
  unfold marshal
  dsimp only [writing, startOperation] at hends ⊢
  generalize Marshal.putParameters _ offset params _ = r at hends ⊢
  generalize Marshal.putParameters _ offset params _ = r' at hends ⊢
  cases hends with
  | error ht =>
    obtain ⟨-, rfl⟩ := ht
    rfl
  | ok ht =>
    obtain ⟨-, rfl⟩ := ht
    dsimp only [Marshal.State.setPipe]
    split <;> rfl

theorem unmarshal_swapped (source : Source) {pipes : Array Pipe}
    (hends : EndsAlike (Unmarshal.Swapped h p q)
      (Unmarshal.getParameters m.reading offset params { world with pipes, reader := { source } })
      (Unmarshal.getParameters m.reading offset params
        { world with pipes := pipes.setIfInBounds h q, reader := { source } })) :
    m.unmarshal { world with pipes := pipes.setIfInBounds h q } offset params source
      = (m.unmarshal { world with pipes } offset params source).setPipe h q := by
  unfold unmarshal
  dsimp only [reading, startOperation] at hends ⊢
  generalize Unmarshal.getParameters _ offset params _ = r at hends ⊢
  generalize Unmarshal.getParameters _ offset params _ = r' at hends ⊢
  cases hends with
  | error ht =>
    obtain ⟨-, rfl⟩ := ht
    rfl
  | ok ht =>
    obtain ⟨-, rfl⟩ := ht
    rfl

end Machine

namespace Operation

variable {op : Operation} {ops : List Operation} {pipes pipes' : Array Pipe} {h : PipeHandle}
  {p q r : Pipe} {chunks chunks' : List (List Value)}

/-- An operation that comes to a pipe that refuses it fails. -/
theorem ignores_or_fails (op : Operation) (hp : pipes[h]? = some p) (hblocked : p.Blocked op.direction) :
    op.Ignores pipes h ∨ ∃ e, e.IsRefusal ∧ op.Fails pipes e := by
  refine or_iff_not_imp_left.2 fun hnot => ?_
  cases op with
  | marshal m world offset params sink =>
    obtain ⟨q, hq⟩ := not_forall.1 hnot
    have hshuns := (Marshal.shuns_putParameters (m.writing world) h q hblocked offset params).step
      { world with pipes, writer := .new sink m.config } _ ⟨hp, rfl⟩
    rcases hshuns with hends | ⟨e, s, he, hends⟩
    · exact absurd (m.marshal_swapped world offset params h p q sink hends) hq
    · have hlands := m.marshal_lands { world with pipes } offset params sink
      rw [he] at hlands
      exact ⟨e, hends.exists_state.choose_spec.1, hlands.2⟩
  | unmarshal m world offset params source =>
    obtain ⟨q, hq⟩ := not_forall.1 hnot
    have hshuns := (Unmarshal.shuns_getParameters m.reading h q hblocked offset params).step
      { world with pipes, reader := { source } } _ ⟨hp, rfl⟩
    rcases hshuns with hends | ⟨e, s, he, hends⟩
    · exact absurd (m.unmarshal_swapped world offset params h p q source hends) hq
    · have hlands := m.unmarshal_lands { world with pipes } offset params source
      rw [he] at hlands
      exact ⟨e, hends.exists_state.choose_spec.1, hlands.2⟩

theorem Turn.of_carries (hp : pipes[h]? = some p) (hq : (op.after pipes)[h]? = some q)
    (hcarries : op.Carries pipes h p chunks q) (hpasses : p.Passes op.direction chunks q) :
    op.Turn pipes h p chunks q where
  before := hp
  after := hq
  carries := hcarries
  passes := hpasses
  refused hblocked :=
    ⟨(hpasses.of_blocked hblocked).1, (hpasses.of_blocked hblocked).2, op.ignores_or_fails hp hblocked⟩

/-- Each operation is a turn in the life of every pipe. -/
theorem exists_turn (op : Operation) (hp : pipes[h]? = some p) :
    ∃ chunks q, op.Turn pipes h p chunks q := by
  suffices hturn : ∃ chunks q, ((op.after pipes)[h]? = some q ∧ p.Passes op.direction chunks q) ∧
      op.Carries pipes h p chunks q by
    obtain ⟨chunks, q, ⟨hq, hpasses⟩, hcarries⟩ := hturn
    exact ⟨chunks, q, .of_carries hp hq hcarries hpasses⟩
  cases op with
  | marshal m world offset params sink =>
    have hserves := Marshal.serves_putParameters (m.writing world) h offset params
      { world with pipes, writer := .new sink m.config }
    have hlands := m.marshal_lands { world with pipes } offset params sink
    refine Lands.exists_of ((hserves.and hlands).mono ?_ ?_)
    · rintro _ t ⟨hserved, hpipes⟩
      obtain ⟨-, chunks, q, hq, hpassage⟩ := hserved p hp
      exact ⟨chunks, q, ⟨(congrArg (·[h]?) hpipes).trans hq, hpassage.passes⟩, hpassage⟩
    · rintro e t ⟨hserved, hpipes, -⟩
      obtain ⟨-, chunks, q, hq, hpassage⟩ := hserved p hp
      exact ⟨chunks, q, ⟨(congrArg (·[h]?) hpipes).trans hq, hpassage.passes⟩, hpassage⟩
  | unmarshal m world offset params source =>
    have hserves := Unmarshal.serves_getParameters m.reading h offset params
      { world with pipes, reader := { source } }
    have hlands := m.unmarshal_lands { world with pipes } offset params source
    refine Lands.exists_of ((hserves.and hlands).mono ?_ ?_)
    · rintro _ t ⟨hserved, hpipes⟩
      obtain ⟨-, chunks, q, hq, hpassage⟩ := hserved p hp
      exact ⟨chunks, q, ⟨(congrArg (·[h]?) hpipes).trans hq, hpassage.passes⟩, hpassage⟩
    · rintro e t ⟨hserved, hpipes, -⟩
      obtain ⟨-, chunks, q, hq, hpassage⟩ := hserved p hp
      exact ⟨chunks, q, ⟨(congrArg (·[h]?) hpipes).trans hq, hpassage.passes⟩, hpassage⟩

/-! ### Operations one after the other -/

/-- The pipes after all operations. -/
def afterAll (ops : List Operation) (pipes : Array Pipe) : Array Pipe :=
  ops.foldl (fun pipes op => op.after pipes) pipes

/-- The turns of the operations in the life of the pipe under `h`, with all chunks that go through. -/
inductive Turns (h : PipeHandle) :
    List Operation → Array Pipe → Pipe → List (List Value) → Pipe → Prop where
  | nil (pipes : Array Pipe) (p : Pipe) : Turns h [] pipes p [] p
  | cons {op : Operation} {ops : List Operation} {pipes : Array Pipe} {p q r : Pipe}
      {chunks chunks' : List (List Value)} (turn : op.Turn pipes h p chunks q)
      (rest : Turns h ops (op.after pipes) q chunks' r) :
      Turns h (op :: ops) pipes p (chunks ++ chunks') r

theorem Turns.life (hturns : Turns h ops pipes p chunks q) : p.Life chunks q := by
  induction hturns with
  | nil pipes p => exact .refl p
  | cons turn _ ih => exact (Pipe.Life.of_passes turn.passes).trans ih

/-- **The life of a pipe**: whatever operations use it and wherever they fail, each is a turn of its
life. The direction, once there is one, stays; the pipe is over when the empty chunk has gone through,
and is left alone from then on; and the elements of all chunks that went through are counted. -/
theorem pipe_life (ops : List Operation) (pipes : Array Pipe) (h : PipeHandle) (p : Pipe)
    (hp : pipes[h]? = some p) : ∃ chunks q, (afterAll ops pipes)[h]? = some q ∧
      Turns h ops pipes p chunks q ∧ p.Life chunks q := by
  induction ops generalizing pipes p with
  | nil => exact ⟨[], p, hp, .nil pipes p, .refl p⟩
  | cons op ops ih =>
    obtain ⟨chunks, q, hturn⟩ := op.exists_turn hp
    obtain ⟨chunks', r, hr, hturns, -⟩ := ih (op.after pipes) q hturn.after
    have hall : Turns h (op :: ops) pipes p (chunks ++ chunks') r := .cons hturn hturns
    exact ⟨_, r, hr, hall, hall.life⟩

/-- A machine whose only parameter list, at 16, has a pipe of longs. -/
def piper : Machine where
  interface.vector :=
    { bytes := #[8, 0, 10, 0, 1, 255, 255, 255, 0, 0, 0, 0, 9, 254, 255, 255, 1, 0, 0, 0, 0, 0, 0, 0,
        41, 2, 255, 255, 12, 0, 0, 0, 254]
      order := .little
      minor := 10 }

/-- A pipe whose application takes all that it is given. -/
def longTaker : Pipe where
  application := ({} : Pipe.Script).application

/-- A message that ends behind its first long, an attempt to write, the empty chunk alone, and the
same once more. -/
def takings : List Operation := [
  .unmarshal piper {} 16 [.pipe 0] (.ofBytes [1, 0, 0, 0, 7, 0, 0, 0]),
  .marshal piper {} 16 [.pipe 0] .reliable,
  .unmarshal piper {} 16 [.pipe 0] (.ofBytes [0, 0, 0, 0]),
  .unmarshal piper {} 16 [.pipe 0] (.ofBytes [0, 0, 0, 0])]

/-- The second and the fourth of them are refused. -/
theorem pipe_life_taken :
    #[longTaker][0]? = some longTaker ∧
      Fails (.marshal piper {} 16 [.pipe 0] .reliable) (afterAll (takings.take 1) #[longTaker])
        (.pipeMisuse .bothDirections) ∧
      Fails (.unmarshal piper {} 16 [.pipe 0] (.ofBytes [0, 0, 0, 0]))
        (afterAll (takings.take 3) #[longTaker]) (.pipeMisuse .completed) ∧
      ((afterAll takings #[longTaker])[0]?.map fun q => (q.transferred, q.finished, q.pushed))
        = some (1, true, [[.long 7], []]) ∧
      ∃ chunks q, (afterAll takings #[longTaker])[0]? = some q ∧
        Turns 0 takings #[longTaker] longTaker chunks q ∧ longTaker.Life chunks q := by
  refine ⟨rfl, ?_, ?_, by decide +kernel, pipe_life takings #[longTaker] 0 longTaker rfl⟩
  · dsimp only [Fails]
    decide +kernel
  · dsimp only [Fails]
    decide +kernel

end Operation

end Ndr
