import Ndr.Proofs.Ledger
import Ndr.Proofs.Marshal.Traversal
import Ndr.Proofs.Unmarshal.Traversal

/-!
Earlier and later in a message. Whether an operation succeeds or fails, the bytes that a writer
produced are never taken back, and a reader goes through the deliveries of its transport in order. So
each state of an operation is a place in its message.
-/

namespace Ndr

/-! ### What a writer produced -/

namespace Writer

variable {w x : Writer}

/-- The bytes of a message so far, whatever became of them at the transport. -/
def produced (w : Writer) : List UInt8 :=
  (w.sink.events.reverse.flatMap Sink.Event.handed).flatMap Array.toList ++ w.waiting

/-- An action that takes back no byte, whether it succeeds or fails. -/
def Produces {α : Type} (x : Put α) : Prop :=
  ∀ w : Writer, Keeps (fun w' => w.produced <+: w'.produced) (fun _ => True) x

theorem produced_shelve (w : Writer) : w.shelve.produced = w.produced := by
  have houtput := wrote_shelve.1.output (w := w)
  rw [List.append_nil, output, output, sink_shelve] at houtput
  rw [produced, produced, sink_shelve, List.append_cancel_left houtput]

theorem produced_transmit (w : Writer) : Ends (fun w' => w'.produced = w.produced ∧
    w'.current = w.current) (fun _ => True) (transmit w) := by
  unfold transmit
  dsimp only
  split
  · refine ⟨⟨?_, rfl⟩, trivial⟩
    simp [produced, waiting, Sink.events, Sink.record, Sink.History.record, Sink.Event.handed,
      IoVector.chunks]
  · refine ⟨?_, rfl⟩
    simp [produced, waiting, Sink.events, Sink.record, Sink.History.record, Sink.Event.handed,
      IoVector.chunks]

theorem produced_openChunk (hw : w.current = none) :
    Ends (fun w' => w'.produced = w.produced) (fun _ => True) (openChunk w) := by
  have hrecord : ∀ e : Sink.Event, e.handed = [] →
      (w.sink.record e).events.reverse.flatMap Sink.Event.handed
        = w.sink.events.reverse.flatMap Sink.Event.handed := by
    intro e he
    simp [Sink.events, Sink.record, Sink.History.record, he]
  unfold openChunk
  dsimp only
  split
  · show produced _ = _
    rw [produced, hrecord _ rfl]
    rfl
  · split
    · refine ⟨?_, trivial⟩
      show produced _ = _
      rw [produced, hrecord _ rfl]
      simp [produced, waiting, hw]
    · show produced _ = _
      rw [produced, hrecord _ rfl]
      rfl

theorem produces_nextChunk : Produces nextChunk := by
  intro start w hw
  have hnone := (wrote_shelve (w := w)).2
  have hopen : ∀ x : Writer, x.current = none → x.produced = w.produced →
      Ends (fun w' => start.produced <+: w'.produced) (fun _ => True) (openChunk x) := by
    intro x hx hproduced
    refine (produced_openChunk hx).imp fun t ht => ?_
    rw [ht, hproduced]
    exact hw
  show Ends _ _ ((if w.shelve.vectorSize ≤ w.shelve.vector.size then do
      transmit
      openChunk else openChunk : Put Unit) w.shelve)
  split
  · have hends := produced_transmit w.shelve
    cases hr : transmit w.shelve with
    | ok u t =>
      rw [hr] at hends
      rw [bind_of_ok hr]
      exact hopen t (hends.1.2.trans hnone) (hends.1.1.trans (produced_shelve w))
    | error e t =>
      rw [hr] at hends
      rw [bind_of_error hr]
      show start.produced <+: t.produced
      rw [hends.1, produced_shelve]
      exact hw
  · exact hopen _ hnone (produced_shelve w)

theorem produces_append (bytes : List UInt8) :
    Produces (modify (·.append bytes) : Put PUnit) := by
  refine fun start => Keeps.modify fun w hw => hw.trans ?_
  have hsink : (w.append bytes).sink = w.sink := rfl
  rw [produced, produced, hsink, List.prefix_append_right_inj]
  cases hc : w.current with
  | none => simp [waiting, append, hc]
  | some c => simp [waiting, append, hc, List.reverseAux_eq]

theorem produces_ensure (n : Nat) : Produces (ensure n) := fun start =>
  Keeps.get.bind fun _ _ => .ite ((produces_nextChunk start).bind fun _ _ =>
    Keeps.get.bind fun _ _ => .ite (.throw _) (.pure trivial)) (.pure trivial)

theorem produces_putTogether (bytes : List UInt8) : Produces (putTogether bytes) := fun start =>
  (produces_ensure _ start).bind fun _ _ => produces_append bytes start

theorem produces_align (n : Nat) : Produces (align n) := fun start =>
  Keeps.get.bind fun _ _ => .ite (produces_putTogether _ start) (.pure trivial)

theorem produces_putAligned (order : ByteOrder) (width n : Nat) :
    Produces (putAligned order width n) := fun start =>
  (produces_align width start).bind fun _ _ => produces_putTogether _ start

theorem produces_putRun (bytes : List UInt8) : Produces (putRun bytes) := by
  have hfrom : ∀ fuel bytes, Produces (putRunFrom fuel bytes) := by
    intro fuel
    induction fuel with
    | zero =>
      intro bytes start
      cases bytes <;> exact .pure trivial
    | succ fuel ih =>
      intro bytes start
      cases bytes with
      | nil => exact .pure trivial
      | cons b bs =>
        have hrest : Keeps (fun w' => start.produced <+: w'.produced) (fun _ => True) (do
            let room := (← get).room
            modify (·.append ((b :: bs).take room))
            putRunFrom fuel ((b :: bs).drop room) : Put Unit) :=
          Keeps.get.bind fun _ _ => (produces_append _ start).bind fun _ _ => ih _ start
        exact Keeps.get.bind fun _ _ => .ite ((produces_nextChunk start).bind fun _ _ => hrest) hrest
  exact hfrom _ bytes

theorem produces_putScalar (r : Representation) (kind : Scalar) (v : Value) :
    Produces (putScalar r kind v) := by
  refine fun start => (produces_align _ start).bind fun _ _ => ?_
  cases kind.word? v with
  | none => exact .throw _
  | some word =>
    exact (Keeps.lift _).bind fun _ _ => (Keeps.lift _).bind fun _ _ => produces_putTogether _ start

end Writer

/-! ### How far a reader got -/

/-- The bytes that a delivery brings. -/
def Delivery.bytes : Delivery → List UInt8
  | chunk bytes => bytes
  | fault _ => []

namespace Reader

/-- The reader `r'` comes behind some bytes of what `r` has, and of what was delivered since. -/
def Reaches (r r' : Reader) : Prop :=
  ∃ delivered passed, r.source.pending = delivered ++ r'.source.pending ∧
    r.current ++ delivered.flatMap Delivery.bytes = passed ++ r'.current ∧
    r'.position = r.position + passed.length

namespace Reaches

variable {r r' r'' : Reader}

theorem refl (r : Reader) : r.Reaches r := ⟨[], [], rfl, by simp, rfl⟩

theorem trans (h : r.Reaches r') (h' : r'.Reaches r'') : r.Reaches r'' := by
  obtain ⟨d, b, hd, hb, hp⟩ := h
  obtain ⟨d', b', hd', hb', hp'⟩ := h'
  refine ⟨d ++ d', b ++ b', by rw [hd, hd', List.append_assoc], ?_, ?_⟩
  · rw [List.flatMap_append, ← List.append_assoc, hb, List.append_assoc, hb', List.append_assoc]
  · rw [hp', hp, List.length_append, Nat.add_assoc]

/-- A delivery is taken in. -/
theorem delivery {d : Delivery} {ds : List Delivery} (hd : r.source.pending = d :: ds)
    (hr : r'.source.pending = ds) (hc : r'.current = r.current ++ d.bytes)
    (hp : r'.position = r.position) : r.Reaches r' :=
  ⟨[d], [], by rw [hd, hr]; rfl, by simp [hc], hp⟩

/-- Bytes of the chunk being read are passed. -/
theorem pass (n : Nat) (hs : r'.source = r.source) (hc : r'.current = r.current.drop n)
    (hp : r'.position = r.position + (r.current.take n).length) : r.Reaches r' :=
  ⟨[], r.current.take n, by rw [hs]; rfl, by simp [hc], hp⟩

end Reaches

/-- An action that goes on in the message, whether it succeeds or fails. -/
def Advances {α : Type} (x : Fetch α) : Prop := ∀ r, Keeps (Reaches r) (fun _ => True) x

theorem ends_ensureFrom (n : Nat) (ds : List Delivery) (r : Reader) (hr : r.source.pending = ds) :
    Ends (Reaches r) (fun _ => True) (ensureFrom n ds r) ∧
      ∀ u r', ensureFrom n ds r = .ok u r' → n ≤ r'.current.length := by
  induction ds generalizing r with
  | nil =>
    unfold ensureFrom
    split
    · rename_i hn
      refine ⟨⟨.refl r, trivial⟩, fun _ _ h => ?_⟩
      cases h
      exact hasAtLeast_iff.1 hn
    · exact ⟨⟨[], [], hr, by simp, rfl⟩, fun _ _ h => absurd h (by simp)⟩
  | cons d ds ih =>
    cases d with
    | fault e =>
      unfold ensureFrom
      split
      · rename_i hn
        refine ⟨⟨.refl r, trivial⟩, fun _ _ h => ?_⟩
        cases h
        exact hasAtLeast_iff.1 hn
      · exact ⟨.delivery hr rfl (by simp [Delivery.bytes]) rfl, fun _ _ h => absurd h (by simp)⟩
    | chunk bytes =>
      unfold ensureFrom
      split
      · rename_i hn
        refine ⟨⟨.refl r, trivial⟩, fun _ _ h => ?_⟩
        cases h
        exact hasAtLeast_iff.1 hn
      · obtain ⟨hends, hlong⟩ := ih (r.take bytes ds) rfl
        have htake : r.Reaches (r.take bytes ds) := .delivery hr rfl rfl rfl
        exact ⟨hends.imp fun r' hr' => htake.trans hr', hlong⟩

theorem advances_ensure (n : Nat) : Advances (ensure n) := fun _ r hr =>
  (ends_ensureFrom n r.source.pending r rfl).1.imp fun _ hr' => hr.trans hr'

theorem advances_getTogether (n : Nat) : Advances (getTogether n) := by
  intro start r hr
  refine (advances_ensure n start r hr).bind fun u r' hx hr' _ => ⟨hr'.trans (.pass n rfl rfl ?_), trivial⟩
  rw [List.length_take, Nat.min_eq_left ((ends_ensureFrom n _ r rfl).2 u r' hx)]
  rfl

theorem advances_align (n : Nat) : Advances (align n) := fun start =>
  Keeps.get.bind fun _ _ => .ite ((advances_getTogether _ start).bind fun _ _ => .pure trivial)
    (.pure trivial)

theorem advances_getRun (n : Nat) : Advances (getRun n) := by
  have hfrom : ∀ fuel n before, Advances (getRunFrom fuel n before) := by
    intro fuel
    induction fuel with
    | zero =>
      intro n before start
      cases n <;> exact .pure trivial
    | succ fuel ih =>
      intro n before start
      cases n with
      | zero => exact .pure trivial
      | succ n =>
        have hpass : Keeps (Reaches start) (fun _ => True) (modifyGet fun r =>
            let bytes := r.current.take (n + 1)
            (bytes, { r with
              current := r.current.drop (n + 1), position := r.position + bytes.length }) :
            Fetch (List UInt8)) :=
          Keeps.modifyGet fun r hr => ⟨hr.trans (.pass (n + 1) rfl rfl rfl), trivial⟩
        exact Keeps.get.bind fun _ _ => .ite ((advances_ensure 1 start).bind fun _ _ =>
          hpass.bind fun _ _ => ih _ _ start) (hpass.bind fun _ _ => ih _ _ start)
  exact hfrom _ _ _

theorem advances_getWord (order : ByteOrder) (width : Nat) : Advances (getWord order width) :=
  fun start => (advances_getTogether width start).bind fun _ _ => .pure trivial

theorem advances_getAligned (order : ByteOrder) (width : Nat) : Advances (getAligned order width) :=
  fun start => (advances_align width start).bind fun _ _ => advances_getWord order width start

theorem advances_getScalar (r : Representation) (kind : Scalar) : Advances (getScalar r kind) :=
  fun start => (advances_align _ start).bind fun _ _ => (Keeps.lift _).bind fun _ _ =>
    (advances_getWord _ _ start).bind fun _ _ => (Keeps.lift _).bind fun _ _ => .pure trivial

end Reader

/-! ### Places in a message -/

namespace Marshal

/-- The state `t` is later in the message. -/
structure State.Before (s t : State) : Prop where
  calls : s.calls <:+ t.calls
  produced : s.writer.produced <+: t.writer.produced

/-- The state `t` is later in the message, and its pipes are the same. -/
structure State.Onward (s t : State) : Prop extends s.Before t where
  pipes : t.pipes = s.pipes

variable {s t u : State} {α : Type}

theorem State.Before.refl (s : State) : s.Before s := ⟨List.suffix_rfl, List.prefix_rfl⟩

theorem State.Before.trans (h : s.Before t) (h' : t.Before u) : s.Before u :=
  ⟨h.calls.trans h'.calls, h.produced.trans h'.produced⟩

/-- An action that goes on in the message and touches no pipe. -/
def Pipeless (x : Marshalling α) : Prop := ∀ s : State, Keeps s.Onward (fun _ => True) x

theorem pipeless_put {x : Put α} (h : Writer.Produces x) : Pipeless (put x) := by
  intro start s hs
  have hends := h start.writer s.writer hs.produced
  unfold put onPart
  cases hx : x s.writer with
  | ok a w => rw [hx] at hends; exact ⟨⟨⟨hs.calls, hends.1⟩, hs.pipes⟩, trivial⟩
  | error e w => rw [hx] at hends; exact ⟨⟨hs.calls, hends⟩, hs.pipes⟩

theorem pipeless_modify {f : State → State} (h : ∀ s, (f s).writer = s.writer)
    (hcalls : ∀ s, s.calls <:+ (f s).calls) (hpipes : ∀ s, (f s).pipes = s.pipes) :
    Pipeless (modify f : Marshalling PUnit) := fun _ => Keeps.modify fun s hs =>
  ⟨⟨hs.calls.trans (hcalls s), h s ▸ hs.produced⟩, (hpipes s).trans hs.pipes⟩

theorem pipeless_recordCall (c : Routine.Call) : Pipeless (recordCall c) :=
  pipeless_modify (fun _ => rfl) (fun _ => List.suffix_cons _ _) fun _ => rfl

theorem pipeless_takeDeferred : Pipeless takeDeferred := fun _ =>
  Keeps.modifyGet fun _ ht => ⟨⟨⟨ht.calls, ht.produced⟩, ht.pipes⟩, trivial⟩

theorem relates_pipeless (env : Env) : RelatesPointers env env (fun _ => True) fun x _ => Pipeless x where
  pure _ _ := .pure trivial
  throw e _ := .throw e
  bind hx hf s := (hx s).bind fun a _ => hf a s
  align n := pipeless_put (Writer.produces_align n)
  count _ := pipeless_put (Writer.produces_putAligned _ _ _)
  shortCount _ := pipeless_put (Writer.produces_putAligned _ _ _)
  scalar kind v := pipeless_put (Writer.produces_putScalar _ kind v)
  run bytes := pipeless_put (Writer.produces_putRun bytes)
  token u s := by
    have hcount := fun n => pipeless_put (Writer.produces_putAligned env.order 4 n) s
    have hword := fun n => pipeless_put (Writer.produces_putTogether (env.order.encode 2 n)) s
    exact (hcount _).bind fun _ _ => (hcount _).bind fun _ _ => (hword _).bind fun _ _ =>
      (hword _).bind fun _ _ => pipeless_put (Writer.produces_putRun _) s
  call := pipeless_recordCall
  recorded c hx s := (hx s).tryFinally_modify fun t ht =>
    ⟨⟨ht.calls.trans (List.suffix_cons _ _), ht.produced⟩, ht.pipes⟩
  seeCalls hf s := Keeps.get.bind fun t _ => hf t.calls s
  sight c s := Keeps.get.bind fun t _ => (Keeps.lift (t.nodes.sight c)).bind fun found _ =>
    (Keeps.modify fun u hu => ⟨⟨hu.calls, hu.produced⟩, hu.pipes⟩).bind (P := fun _ => True)
      fun _ _ => .pure trivial
  defer _ := pipeless_modify (fun _ => rfl) (fun _ => List.suffix_rfl) fun _ => rfl
  takeDeferred hf s := (pipeless_takeDeferred s).bind fun ds _ => hf ds (fun _ _ => trivial) s

end Marshal

namespace Unmarshal

/-- The state `t` is later in the message. -/
structure State.Before (s t : State) : Prop where
  calls : s.calls <:+ t.calls
  reader : s.reader.Reaches t.reader

/-- The state `t` is later in the message, and its pipes are the same. -/
structure State.Onward (s t : State) : Prop extends s.Before t where
  pipes : t.pipes = s.pipes

variable {s t u : State} {α : Type}

theorem State.Before.refl (s : State) : s.Before s := ⟨List.suffix_rfl, .refl _⟩

theorem State.Before.trans (h : s.Before t) (h' : t.Before u) : s.Before u :=
  ⟨h.calls.trans h'.calls, h.reader.trans h'.reader⟩

/-- A change that concerns neither the pipes nor the reader. -/
theorem State.Onward.congr (h : s.Onward t) (hr : u.reader = t.reader) (hc : t.calls <:+ u.calls)
    (hp : u.pipes = t.pipes) : s.Onward u :=
  ⟨⟨h.calls.trans hc, hr ▸ h.reader⟩, hp.trans h.pipes⟩

/-- An action that goes on in the message and touches no pipe. -/
def Pipeless (x : Unmarshalling α) : Prop := ∀ s : State, Keeps s.Onward (fun _ => True) x

theorem pipeless_fetch {x : Fetch α} (h : Reader.Advances x) : Pipeless (fetch x) := by
  intro start s hs
  have hends := h start.reader s.reader hs.reader
  unfold fetch onPart
  cases hx : x s.reader with
  | ok a r => rw [hx] at hends; exact ⟨⟨⟨hs.calls, hends.1⟩, hs.pipes⟩, trivial⟩
  | error e r => rw [hx] at hends; exact ⟨⟨hs.calls, hends⟩, hs.pipes⟩

theorem pipeless_modify {f : State → State} (h : ∀ s, (f s).reader = s.reader)
    (hcalls : ∀ s, s.calls <:+ (f s).calls) (hpipes : ∀ s, (f s).pipes = s.pipes) :
    Pipeless (modify f : Unmarshalling PUnit) := fun _ => Keeps.modify fun s hs =>
  hs.congr (h s) (hcalls s) (hpipes s)

theorem pipeless_scopeOf (id : ScopeId) : Pipeless (scopeOf id) := fun _ =>
  Keeps.get.bind fun _ _ => .pure trivial

theorem advances_getToken (order : ByteOrder) : Reader.Advances (getToken order) := fun start =>
  (Reader.advances_getAligned order 4 start).bind fun _ _ =>
    (Reader.advances_getAligned order 4 start).bind fun _ _ =>
      (Reader.advances_getWord order 2 start).bind fun _ _ =>
        (Reader.advances_getWord order 2 start).bind fun _ _ =>
          (Reader.advances_getRun 8 start).bind fun _ _ => .pure trivial

theorem pipeless_getContext (env : Env) (direction : ContextDirection) (current : Value) :
    Pipeless (getContext env direction current) := by
  intro start
  have hadopt : ∀ (registry : Registry) held u,
      Keeps start.Onward (fun _ => True) (adoptContext registry held u) := by
    intro registry held u
    unfold adoptContext
    refine .ite (Keeps.bind (Keeps.modify fun _ ht => ht.congr rfl List.suffix_rfl rfl)
      fun _ _ => .pure trivial) (.ite ?_ (.pure trivial))
    exact Keeps.bind (Keeps.modify fun _ ht => ht.congr rfl List.suffix_rfl rfl) fun _ _ => .pure trivial
  rw [getContext_eq]
  refine Keeps.get.bind fun s _ => ?_
  cases s.contexts with
  | none => exact .throw _
  | some registry =>
    refine (pipeless_fetch (advances_getToken env.order) start).bind fun u _ => ?_
    cases env.side with
    | server => exact (Keeps.lift _).bind fun _ _ => .pure trivial
    | client => exact (hadopt _ _ _).bind fun _ _ => .pure trivial

theorem pipeless_allocate : Pipeless allocate := fun _ =>
  Keeps.get.bind fun _ _ => (Keeps.lift _).bind fun _ _ => Keeps.get.bind fun _ _ =>
    Keeps.bind (P := fun _ => True) (Keeps.modify fun _ ht => ht.congr rfl List.suffix_rfl rfl)
      fun _ _ => .pure trivial

theorem pipeless_takeDeferred : Pipeless takeDeferred := fun _ =>
  Keeps.modifyGet fun _ ht => ⟨ht.congr rfl List.suffix_rfl rfl, trivial⟩

theorem relates_pipeless (env : Env) :
    RelatesPointers env (fun _ => True) (fun _ => True) fun x _ => Pipeless x where
  pure _ _ := .pure trivial
  throw e _ := .throw e
  bind hx hf s := (hx s).bind fun a _ => hf a s
  align n := pipeless_fetch (Reader.advances_align n)
  count := pipeless_fetch (Reader.advances_getAligned _ _)
  shortCount := pipeless_fetch (Reader.advances_getAligned _ _)
  scalar kind := pipeless_fetch (Reader.advances_getScalar _ kind)
  run n := pipeless_fetch (Reader.advances_getRun n)
  context := pipeless_getContext env
  call _ := pipeless_modify (fun _ => rfl) (fun _ => List.suffix_cons _ _) fun _ => rfl
  openScope _ _ := Keeps.modifyGet fun _ ht => ⟨ht.congr rfl List.suffix_rfl rfl, trivial⟩
  setField id field v s := by
    cases v with
    | none => exact .pure trivial
    | some v => exact Keeps.modify fun _ ht => ht.congr rfl List.suffix_rfl rfl
  scopeOf := pipeless_scopeOf
  keepLate _ _ := pipeless_modify (fun _ => rfl) (fun _ => List.suffix_rfl) fun _ => rfl
  verifyLate scope s := Keeps.get.bind fun _ _ => Keeps.bind (P := fun _ => True)
    (Keeps.modify fun _ ht => ht.congr rfl List.suffix_rfl rfl) fun _ _ =>
      (pipeless_scopeOf scope s).bind fun _ _ =>
        Keeps.forM (P := fun _ => True) (fun _ _ => (Keeps.lift _).weaken) fun _ _ => trivial
  seeHeap hf s := Keeps.get.bind fun t _ => hf t.heap s
  seeCalls hf s := Keeps.get.bind fun t _ => hf t.calls s
  store _ _ _ := Keeps.get.bind fun _ _ =>
    .ite (Keeps.modify fun _ ht => ht.congr rfl List.suffix_rfl rfl) (.throw _)
  takeDeferred hf s := (pipeless_takeDeferred s).bind fun ds _ =>
    hf ds (fun _ _ => ⟨trivial, trivial⟩) s
  allocate hf s := (pipeless_allocate s).bind fun c _ => hf c trivial s
  register id c s := Keeps.get.bind fun t _ => (Keeps.lift (t.nodes.register id c)).bind fun _ _ =>
    Keeps.modify fun _ ht => ht.congr rfl List.suffix_rfl rfl
  sight _ := pipeless_modify (fun _ => rfl) (fun _ => List.suffix_rfl) fun _ => rfl
  defer _ _ := pipeless_modify (fun _ => rfl) (fun _ => List.suffix_rfl) fun _ => rfl
  seeNodes hf s := Keeps.get.bind fun t _ => hf t.nodes s

end Unmarshal

end Ndr
