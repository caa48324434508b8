import Ndr.Proofs.Marshal.Composition
import Ndr.Proofs.Wire

/-!
Writing only adds: a walk over a value adds bytes to the message and ids to the node table, and
what it puts off comes after an id or a mark.
-/

namespace Ndr

/-! ### Node tables in writing -/

/-- The ids count from one, fit their words, and each belongs to one cell. -/
structure NodeTable.Numbered (t : NodeTable) : Prop where
  inverse : t.pairs.Inverse
  range : ∀ id, (t.cellOf? id).isSome ↔ 0 < id ∧ id ≤ t.assigned
  bound : t.assigned < 2 ^ 32

namespace NodeTable

variable {t t' : NodeTable} {c d : CellId} {id : Nat}

theorem numbered_empty : Numbered {} :=
  ⟨Pairing.inverse_empty, fun id => by simp [cellOf?]; omega, by decide⟩

theorem Numbered.cellOf?_iff (h : t.Numbered) : t.cellOf? id = some c ↔ t.idOf? c = some id :=
  h.inverse id c

theorem Numbered.idOf?_range (h : t.Numbered) (e : t.idOf? c = some id) :
    0 < id ∧ id ≤ t.assigned :=
  (h.range id).1 (by rw [h.cellOf?_iff.2 e]; rfl)

theorem Numbered.injective (h : t.Numbered) (hc : t.idOf? c = some id)
    (hd : t.idOf? d = some id) : c = d :=
  Option.some.inj ((h.cellOf?_iff.2 hc).symm.trans (h.cellOf?_iff.2 hd))

/-- The table with the next id given to a cell. -/
def next (t : NodeTable) (c : CellId) : NodeTable where
  pairs := t.pairs.insert (t.assigned + 1) c
  assigned := t.assigned + 1

/-- A known cell repeats its id. -/
theorem sight_of_known (e : t.idOf? c = some id) : t.sight c = .ok (.again id, t) := by
  simp [sight, e]

/-- What meeting a cell for the first time did. -/
theorem sight_eq_ok_of_new {s : Sighting} (hn : t.idOf? c = none)
    (e : t.sight c = .ok (s, t')) :
    s = .first (t.assigned + 1) ∧ t.assigned + 1 < 2 ^ 32 ∧ t' = t.next c := by
  simp only [sight, hn] at e
  split at e
  · rename_i hlt
    simp only [Except.ok.injEq, Prod.mk.injEq] at e
    exact ⟨e.1.symm, hlt, e.2.symm⟩
  · exact absurd e (by simp)

/-- The id after the last is new. -/
theorem Numbered.cellOf?_next (h : t.Numbered) : t.cellOf? (t.assigned + 1) = none := by
  rw [← Option.not_isSome_iff_eq_none, h.range]
  omega

theorem Numbered.next (h : t.Numbered) (hc : t.idOf? c = none) (hlt : t.assigned + 1 < 2 ^ 32) :
    (t.next c).Numbered := by
  refine ⟨h.inverse.insert h.cellOf?_next hc, fun id => ?_, hlt⟩
  simp only [cellOf?, NodeTable.next, Pairing.right?_insert]
  split
  · simp
    omega
  · rename_i hne
    have := h.range id
    simp only [cellOf?] at this
    rw [this]
    omega

theorem idOf?_next (t : NodeTable) (c d : CellId) :
    (t.next c).idOf? d = if c = d then some (t.assigned + 1) else t.idOf? d :=
  Pairing.left?_insert _ _ _ _

/-- A new node leaves the others as they are. -/
theorem idOf?_next_of_known (hc : t.idOf? c = none) (e : t.idOf? d = some id) :
    (t.next c).idOf? d = some id := by
  rw [idOf?_next, if_neg, e]
  rintro rfl
  rw [hc] at e
  exact absurd e (by simp)

end NodeTable

/-! ### Steps of the writer -/

/-- A step of the writer adds bytes. -/
def Puts {α : Type} (x : Put α) : Prop :=
  ∀ ⦃w a w'⦄, 8 ≤ w.bufferSize → x w = .ok a w' → ∃ bytes, Writer.Wrote w w' bytes

theorem puts_align (n : Nat) : Puts (Writer.align n) := fun _ _ _ _ e => ⟨_, Writer.wrote_align e⟩

theorem puts_putAligned (order : ByteOrder) (width v : Nat) :
    Puts (Writer.putAligned order width v) := fun _ _ _ _ e =>
  ⟨_, Writer.wrote_putAligned e⟩

theorem puts_putWord (order : ByteOrder) (width v : Nat) :
    Puts (Writer.putWord order width v) := fun _ _ _ _ e => ⟨_, Writer.wrote_putTogether e⟩

theorem puts_putScalar (r : Representation) (kind : Scalar) (v : Value) :
    Puts (Writer.putScalar r kind v) := fun _ _ _ _ e => by
  obtain ⟨n, -, -, -, h⟩ := Writer.wrote_putScalar e
  exact ⟨_, h⟩

theorem puts_putRun (bytes : List UInt8) : Puts (Writer.putRun bytes) :=
  fun _ _ _ hb e => ⟨_, Writer.wrote_putRun hb e⟩

namespace Marshal

variable {α β : Type} {s t u : State}

/-! ### What grows -/

/-- A state in which a message can be written. -/
structure Ready (s : State) : Prop where
  bufferSize : 8 ≤ s.writer.bufferSize
  nodes : s.nodes.Numbered

/-- What writing does to the message and to the nodes. -/
structure Grown (s t : State) : Prop where
  wrote : ∃ bytes, Writer.Wrote s.writer t.writer bytes
  nodes : ∀ c id, s.nodes.idOf? c = some id → t.nodes.idOf? c = some id
  ready : Ready t

/-- What is put off comes after some bytes. -/
def Spent (s t : State) : Prop := t.deferred = s.deferred ∨ s.writer.position < t.writer.position

namespace Grown

theorem refl (h : Ready s) : Grown s s := ⟨⟨[], .refl⟩, fun _ _ e => e, h⟩

theorem trans (h : Grown s t) (h' : Grown t u) : Grown s u where
  wrote := by
    obtain ⟨bytes, hw⟩ := h.wrote
    obtain ⟨bytes', hw'⟩ := h'.wrote
    exact ⟨_, hw.trans hw'⟩
  nodes c id e := h'.nodes c id (h.nodes c id e)
  ready := h'.ready

/-- A change of neither the message nor the nodes. -/
theorem of_eq (h : Ready s) (hw : t.writer = s.writer) (hn : t.nodes = s.nodes) : Grown s t where
  wrote := ⟨[], by rw [hw]; exact .refl⟩
  nodes c id e := by rw [hn]; exact e
  ready := ⟨by rw [hw]; exact h.bufferSize, by rw [hn]; exact h.nodes⟩

theorem position_le (h : Grown s t) : s.writer.position ≤ t.writer.position := by
  obtain ⟨bytes, hw⟩ := h.wrote
  rw [hw.position]
  exact Nat.le_add_right _ _

end Grown

theorem Spent.trans (h : Grown s t) (h' : Grown t u) (hs : Spent s t) (hs' : Spent t u) :
    Spent s u := by
  have hp := h.position_le
  have hp' := h'.position_le
  rcases hs with hs | hs
  · rcases hs' with hs' | hs'
    · exact .inl (hs'.trans hs)
    · exact .inr (Nat.lt_of_le_of_lt hp hs')
  · exact .inr (Nat.lt_of_lt_of_le hs hp')

/-- An action that only adds. -/
def Grows (x : Marshalling α) : Prop :=
  ∀ ⦃s a t⦄, Ready s → x s = .ok a t → Grown s t ∧ Spent s t

namespace Grows

theorem pure (a : α) : Grows (pure a) := fun _ _ _ hs e => by
  obtain ⟨-, rfl⟩ := pure_eq_ok.1 e
  exact ⟨.refl hs, .inl rfl⟩

theorem throw (e : Fault) : Grows (throw e : Marshalling α) := fun _ _ _ _ h => absurd h throw_ne_ok

theorem bind {x : Marshalling α} {f : α → Marshalling β} (hx : Grows x) (hf : ∀ a, Grows (f a)) :
    Grows (x >>= f) := fun _ _ _ hs e => by
  obtain ⟨a, u, h1, h2⟩ := bind_eq_ok.1 e
  obtain ⟨g1, p1⟩ := hx hs h1
  obtain ⟨g2, p2⟩ := hf a g1.ready h2
  exact ⟨g1.trans g2, .trans g1 g2 p1 p2⟩

/-- An action that changes neither the message, nor the nodes, nor what is put off. -/
theorem quiet {x : Marshalling α} (h : ∀ {s a t}, x s = .ok a t →
    t.writer = s.writer ∧ t.nodes = s.nodes ∧ t.deferred = s.deferred) : Grows x := fun _ _ _ hs e => by
  obtain ⟨hw, hn, hd⟩ := h e
  exact ⟨.of_eq hs hw hn, .inl hd⟩

theorem get : Grows (get : Marshalling State) := quiet fun e => by
  obtain ⟨rfl, rfl⟩ := get_eq_ok.1 e
  exact ⟨rfl, rfl, rfl⟩

theorem lift (x : Except Fault α) : Grows (liftM x) := quiet fun e => by
  obtain ⟨-, rfl⟩ := lift_eq_ok.1 e
  exact ⟨rfl, rfl, rfl⟩

theorem put {x : Put α} (h : Puts x) : Grows (put x) := fun _ _ _ hs e => by
  obtain ⟨w, h1, rfl⟩ := onPart_eq_ok.1 e
  obtain ⟨bytes, hw⟩ := h hs.bufferSize h1
  exact ⟨⟨⟨bytes, hw⟩, fun _ _ e => e, ⟨by rw [hw.bufferSize]; exact hs.bufferSize, hs.nodes⟩⟩,
    .inl rfl⟩

theorem onPipe (h : PipeHandle) (x : EStateM Fault Pipe α) : Grows (onPipe h x) :=
  quiet fun e => by
    obtain ⟨w, -, rfl⟩ := onPart_eq_ok.1 e
    exact ⟨rfl, rfl, rfl⟩

theorem recordCall (c : Routine.Call) : Grows (recordCall c) := quiet fun e => by
  obtain rfl := modify_eq_ok.1 e
  exact ⟨rfl, rfl, rfl⟩

theorem ite {c : Prop} [Decidable c] {x y : Marshalling α} (hx : Grows x) (hy : Grows y) :
    Grows (if c then x else y) := by
  split
  · exact hx
  · exact hy

/-- A check ahead of an action. -/
theorem check {c : Prop} [Decidable c] {e : Fault} {f : PUnit → Marshalling α}
    (h : Grows (f ⟨⟩)) : Grows (if c then MonadExcept.throw e >>= f else f ⟨⟩) :=
  ite (fun _ _ _ _ h => by
    obtain ⟨_, _, h1, -⟩ := bind_eq_ok.1 h
    exact absurd h1 throw_ne_ok) h

/-- An action without a result, its fault aside, and what follows in any case. -/
theorem tryFinally {x : Marshalling α} {y : Marshalling β} (hx : Grows x) (hy : Grows y) :
    Grows (tryFinally x y) := fun _ _ _ hs e => by
  obtain ⟨u, b, h1, h2⟩ := tryFinally_eq_ok.1 e
  obtain ⟨g1, p1⟩ := hx hs h1
  obtain ⟨g2, p2⟩ := hy g1.ready h2
  exact ⟨g1.trans g2, .trans g1 g2 p1 p2⟩

end Grows

/-- The steps of writing only add. -/
theorem composes_grows (env : Env) : Composes env Grows where
  pure := .pure
  throw := .throw
  bind := .bind
  align n := .put (puts_align n)
  count v := .put (puts_putAligned _ _ v)
  shortCount v := .put (puts_putAligned _ _ v)
  word v := .put (puts_putWord _ _ v)
  scalar kind v := .put (puts_putScalar _ kind v)
  run bytes := .put (puts_putRun bytes)
  onPipe h _ x := .onPipe h x
  call := .recordCall
  recorded c hx := .tryFinally hx (.recordCall c)
  seeCalls h := .bind .get fun _ => h _

/-- A walk that only adds. -/
abbrev GrowsAll (walk : Walk) : Prop := ∀ d v site, Grows (walk d v site)

/-! ### Pointers -/

section Walks

variable {env : Env} {walk : Walk} (hw : GrowsAll walk)

include hw

omit hw in
/-- A count takes bytes. -/
theorem putCount_position {v : Nat} {s t : State} {u : Unit} (e : putCount env v s = .ok u t) :
    s.writer.position < t.writer.position := by
  unfold putCount put at e
  obtain ⟨w, h, rfl⟩ := onPart_eq_ok.1 e
  have hw := Writer.wrote_putAligned h
  show s.writer.position < w.position
  rw [hw.position]
  exact Nat.lt_add_of_pos_right (length_alignedBytes_pos (by decide))

theorem grows_putPointee (cell : CellId) (pointee : Nat) (site : Site Scope) :
    Grows (putPointee env walk cell pointee site) :=
  .bind (.lift _) fun _ => .bind (.lift _) fun _ => hw _ _ _

/-- The contents of a cell are written or put off. -/
theorem grown_placePointee {cell : CellId} {pointee : Nat} {site : Site Scope} {s t : State}
    {u : Unit} (hs : Ready s) (e : placePointee env walk cell pointee site s = .ok u t) :
    Grown s t := by
  unfold placePointee at e
  split at e
  · obtain rfl := modify_eq_ok.1 e
    exact .of_eq hs rfl rfl
  · exact (grows_putPointee hw _ _ _ hs e).1

/-- A count, and what is put off behind it. -/
theorem grows_count_placePointee (v : Nat) (cell : CellId) (pointee : Nat) (site : Site Scope) :
    Grows (do putCount env v; placePointee env walk cell pointee site) := by
  intro s a t hs e
  obtain ⟨_, u, h1, h2⟩ := bind_eq_ok.1 e
  obtain ⟨g, -⟩ := (composes_grows env).count v hs h1
  have g2 := grown_placePointee hw g.ready h2
  exact ⟨g.trans g2, .inr (Nat.lt_of_lt_of_le (putCount_position h1) g2.position_le)⟩

omit hw in
theorem sight_eq_ok {c : CellId} {found : Sighting} {s t : State} : sight c s = .ok found t ↔
    ∃ nodes, s.nodes.sight c = .ok (found, nodes) ∧ t = { s with nodes } := by
  unfold sight
  simp only [bind_eq_ok, get_eq_ok, lift_eq_ok, modify_eq_ok, pure_eq_ok]
  constructor
  · rintro ⟨_, _, ⟨rfl, rfl⟩, ⟨found, nodes⟩, _, ⟨hs, rfl⟩, _, _, rfl, rfl, rfl⟩
    exact ⟨nodes, hs, rfl⟩
  · rintro ⟨nodes, hs, rfl⟩
    exact ⟨_, _, ⟨rfl, rfl⟩, (found, nodes), _, ⟨hs, rfl⟩, ⟨⟩, _, rfl, rfl, rfl⟩

omit hw in
theorem grows_sight (c : CellId) : Grows (sight c) := by
  intro s a t hs e
  obtain ⟨nodes, hsight, rfl⟩ := sight_eq_ok.1 e
  refine ⟨⟨⟨[], .refl⟩, ?_, hs.bufferSize, ?_⟩, .inl rfl⟩
  all_goals
    cases hc : s.nodes.idOf? c with
    | some id =>
      rw [NodeTable.sight_of_known hc] at hsight
      cases hsight
      first
        | exact fun _ _ e => e
        | exact hs.nodes
    | none =>
      obtain ⟨-, hlt, rfl⟩ := NodeTable.sight_eq_ok_of_new hc hsight
      first
        | exact hs.nodes.next hc hlt
        | exact fun _ _ hd => NodeTable.idOf?_next_of_known hc hd

omit hw in
theorem putPointer_eq {kind : PointerKind} (hk : kind ≠ .ref) (pointee : Nat) (cell : CellId)
    (site : Site Scope) : putPointer env walk kind pointee (.pointer (some cell)) site =
      putTarget env walk pointee cell site := by
  cases kind with
  | ref => exact absurd rfl hk
  | unique => rfl
  | full => rfl

theorem grows_putTarget (pointee : Nat) (cell : CellId) (site : Site Scope) :
    Grows (putTarget env walk pointee cell site) := by
  refine .bind (grows_sight cell) fun found => ?_
  cases found with
  | again id => exact (composes_grows env).count id
  | first id => exact grows_count_placePointee hw id cell pointee site

theorem grows_putPointer (kind : PointerKind) (pointee : Nat) (v : Value) (site : Site Scope) :
    Grows (putPointer env walk kind pointee v site) := by
  have hmark : ∀ cell, Grows (do
      if site.embedded then putCount env referenceMark
      placePointee env walk cell pointee site) := by
    intro cell
    unfold placePointee
    split
    · rename_i he
      have : Grows (do
          putCount env referenceMark
          placePointee env walk cell pointee site) :=
        grows_count_placePointee hw referenceMark cell pointee site
      simpa only [placePointee, he, if_true] using this
    · exact grows_putPointee hw _ _ _
  unfold putPointer
  cases v with
  | pointer target =>
    cases kind <;> cases target
    · exact .throw _
    · exact hmark _
    · exact (composes_grows env).count 0
    · exact grows_putTarget hw pointee _ site
    · exact (composes_grows env).count 0
    · exact grows_putTarget hw pointee _ site
  | _ => exact .throw _

end Walks

/-! ### Whole values and parameters -/

section

variable {env : Env}

/-- Every walk only adds. -/
theorem grows_walk (room : Nat) : GrowsAll (walk env room) := fun d v site =>
  (composes_grows env).walk (TypeVector.closed_true _).atHand
    (fun hw _ _ _ _ _ _ _ _ => grows_putPointer (fun d v site => hw d v site trivial) _ _ _ _)
    room d v site trivial

theorem takeDeferred_eq_ok {ds : List (Deferred Scope)} : takeDeferred s = .ok ds t ↔
    ds = s.deferred.reverse ∧ t = { s with deferred := [] } := by
  unfold takeDeferred
  rw [modifyGet_eq_ok, Prod.mk.injEq, eq_comm, eq_comm (a := t)]

/-- Pointees are written one after the other, each with those that it puts off. -/
def fillAll (env : Env) (walk : Walk) (depth : Nat) (ds : List (Deferred Scope)) :
    Marshalling Unit :=
  ds.forM fun d => do
    putPointee env walk d.cell d.pointee { scope := d.scope, embedded := false }
    putDeferred env walk depth (← takeDeferred)

theorem grown_takeDeferred {ds : List (Deferred Scope)} (hs : Ready s)
    (e : takeDeferred s = .ok ds t) : Grown s t := by
  obtain ⟨-, rfl⟩ := takeDeferred_eq_ok.1 e
  exact .of_eq hs rfl rfl

theorem grown_fillAll {walk : Walk} (hw : GrowsAll walk) {depth : Nat}
    (ih : ∀ {ds : List (Deferred Scope)} {s t u}, Ready s →
      putDeferred env walk depth ds s = .ok u t → Grown s t)
    {ds : List (Deferred Scope)} {u : Unit} (hs : Ready s)
    (e : fillAll env walk depth ds s = .ok u t) : Grown s t := by
  induction ds generalizing s with
  | nil => exact (pure_eq_ok.1 e).2 ▸ .refl hs
  | cons d all ihall =>
    obtain ⟨_, s3, h3, e3⟩ := bind_eq_ok.1 e
    obtain ⟨_, s1, h1, e1⟩ := bind_eq_ok.1 h3
    obtain ⟨ds', s2, h2, e2⟩ := bind_eq_ok.1 e1
    obtain ⟨g1, -⟩ := grows_putPointee hw _ _ _ hs h1
    have g2 := g1.trans (grown_takeDeferred g1.ready h2)
    have g3 := g2.trans (ih g2.ready e2)
    exact g3.trans (ihall g3.ready e3)

theorem grown_putDeferred {walk : Walk} (hw : GrowsAll walk) (depth : Nat)
    {ds : List (Deferred Scope)} {u : Unit} (hs : Ready s)
    (e : putDeferred env walk depth ds s = .ok u t) : Grown s t := by
  induction depth generalizing ds s t u with
  | zero =>
    cases ds with
    | nil => exact (pure_eq_ok.1 e).2 ▸ .refl hs
    | cons d ds => exact absurd e throw_ne_ok
  | succ depth ih =>
    cases ds with
    | nil => exact (pure_eq_ok.1 e).2 ▸ .refl hs
    | cons d ds => exact grown_fillAll hw ih hs e

theorem grown_flush {walk : Walk} (hw : GrowsAll walk) {u : Unit} (hs : Ready s)
    (e : flush env walk s = .ok u t) : Grown s t := by
  obtain ⟨ds, s1, h1, e1⟩ := bind_eq_ok.1 e
  have g1 := grown_takeDeferred hs h1
  exact g1.trans (grown_putDeferred hw _ g1.ready e1)

end

end Marshal

end Ndr
