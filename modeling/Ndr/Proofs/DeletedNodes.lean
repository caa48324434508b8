import Ndr.Proofs.Lockstep.Operation

/-!
Reports of deleted nodes: which ids a machine has to report behind any requests, and which cells
its partner frees by a report. The ids stand for what they stand for in the last operation of the
partner, so they reach the right cells where that is the operation in which they were noted.
-/

namespace Ndr

namespace Machine

variable {m : Machine}

/-! ### What is left to report -/

/-- What a machine is asked to do. -/
inductive Request where
  | marshal (world : Surroundings) (offset : Nat) (params : List Value) (sink : Sink)
  | unmarshal (world : Surroundings) (offset : Nat) (params : List Value) (source : Source)
  | noteDeleted (c : CellId)

/-- The machine behind a request. -/
def serve (m : Machine) : Request → Machine
  | .marshal world offset params sink => (m.marshal world offset params sink).machine
  | .unmarshal world offset params source => (m.unmarshal world offset params source).machine
  | .noteDeleted c => (m.noteDeleted c).2

/-- A request by which a message goes out. -/
def Sends (m : Machine) : Request → Prop
  | .marshal world offset params sink => ∃ n, (m.marshal world offset params sink).result = .ok n
  | .unmarshal .. | .noteDeleted _ => False

/-- The id that a request notes, if any. -/
def noted (m : Machine) : Request → List Nat
  | .noteDeleted c => (m.nodes.idOf? c).toList
  | .marshal .. | .unmarshal .. => []

/-- The ids that requests note, in order. -/
def notedIn (m : Machine) : List Request → List Nat
  | [] => []
  | r :: rs => m.noted r ++ (m.serve r).notedIn rs

/-- Requests by which no message goes out. -/
def Keeping (m : Machine) : List Request → Prop
  | [] => True
  | r :: rs => ¬ m.Sends r ∧ (m.serve r).Keeping rs

/-- A note is taken exactly where the cell has a node. -/
theorem noteDeleted_snd (m : Machine) (c : CellId) :
    (m.noteDeleted c).2 = { m with deleted := m.deleted ++ (m.nodes.idOf? c).toList } := by
  unfold noteDeleted
  cases m.nodes.idOf? c with
  | none => rw [Option.toList_none, List.append_nil]
  | some id => rfl

/-- Notes in a row leave their ids to report. -/
theorem foldl_noteDeleted (m : Machine) (cs : List CellId) :
    (cs.map Request.noteDeleted).foldl serve m
      = { m with deleted := m.deleted ++ cs.filterMap m.nodes.idOf? } := by
  induction cs generalizing m with
  | nil => rw [List.filterMap_nil, List.append_nil]; rfl
  | cons c cs ih =>
    rw [List.map_cons, List.foldl_cons, ih, serve, noteDeleted_snd, List.append_assoc]
    cases h : m.nodes.idOf? c with
    | none => rw [List.filterMap_cons_none h, Option.toList_none, List.nil_append]
    | some id => rw [List.filterMap_cons_some h, Option.toList_some, List.singleton_append]

theorem deleted_unmarshal (m : Machine) (world : Surroundings) (offset : Nat) (params : List Value)
    (source : Source) : (m.unmarshal world offset params source).machine.deleted = m.deleted := by
  unfold unmarshal
  dsimp only
  split <;> rfl

/-- Writing a message takes all that is left to report, whatever the message has room for; failing
to write it takes nothing. -/
theorem deleted_marshal (m : Machine) (world : Surroundings) (offset : Nat) (params : List Value)
    (sink : Sink) :
    let o := m.marshal world offset params sink
    (∀ n, o.result = .ok n → o.machine.deleted = []) ∧
      (∀ e, o.result = .error e → o.machine.deleted = m.deleted) := by
  unfold marshal
  dsimp only
  split
  · exact ⟨by simp, fun _ _ => rfl⟩
  · split
    · exact ⟨fun _ _ => rfl, by simp⟩
    · exact ⟨by simp, fun _ _ => rfl⟩

theorem deleted_serve_of_sends {r : Request} (h : m.Sends r) : (m.serve r).deleted = [] := by
  cases r with
  | marshal world offset params sink =>
    obtain ⟨n, h⟩ := h
    exact (deleted_marshal m world offset params sink).1 n h
  | unmarshal => exact h.elim
  | noteDeleted => exact h.elim

theorem deleted_serve {r : Request} (h : ¬ m.Sends r) :
    (m.serve r).deleted = m.deleted ++ m.noted r := by
  cases r with
  | marshal world offset params sink =>
    rw [noted, List.append_nil]
    cases e : (m.marshal world offset params sink).result with
    | ok n => exact absurd ⟨n, e⟩ h
    | error e' => exact (deleted_marshal m world offset params sink).2 e' e
  | unmarshal world offset params source =>
    rw [noted, List.append_nil]
    exact deleted_unmarshal m world offset params source
  | noteDeleted c => exact congrArg Machine.deleted (noteDeleted_snd m c)

/-- As long as no message goes out, every node that is noted is left to report, in order. -/
theorem deleted_foldl_of_keeping {rs : List Request} (h : m.Keeping rs) :
    (rs.foldl serve m).deleted = m.deleted ++ m.notedIn rs := by
  induction rs generalizing m with
  | nil => exact (List.append_nil _).symm
  | cons r rs ih => rw [List.foldl_cons, ih h.2, deleted_serve h.1, List.append_assoc, notedIn]

/-- **What is left to report** behind any requests is what was noted since the last message went
out, each node as often as it was noted. Notes that an earlier message had no room for are lost. -/
theorem deleted_foldl (m : Machine) (rs : List Request) :
    (m.Keeping rs ∧ (rs.foldl serve m).deleted = m.deleted ++ m.notedIn rs) ∨
      ∃ before r after, rs = before ++ r :: after ∧ (before.foldl serve m).Sends r ∧
        ((before.foldl serve m).serve r).Keeping after ∧
        (rs.foldl serve m).deleted = ((before.foldl serve m).serve r).notedIn after := by
  induction rs generalizing m with
  | nil => exact .inl ⟨trivial, (List.append_nil _).symm⟩
  | cons r rs ih =>
    rcases ih (m.serve r) with ⟨hk, hd⟩ | ⟨before, r', after, rfl, hs, hk, hd⟩
    · by_cases hr : m.Sends r
      · refine .inr ⟨[], r, rs, rfl, hr, hk, ?_⟩
        rw [List.foldl_cons, hd, deleted_serve_of_sends hr]
        rfl
      · exact .inl ⟨⟨hr, hk⟩, deleted_foldl_of_keeping ⟨hr, hk⟩⟩
    · exact .inr ⟨r :: before, r', after, rfl, hs, hk, hd⟩

end Machine

/-! ### Lists of ids in messages -/

namespace Lockstep

variable {env : Marshal.Env} {s t : Marshal.State} {ids : List Nat} (side : Side)
  (previous : NodeTable)

/-- What comes of ids that are read: all are kept to be freed, or the first without a cell is
refused. -/
def Reported {α : Type} (previous : NodeTable) (ids : List Nat) (u : Unmarshal.State)
    (tail : List UInt8) (result : List Value → α) (r : EStateM.Result Fault Unmarshal.State α) :
    Prop :=
  match ids.find? fun id => (previous.cellOf? id).isNone with
  | some id => ∃ u', r = .error (.unknownNode id) u'
  | none => ∃ reader, reader.rest = tail ∧
      r = .ok (result (ids.map fun id => .ulong (UInt32.ofNat id)))
        { u with reader, deleted := ids.reverse ++ u.deleted }

theorem Reported.bind {α β : Type} {ids : List Nat} {u : Unmarshal.State} {tail : List UInt8}
    {result : List Value → α} {x : Unmarshalling α} {f : α → Unmarshalling β} {g : α → β}
    (h : Reported previous ids u tail result (x u)) (hf : ∀ a t, f a t = .ok (g a) t) :
    Reported previous ids u tail (fun vs => g (result vs)) ((x >>= f) u) := by
  unfold Reported at h ⊢
  cases hfind : ids.find? fun id => (previous.cellOf? id).isNone with
  | some id =>
    simp only [hfind] at h ⊢
    obtain ⟨u', h⟩ := h
    exact ⟨u', bind_of_error h _⟩
  | none =>
    simp only [hfind] at h ⊢
    obtain ⟨reader, hr, h⟩ := h
    exact ⟨reader, hr, (bind_of_ok h _).trans (hf _ _)⟩

/-- A count that is written is the next that is read. -/
theorem putCount_reads {n : Nat} (hn : n < 2 ^ 32) {a : Unit} (hb : 8 ≤ s.writer.bufferSize)
    (e : Marshal.putCount env n s = .ok a t) :
    t = { s with writer := t.writer } ∧ ∃ bytes, Writer.Wrote s.writer t.writer bytes ∧
      ∀ {u : Unmarshal.State} {tail}, u.reader.position = s.writer.position →
        u.reader.rest = bytes ++ tail →
        ∃ reader : Reader, Unmarshal.getCount (env.receiver side previous) u
            = .ok n { u with reader } ∧
          reader.position = t.writer.position ∧ reader.rest = tail := by
  have hput : Marshal.put (Writer.putAligned env.order 4 n) s = .ok a t := e
  obtain ⟨w, h, rfl⟩ := onPart_eq_ok.1 hput
  have hword : n < 256 ^ 4 := hn
  obtain ⟨bytes, hw, hread⟩ := (mirrored_putAligned env.order hword).mirrors hb h
  refine ⟨rfl, bytes, hw, fun {u tail} hp hr => ?_⟩
  obtain ⟨_, reader, he, ht, rfl⟩ := hread hp hr
  have hget : Unmarshal.fetch (Reader.getAligned env.order 4) u = .ok _ { u with reader } :=
    onPart_eq_ok.2 ⟨reader, he, rfl⟩
  exact ⟨reader, hget, by rw [ht.position, hw.position, hp], ht.rest⟩

theorem getDeletedNode_known {u u' : Unmarshal.State} {env : Unmarshal.Env} {id : Nat}
    (e : Unmarshal.getCount env u = .ok id u') (h : (env.previous.cellOf? id).isNone = false) :
    Unmarshal.getDeletedNode env u
      = .ok (.ulong (UInt32.ofNat id)) { u' with deleted := id :: u'.deleted } := by
  unfold Unmarshal.getDeletedNode
  rw [bind_of_ok e, if_neg (by rw [h]; exact Bool.false_ne_true)]
  rfl

theorem getDeletedNode_unknown {u u' : Unmarshal.State} {env : Unmarshal.Env} {id : Nat}
    (e : Unmarshal.getCount env u = .ok id u') (h : (env.previous.cellOf? id).isNone = true) :
    Unmarshal.getDeletedNode env u = .error (.unknownNode id) u' := by
  unfold Unmarshal.getDeletedNode
  rw [bind_of_ok e, if_pos h]
  rfl

/-- Ids that are written are read back up to the first that is not known. -/
theorem putIds_reads (hids : ∀ id ∈ ids, id < 2 ^ 32) (hb : 8 ≤ s.writer.bufferSize) {a : Unit}
    (e : ids.forM (Marshal.putCount env) s = .ok a t) :
    t = { s with writer := t.writer } ∧ ∃ bytes, Writer.Wrote s.writer t.writer bytes ∧
      ∀ {u : Unmarshal.State} {tail}, u.reader.position = s.writer.position →
        u.reader.rest = bytes ++ tail →
        Reported previous ids u tail id
          (repeatM ids.length (Unmarshal.getDeletedNode (env.receiver side previous)) u) := by
  induction ids generalizing s with
  | nil =>
    obtain ⟨-, rfl⟩ := pure_eq_ok.1 e
    exact ⟨rfl, [], .refl, fun {u tail} _ hr => ⟨u.reader, hr, rfl⟩⟩
  | cons id ids ih =>
    obtain ⟨_, s1, h1, e1⟩ := bind_eq_ok.1 e
    obtain ⟨hs1, bytes1, hw1, hread1⟩ :=
      putCount_reads side previous (hids id List.mem_cons_self) hb h1
    obtain ⟨ht, bytes2, hw2, hread2⟩ := ih (fun i hi => hids i (List.mem_cons_of_mem _ hi))
      (hw1.bufferSize ▸ hb) e1
    refine ⟨ht.trans (by rw [hs1]), bytes1 ++ bytes2, hw1.trans hw2, fun {u tail} hp hr => ?_⟩
    obtain ⟨reader, he, hp1, hr1⟩ := hread1 hp (hr.trans (List.append_assoc _ _ _))
    rw [List.length_cons, repeatM_succ]
    unfold Reported
    cases hid : (previous.cellOf? id).isNone with
    | true =>
      simp only [List.find?_cons, hid]
      exact ⟨_, bind_of_error (getDeletedNode_unknown he hid) _⟩
    | false =>
      simp only [List.find?_cons, hid]
      rw [bind_of_ok (getDeletedNode_known he hid)]
      have hrest := hread2 (u := { u with reader, deleted := id :: u.deleted }) hp1 hr1
      unfold Reported at hrest
      cases hfind : ids.find? fun id => (previous.cellOf? id).isNone with
      | some id' =>
        simp only [hfind] at hrest ⊢
        obtain ⟨u', hrest⟩ := hrest
        exact ⟨u', map_of_error hrest _⟩
      | none =>
        simp only [hfind] at hrest ⊢
        obtain ⟨reader', hr', hrest⟩ := hrest
        refine ⟨reader', hr', map_eq_ok.2 ⟨_, hrest.trans ?_, rfl⟩⟩
        rw [List.reverse_cons, List.append_assoc]
        rfl

/-- A list of deleted nodes that is written is read back up to the first that is not known. -/
theorem putDeleted_reads (hids : ∀ id ∈ env.deleted, id < 2 ^ 32)
    (hcount : env.deleted.length ≤ env.config.maxElements) (hb : 8 ≤ s.writer.bufferSize) {a : Unit}
    (e : Marshal.putDeleted env s = .ok a t) :
    t = { s with writer := t.writer } ∧ ∃ bytes, Writer.Wrote s.writer t.writer bytes ∧
      ∀ {u : Unmarshal.State} {tail}, u.reader.position = s.writer.position →
        u.reader.rest = bytes ++ tail →
        Reported previous env.deleted u tail .array
          (Unmarshal.getDeleted (env.receiver side previous) u) := by
  unfold Marshal.putDeleted at e
  split at e
  · obtain ⟨_, _, h, -⟩ := bind_eq_ok.1 e
    exact absurd h throw_ne_ok
  · rename_i hlength
    obtain ⟨_, s1, h1, e1⟩ := bind_eq_ok.1 e
    obtain ⟨hs1, bytes1, hw1, hread1⟩ :=
      putCount_reads side previous (Nat.lt_of_not_le hlength) hb h1
    obtain ⟨ht, bytes2, hw2, hread2⟩ :=
      putIds_reads side previous hids (hw1.bufferSize ▸ hb) e1
    refine ⟨ht.trans (by rw [hs1]), bytes1 ++ bytes2, hw1.trans hw2, fun {u tail} hp hr => ?_⟩
    obtain ⟨reader, he, hp1, hr1⟩ := hread1 hp (hr.trans (List.append_assoc _ _ _))
    have hcheck : Unmarshal.checkCount (env.receiver side previous) env.deleted.length = .ok () :=
      if_pos hcount
    unfold Unmarshal.getDeleted
    rw [bind_of_ok he, hcheck]
    exact (hread2 hp1 hr1).bind previous fun _ _ => rfl

/-! ### Operations that only report -/

theorem putDeferred_nil {walk : Marshal.Walk} {depth : Nat} {a : Unit}
    (e : Marshal.putDeferred env walk depth [] s = .ok a t) : s = t := by
  cases depth <;> exact (pure_eq_ok.1 e).2

/-- A list of deleted nodes as a parameter that is written. -/
theorem writeParameter_deletedNodes {room : Nat} {params : List Value} {scope : Scope}
    {p : Parameter} (hp : p.descriptor.form = .deletedNodes)
    (hids : ∀ id ∈ env.deleted, id < 2 ^ 32)
    (hcount : env.deleted.length ≤ env.config.maxElements) (hs : s.deferred = [])
    (hb : 8 ≤ s.writer.bufferSize) {a : Unit}
    (e : writeParameter env (Marshal.walk env room) params scope p s = .ok a t) :
    room ≠ 0 ∧ ∃ bytes, Writer.Wrote s.writer t.writer bytes ∧
      ∀ {u : Unmarshal.State} {tail}, u.reader.position = s.writer.position →
        u.reader.rest = bytes ++ tail →
        Reported previous env.deleted u tail .array
          (Unmarshal.getDeleted (env.receiver side previous) u) := by
  cases hv : params[p.index]? with
  | none =>
    simp only [writeParameter, hv] at e
    exact absurd e throw_ne_ok
  | some v =>
    simp only [writeParameter, hv] at e
    obtain ⟨_, s1, h1, e1⟩ := bind_eq_ok.1 e
    cases room with
    | zero => exact absurd h1 throw_ne_ok
    | succ room =>
      obtain ⟨_, s2, h2, e2⟩ := bind_eq_ok.1 h1
      simp only [Marshal.putForm, hp] at h2
      obtain ⟨hs2, hwrote⟩ := putDeleted_reads side previous hids hcount hb h2
      -- a routine that releases the value only records its call
      have hfree : s1 = { s2 with calls := s1.calls } := by
        cases hf : p.descriptor.modifiers.freeRep with
        | none =>
          simp only [hf] at e2
          obtain ⟨-, rfl⟩ := pure_eq_ok.1 e2
          rfl
        | some routine =>
          simp only [hf] at e2
          obtain ⟨_, _, h3, h4⟩ := bind_eq_ok.1 e2
          obtain ⟨-, rfl⟩ := lift_eq_ok.1 h3
          obtain rfl := modify_eq_ok.1 h4
          rfl
      have hdeferred : s1.deferred = [] := by rw [hfree, hs2]; exact hs
      obtain ⟨ds, s3, h3, e3⟩ := bind_eq_ok.1 e1
      obtain ⟨rfl, rfl⟩ := Marshal.takeDeferred_eq_ok.1 h3
      rw [hdeferred] at e3
      obtain rfl := putDeferred_nil e3
      rw [hfree]
      exact ⟨Nat.succ_ne_zero _, hwrote⟩

theorem getParameter_deletedNodes {env : Unmarshal.Env} {d : Descriptor} {current : Value}
    {site : Site ScopeId} (hd : d.form = .deletedNodes) (hroom : env.config.maxNesting ≠ 0) :
    Unmarshal.getParameter env d current site = Unmarshal.getDeleted env := by
  obtain ⟨room, hroom⟩ := Nat.exists_eq_succ_of_ne_zero hroom
  rw [getParameter_eq_walk (by simp [hd]) (by simp [hd]), hroom]
  simp only [Unmarshal.walk, Unmarshal.getForm, hd]

end Lockstep

namespace Machine

open Lockstep (Reported)

variable {m m' : Machine}

/-- What stays the same while a machine reads. -/
abbrev reading (m : Machine) : Unmarshal.Env := { m.startOperation with }

/-- What a machine does with a list of ids: it frees the cells of the nodes that they stand for in
the operation before, or refuses the first that stands for none. -/
structure Reports (m : Machine) (world : Surroundings) (params : List Value) (index : Nat)
    (ids : List Nat) (o : Outcome Source (List Value)) : Prop where
  known : (∀ id ∈ ids, (m.nodes.cellOf? id).isSome) →
    o.result = .ok (params.set index (.array (ids.map fun id => .ulong (UInt32.ofNat id)))) ∧
      o.surroundings.heap = (ids.filterMap m.nodes.cellOf?).foldl Heap.release world.heap
  unknown : ∀ before id after, ids = before ++ id :: after →
    (∀ i ∈ before, (m.nodes.cellOf? i).isSome) → m.nodes.cellOf? id = none →
    o.result = .error (.unknownNode id)

theorem reports_unmarshal {world : Surroundings} {offset : Nat} {params : List Value}
    {source : Source} {p : Parameter} {ids : List Nat} (tail : List UInt8)
    (hlist : m.interface.vector.parameters offset = .ok [p])
    (hp : p.descriptor.form = .deletedNodes) (hroom : m.config.maxNesting ≠ 0)
    (hlt : p.index < params.length)
    (h : Reported m.nodes ids { world with
        reader := { source }, scopes := #[Unmarshal.parameterScope world.heap [p] params] } tail
      .array (Unmarshal.getDeleted m.reading { world with
        reader := { source }, scopes := #[Unmarshal.parameterScope world.heap [p] params] })) :
    m.Reports world params p.index ids (m.unmarshal world offset params source) := by
  let start : Unmarshal.State := { world with
    reader := { source }, scopes := #[Unmarshal.parameterScope world.heap [p] params] }
  -- the only parameter is read, and no bound waits for it
  have hrun : Unmarshal.getParameters m.reading offset params
      { world with reader := { source } } = (do
        let v ← Unmarshal.readParameter m.reading params 0 p
        Unmarshal.verifyLate 0
        return [v] : Unmarshalling _) start := by
    unfold Unmarshal.getParameters
    refine (bind_of_ok (lift_eq_ok.2 ⟨hlist, rfl⟩) _).trans ?_
    refine (bind_of_ok (get_eq_ok.2 ⟨rfl, rfl⟩) _).trans ?_
    refine (bind_of_ok (Unmarshal.openScope_eq_ok.2 ⟨rfl, rfl⟩) _).trans ?_
    rw [List.mapM_cons, List.mapM_nil]
    simp only [bind_assoc, pure_bind]
    rfl
  have hread : Unmarshal.readParameter m.reading params 0 p = (do
      let v ← Unmarshal.getDeleted m.reading
      Unmarshal.flush m.reading (Unmarshal.walk m.reading m.config.maxNesting)
      Unmarshal.setField 0 p.index (correlationOf (← get).heap v)
      return (p.index, v) : Unmarshalling _) := by
    simp only [Unmarshal.readParameter, List.getElem?_eq_getElem hlt]
    rw [Lockstep.getParameter_deletedNodes hp hroom]
    rfl
  rw [hread] at hrun
  unfold Reported at h
  constructor
  · intro hknown
    have hfind : ids.find? (fun id => (m.nodes.cellOf? id).isNone) = none :=
      List.find?_eq_none.2 fun id hid => by
        rw [Option.isNone_iff_eq_none]
        exact Option.isSome_iff_ne_none.1 (hknown id hid)
    simp only [hfind] at h
    obtain ⟨reader, -, h⟩ := h
    have hflush : ∀ walk, Unmarshal.flush m.reading walk
        { start with reader, deleted := ids.reverse ++ [] }
          = .ok () { start with reader, deleted := ids.reverse ++ [] } := fun _ => rfl
    have hverify : ∀ c ∈ Unmarshal.State.due { start with reader, deleted := ids.reverse ++ [] } 0,
        c.verify (start.scopes[0]?.getD #[]) = .ok () := by
      simp [Unmarshal.State.due, start]
    have hok := hrun.trans (bind_eq_ok.2 ⟨_, _, bind_eq_ok.2 ⟨_, _, h, bind_eq_ok.2 ⟨(), _,
      hflush _, bind_eq_ok.2 ⟨_, _, get_eq_ok.2 ⟨rfl, rfl⟩, bind_eq_ok.2 ⟨(), _,
        Unmarshal.setField_eq_ok.2 rfl, rfl⟩⟩⟩⟩,
      bind_eq_ok.2 ⟨(), _, Unmarshal.verifyLate_eq_ok.2 ⟨hverify, rfl⟩, rfl⟩⟩)
    unfold unmarshal
    dsimp only
    rw [hok]
    refine ⟨rfl, ?_⟩
    show ((ids.reverse ++ []).reverse.filterMap _).foldl Heap.release _ = _
    rw [List.append_nil, List.reverse_reverse]
    rfl
  · intro before id after hids hknown hid
    have hfind : ids.find? (fun id => (m.nodes.cellOf? id).isNone) = some id :=
      List.find?_eq_some_iff_append.2 ⟨by simp [hid], before, after, hids,
        fun i hi => by simp [hknown i hi]⟩
    simp only [hfind] at h
    obtain ⟨u', h⟩ := h
    have herror := hrun.trans (bind_of_error (bind_of_error h _) _)
    unfold unmarshal
    dsimp only
    rw [herror]

/-- **What is reported, its partner frees.** A message that holds only the report of a machine has
its partner free the cells of the nodes that the ids stand for in the operation that it carried out
last, in order and nothing else; or it is refused for the first id that stands for no cell there. -/
theorem report_freed (hm : m.Matches m') (hc : m.config.check = .ok ()) {offset : Nat}
    {p : Parameter} (hlist : m.interface.vector.parameters offset = .ok [p])
    (hp : p.descriptor.form = .deletedNodes) (hids : ∀ id ∈ m.deleted, id < 2 ^ 32)
    (hcount : m.deleted.length ≤ m.config.maxElements) {world : Surroundings} {params : List Value}
    {sink : Sink} {n : Nat} (e : (m.marshal world offset params sink).result = .ok n) :
    ∃ wire, wire.length = n ∧
      (m.marshal world offset params sink).transport.message = sink.message ++ wire ∧
      ∀ world' params' source tail, p.index < params'.length → source.bytes = wire ++ tail →
        m'.Reports world' params' p.index m.deleted
          (m'.unmarshal world' offset params' source) := by
  obtain ⟨t, hput, rfl, hmessage⟩ := Lockstep.marshal_eq_ok e
  obtain ⟨list, s1, h1, e1⟩ := bind_eq_ok.1 hput
  obtain ⟨hlist', rfl⟩ := lift_eq_ok.1 h1
  obtain rfl := Except.ok.inj (hlist.symm.trans hlist')
  obtain ⟨_, s2, h2, e2⟩ := bind_eq_ok.1 e1
  obtain ⟨-, rfl⟩ := pure_eq_ok.1 e2
  obtain ⟨hroom, wire, hwrote, hread⟩ := Lockstep.writeParameter_deletedNodes m'.side m'.nodes hp
    hids hcount rfl ((Config.check_eq_ok_iff _).1 hc).1 h2
  refine ⟨wire, ?_, ?_, fun world' params' source tail hlt hsource => ?_⟩
  · rw [hwrote.position]
    exact (Nat.zero_add _).symm
  · rw [hmessage, hwrote.output, Writer.output_new]
  · have henv : m'.reading = (m.writing world).receiver m'.side m'.nodes := by
      simp only [Machine.reading, Machine.startOperation, Marshal.Env.receiver, hm.interface,
        hm.representation, hm.config]
    refine reports_unmarshal tail (by rw [hm.interface]; exact hlist) hp
      (by rw [hm.config]; exact hroom) hlt ?_
    rw [henv]
    exact hread rfl hsource

/-- **Notes that are reported at once reach the right cells.** Where nothing else was left to
report, and the last operation of the partner knows the nodes, it frees for every cell that was
noted the one that it holds under the same id, in order and nothing else. -/
theorem notes_freed (hm : m.Matches m') (hc : m.config.check = .ok ()) {offset : Nat}
    {p : Parameter} (hlist : m.interface.vector.parameters offset = .ok [p])
    (hp : p.descriptor.form = .deletedNodes) (hd : m.deleted = [])
    (hids : ∀ c id, m.nodes.idOf? c = some id → id < 2 ^ 32) {cs : List CellId}
    (hcount : (cs.filterMap m.nodes.idOf?).length ≤ m.config.maxElements) {world : Surroundings}
    {params : List Value} {sink : Sink} {n : Nat}
    (e : (((cs.map Request.noteDeleted).foldl serve m).marshal world offset params sink).result
      = .ok n) :
    ∃ wire, wire.length = n ∧
      (((cs.map Request.noteDeleted).foldl serve m).marshal world offset params sink).transport.message
        = sink.message ++ wire ∧
      ∀ world' params' source tail, p.index < params'.length → source.bytes = wire ++ tail →
        (∀ c ∈ cs, ∀ id, m.nodes.idOf? c = some id → (m'.nodes.cellOf? id).isSome) →
        (m'.unmarshal world' offset params' source).surroundings.heap
          = (cs.filterMap fun c => (m.nodes.idOf? c).bind m'.nodes.cellOf?).foldl Heap.release
              world'.heap := by
  rw [foldl_noteDeleted, hd, List.nil_append] at e ⊢
  have hm' : Matches { m with deleted := cs.filterMap m.nodes.idOf? } m' :=
    ⟨hm.interface, hm.representation, hm.config⟩
  have hfit : ∀ id ∈ cs.filterMap m.nodes.idOf?, id < 2 ^ 32 := fun id hid => by
    obtain ⟨c, -, hc⟩ := List.mem_filterMap.1 hid
    exact hids c id hc
  obtain ⟨wire, hlength, hmessage, hfree⟩ := report_freed hm' hc hlist hp hfit hcount e
  refine ⟨wire, hlength, hmessage, fun world' params' source tail hlt hsource hknown => ?_⟩
  have hall : ∀ id ∈ cs.filterMap m.nodes.idOf?, (m'.nodes.cellOf? id).isSome := fun id hid => by
    obtain ⟨c, hmem, hc⟩ := List.mem_filterMap.1 hid
    exact hknown c hmem id hc
  rw [((hfree world' params' source tail hlt hsource).known hall).2, List.filterMap_filterMap]

end Machine

end Ndr
