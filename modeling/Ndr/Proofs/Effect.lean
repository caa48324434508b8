import Ndr.Proofs.BackReference
import Ndr.Proofs.History
import Ndr.Proofs.Marshal.Nodes

/-!
The effect of a message that was read: what becomes of the parameters, of the cells that were there,
of those that the message made, and of the node table. A message frees cells by their ids in the
node table of the operation before. Those were there when the message came, unless that operation
came to a fault in writing: it may have given an id to a cell that is made only now.
-/

namespace Ndr

/-- Every id stands for a cell that was given out. -/
def NodeTable.Within (t : NodeTable) (h : Heap) : Prop :=
  ∀ id c, t.cellOf? id = some c → c < h.allocations

/-- Cells are given out for good. -/
theorem NodeTable.Within.mono {t : NodeTable} {h h' : Heap} (ht : t.Within h)
    (hle : h.allocations ≤ h'.allocations) : t.Within h' :=
  fun id c hc => Nat.lt_of_lt_of_le (ht id c hc) hle

/-! ### Reading -/

namespace Unmarshal

/-- Ids that are read and their cells stand for each other one to one. -/
theorem composes_consistent (env : Env) :
    ComposesSteps env (fun _ => True) (Holds fun s => s.nodes.Consistent) := by
  have hframe : ∀ s t : State, t.nodes = s.nodes → s.nodes.Consistent → t.nodes.Consistent :=
    fun _ _ hn hs => hn ▸ hs
  refine composesSteps_of_frame (fun s t he => hframe s t (Prod.mk.inj (Prod.mk.inj he).2).1)
    (holds_getContext_of_frame (fun s t he => hframe s t (Prod.mk.inj (Prod.mk.inj he).2).1) env)
    (holds_allocate_of_frame fun s t hn _ _ => hframe s t hn)
    (fun _ => holds_store_of_frame (fun s t hn _ _ => hframe s t hn) _) ?_ ?_ ?_
  · exact fun _ _ => Keeps.get.bind fun _ hs => (Keeps.lift _).bind fun _ hr =>
      Keeps.modify fun _ _ => hs.register hr
  · exact fun _ => Keeps.modify fun _ hs => hs
  · exact Keeps.modifyGet fun _ hs => ⟨hs, fun _ _ => trivial⟩

/-- At the start nothing is read. -/
theorem Work.start (heap : Heap) (contexts : Option Registry) (reader : Reader)
    (pipes : Array Pipe) (calls : List Routine.Call) :
    Work heap.allocations [] { reader, heap, contexts, pipes, calls } where
  range := by simp
  first := by simp
  known := by simp
  node _ _ h := absurd h (by simp [NodeTable.cellOf?])
  seen _ h1 h2 := absurd h1 (Nat.not_le.2 h2)
  size := Nat.le_refl _
  deferred := by simp
  rest := rfl
  due := by simp

/-- The cell of a reference has no other pointer. -/
theorem Tracked.alone {base : Nat} {s : State} (h : Tracked base s) {p q : Sighting}
    (hp : p ∈ s.sightings) (hid : p.id = none) (hq : q ∈ s.sightings) (hc : q.cell = p.cell) :
    q = p := by
  obtain ⟨r, hr, -, hrp⟩ := h.first p hp
  obtain ⟨r', hr', hri, hrq⟩ := h.first q hq
  -- the first pointer to the cell is the reference, so `q` has no id either
  rw [hc] at hr'
  obtain rfl := Option.some.inj (hr.symm.trans hr')
  obtain rfl := hrp hid
  exact (hrq (hri ▸ hid)).symm

/-- The parameters of a list that was read were given. -/
theorem index_lt_of_getParameters {env : Env} {offset : Nat} {params : List Value}
    {values : List (Nat × Value)} {list : List Parameter} {s t : State}
    (hlist : env.vector.parameters offset = .ok list)
    (e : getParameters env offset params s = .ok values t) :
    ∀ p ∈ list, p.index < params.length := by
  obtain ⟨list', u, hlist', hread, -, -⟩ := getParameters_eq_ok e
  obtain rfl := Except.ok.inj (hlist.symm.trans hlist')
  have hall : ∀ (scope : ScopeId) (list : List Parameter) (vs : List (Nat × Value)) (s t : State),
      list.mapM (readParameter env params scope) s = .ok vs t →
        ∀ p ∈ list, p.index < params.length := by
    intro scope list
    induction list with
    | nil => simp
    | cons p list ih =>
      intro vs s t e
      rw [List.mapM_cons] at e
      obtain ⟨_, _, hp, e'⟩ := bind_eq_ok.1 e
      obtain ⟨vs', s', hrest, -⟩ := bind_eq_ok.1 e'
      refine List.forall_mem_cons.2 ⟨?_, ih _ _ _ hrest⟩
      obtain ⟨current, _, _, _, hcurrent, -⟩ := readParameter_eq_ok hp
      exact (List.getElem?_eq_some_iff.1 hcurrent).1
  exact hall _ _ _ _ _ hread

end Unmarshal

/-! ### Operations -/

namespace Machine

open Unmarshal (Filled Fits IsRead ReadAs)

/-- What an operation did that read the pointers `ps` and the ids `deleted` of deleted nodes. -/
structure Effect (m : Machine) (world : Surroundings) (offset : Nat) (params : List Value)
    (ps : List Unmarshal.Sighting) (deleted : List Nat) (o : Outcome Source (List Value)) :
    Prop where
  /-- The parameters of the list get values that come from their descriptors, and the others keep
  theirs. -/
  replaced : ∃ list results, m.interface.vector.parameters offset = .ok list ∧
    o.result = .ok results ∧ results.length = params.length ∧
    (∀ p ∈ list, ∃ v, results[p.index]? = some v ∧
      ∃ q ∈ list, q.index = p.index ∧ ReadAs { m.startOperation with } ps q.descriptor v) ∧
    ∀ i, (∀ p ∈ list, p.index ≠ i) → results[i]? = params[i]?
  /-- Where no type is that of deleted nodes, no node is deleted. -/
  undeleted : m.interface.vector.WithoutDeletions offset → deleted = []
  /-- A cell that was there is live as it was, and holds what it held, unless a deleted node
  names it. -/
  old : ∀ c < world.heap.allocations, (∀ id ∈ deleted, m.nodes.cellOf? id ≠ some c) →
    o.surroundings.heap.load? c = world.heap.load? c
  /-- The cells that deleted nodes name are not live any more. -/
  freed : ∀ id ∈ deleted, ∀ c, m.nodes.cellOf? id = some c → o.surroundings.heap.load? c = none
  /-- A new cell holds a value of the pointee of the first pointer to it. -/
  new : ∀ c, world.heap.allocations ≤ c → c < o.surroundings.heap.allocations →
    (∀ id ∈ deleted, m.nodes.cellOf? id ≠ some c) →
      Filled (Fits { m.startOperation with } ps) o.surroundings.heap c
  /-- Every pointer leads to a new cell. -/
  made : ∀ p ∈ ps, world.heap.allocations ≤ p.cell ∧ p.cell < o.surroundings.heap.allocations
  /-- Every new cell was made for a pointer. -/
  seen : ∀ c, world.heap.allocations ≤ c → c < o.surroundings.heap.allocations →
    ∃ p ∈ ps, p.cell = c
  /-- A reference has a cell of its own. -/
  alone : ∀ p ∈ ps, p.id = none → ∀ q ∈ ps, q.cell = p.cell → q = p
  /-- The ids that were read stand for the cells that their pointers lead to. -/
  table : ∀ id c, o.machine.nodes.cellOf? id = some c ↔ ∃ p ∈ ps, p.id = some id ∧ p.cell = c
  /-- Ids and cells stand for each other one to one, and no id is zero. -/
  nodes : o.machine.nodes.Consistent

/-- Every parameter of a list gets a value that was read for its index, and no other gets one. -/
theorem replaced_of_read {R : Descriptor → Value → Prop}
    {list : List Parameter} {values : List (Nat × Value)} {params : List Value}
    (hvalues : List.Forall₂ (fun p v => v.1 = p.index ∧ R p.descriptor v.2) list values)
    (hindex : ∀ p ∈ list, p.index < params.length) :
    (∀ p ∈ list, ∃ v, (replace params values)[p.index]? = some v ∧
      ∃ q ∈ list, q.index = p.index ∧ R q.descriptor v) ∧
    ∀ i, (∀ p ∈ list, p.index ≠ i) → (replace params values)[i]? = params[i]? := by
  have hindices : values.map Prod.fst = list.map (·.index) := by
    clear hindex
    induction hvalues with
    | nil => rfl
    | cons hv _ ih => rw [List.map_cons, List.map_cons, hv.1, ih]
  constructor
  · intro p hp
    have hmem : p.index ∈ values.map Prod.fst := hindices ▸ List.mem_map_of_mem hp
    obtain ⟨v, hv, hget⟩ := exists_getElem?_replace hmem (hindex p hp)
    obtain ⟨q, hq, hqi, hread⟩ := exists_of_forall₂ hvalues.flip hv
    exact ⟨v, hget, q, hq, hqi.symm, hread⟩
  · intro i hi
    refine getElem?_replace_of_notMem fun hmem => ?_
    obtain ⟨p, hp, rfl⟩ := List.mem_map.1 (hindices ▸ hmem)
    exact hi p hp rfl

/-- What an operation that succeeds leaves is what its reading comes to. -/
theorem unmarshal_eq_ok {m : Machine} {world : Surroundings} {offset : Nat} {params : List Value}
    {source : Source} {results : List Value}
    (he : (m.unmarshal world offset params source).result = .ok results) :
    ∃ values s, Unmarshal.getParameters { m.startOperation with } offset params
        { world with reader := { source } } = .ok values s ∧
      (m.unmarshal world offset params source).result = .ok (replace params values) ∧
      (m.unmarshal world offset params source).surroundings = commit m.nodes s ∧
      (m.unmarshal world offset params source).machine.nodes = s.nodes := by
  unfold unmarshal at he ⊢
  dsimp only at he ⊢
  split at he
  · rename_i values s hrun
    exact ⟨values, s, hrun, rfl, rfl, rfl⟩
  · exact absurd he (by simp)

/-- **The effect of a message that was read**: it gives values to the parameters of its list, makes
and fills a cell for every new id and every reference, and changes no other cell but to free those
that its deleted nodes name. -/
theorem unmarshal_effect (m : Machine) (world : Surroundings) (offset : Nat) (params : List Value)
    (source : Source) {results : List Value}
    (he : (m.unmarshal world offset params source).result = .ok results) :
    ∃ ps deleted, m.Effect world offset params ps deleted
      (m.unmarshal world offset params source) := by
  obtain ⟨values, s, hrun, hresult, hworld, hnodes⟩ := unmarshal_eq_ok he
  have hstart := Unmarshal.Work.start world.heap world.contexts { source } world.pipes world.calls
  obtain ⟨hs, hstep, list, hlist, hvalues⟩ := Unmarshal.getParameters_step hstart hrun
  have hundo : Unmarshal.Undoable world.heap world.contexts s := by
    have hkeep := (Unmarshal.composes_undoable { m.startOperation with } (h := world.heap)
      (r := world.contexts)).walks.getParameters offset params _
        (.start { source } world.pipes world.calls)
    rw [hrun] at hkeep
    exact hkeep.1
  have hconsistent : s.nodes.Consistent := by
    have hkeep := (Unmarshal.composes_consistent { m.startOperation with }).walks.getParameters
      offset params { world with reader := { source } } NodeTable.consistent_empty
    rw [hrun] at hkeep
    exact hkeep.1
  have hindex := Unmarshal.index_lt_of_getParameters hlist hrun
  have hsize : (m.unmarshal world offset params source).surroundings.heap.allocations
      = s.heap.cells.size := by
    rw [hworld]
    exact Heap.size_release_all _ _
  refine ⟨s.sightings, s.deleted, ?_⟩
  constructor
  · exact ⟨list, _, hlist, hresult, length_replace _ _, replaced_of_read hvalues hindex⟩
  · intro h
    have hends := (Unmarshal.getParameters_after { m.startOperation with } h params {}
      (show ({ world with reader := { source } } : Unmarshal.State).deferred = [] from rfl) rfl).2
    rw [hrun] at hends
    exact hends.1
  · intro c hc hnamed
    rw [hworld, load?_commit_of_unnamed hnamed]
    exact congrArg Option.join (hundo.old c hc)
  · intro id hid c hc
    rw [hworld]
    exact Heap.load?_release_all
      (List.mem_filterMap.2 ⟨id, List.mem_reverse.2 hid, hc⟩) s.heap
  · intro c h1 h2 hnamed
    rw [hworld]
    exact (hstep.filled_fresh hs.rest h1 (hsize ▸ h2)).of_load (load?_commit_of_unnamed hnamed)
  · exact fun p hp => hsize ▸ hs.range p hp
  · exact fun c h1 h2 => hs.seen c h1 (hsize ▸ h2)
  · exact fun p hp hid q hq hc => hs.alone hp hid hq hc
  · intro id c
    rw [hnodes]
    refine ⟨hs.node id c, ?_⟩
    rintro ⟨p, hp, hid, rfl⟩
    exact hs.known p hp id hid
  · exact hnodes ▸ hconsistent

/-- **No new cell is lost** where the ids of the operation before stand for cells that were given
out. -/
theorem Effect.filled {m : Machine} {world : Surroundings} {offset : Nat} {params : List Value}
    {ps : List Unmarshal.Sighting} {deleted : List Nat} {o : Outcome Source (List Value)}
    (h : m.Effect world offset params ps deleted o) (hm : m.nodes.Within world.heap) {c : CellId}
    (h1 : world.heap.allocations ≤ c) (h2 : c < o.surroundings.heap.allocations) :
    Filled (Fits { m.startOperation with } ps) o.surroundings.heap c :=
  h.new c h1 h2 fun _ _ hc => Nat.not_le.2 (hm _ c hc) h1

/-! ### The operation before -/

/-- Behind a message that was read, or that could not be, ids stand for cells that were given
out. -/
theorem within_unmarshal (m : Machine) (world : Surroundings) (offset : Nat) (params : List Value)
    (source : Source) : (m.unmarshal world offset params source).machine.nodes.Within
      (m.unmarshal world offset params source).surroundings.heap := by
  cases he : (m.unmarshal world offset params source).result with
  | ok results =>
    obtain ⟨ps, deleted, h⟩ := unmarshal_effect m world offset params source he
    intro id c hc
    obtain ⟨p, hp, -, rfl⟩ := (h.table id c).1 hc
    exact (h.made p hp).2
  | error e =>
    obtain ⟨s, -, -, hm⟩ := unmarshal_eq_error he
    rw [hm]
    exact fun id c hc => absurd hc (by simp [latch, startOperation, NodeTable.cellOf?])

/-- Behind a message that was written, ids stand for cells that were given out. -/
theorem within_marshal (m : Machine) (world : Surroundings) (offset : Nat) (params : List Value)
    (sink : Sink) {n : Nat} (h : (m.marshal world offset params sink).result = .ok n) :
    (m.marshal world offset params sink).machine.nodes.Within world.heap := fun id c hc => by
  obtain ⟨v, hv⟩ := Heap.isLive_iff.1 (m.nodes_live world offset params sink h id c hc)
  exact Heap.lt_of_load? hv

/-- Behind a fault in writing an id may stand for a cell that was not given out yet. -/
example : (Machine.marshal { interface := { vector := longPointerVector } } {} 16
    [.pointer (some 0)] .reliable).machine.nodes.cellOf? 1 = some 0 := by decide +kernel

end Machine

end Ndr
