import Ndr.Marshal.Walk
import Ndr.Unmarshal.Walk

/-!
Machines: what carries out the operations of one side of a call. A machine keeps the node tables
of its last two operations, the deleted nodes to report, and the class of its first fault.
-/

namespace Ndr

structure Machine where
  interface : Interface
  representation : Representation := {}
  side : Side := .client
  config : Config := {}
  /-- The node table of the last operation. -/
  nodes : NodeTable := {}
  /-- The node table of the operation before. -/
  previous : NodeTable := {}
  /-- The ids of the nodes to report as deleted, in order. -/
  deleted : List Nat := []
  /-- The class of the first fault. -/
  status : Option FaultClass := none

/-- What an application shares with its machines. -/
structure Surroundings where
  heap : Heap := {}
  contexts : Option Registry := none
  pipes : Array Pipe := #[]
  /-- The calls of routines, newest first. -/
  calls : List Routine.Call := []

/-- What an operation gives and leaves behind. -/
structure Outcome (τ α : Type) where
  result : Except Fault α
  machine : Machine
  surroundings : Surroundings
  transport : τ

namespace Machine

/-- A machine whose limits were accepted. -/
def create (interface : Interface) (representation : Representation) (side : Side)
    (config : Config) : Except Fault Machine := do
  config.check
  return { interface, representation, side, config }

/-! ### Operations -/

/-- The machine at the start of an operation. -/
def startOperation (m : Machine) : Machine := { m with nodes := {}, previous := m.nodes }

/-- The machine after a fault. -/
def latch (m : Machine) (e : Fault) : Machine :=
  { m with status := m.status.or (some e.faultClass) }

/-- Report the node of a cell as deleted in the next list of deleted nodes; false for a cell
without a node. -/
def noteDeleted (m : Machine) (c : CellId) : Bool × Machine :=
  match m.nodes.idOf? c with
  | some id => (true, { m with deleted := m.deleted ++ [id] })
  | none => (false, m)

/-! ### Marshalling -/

/-- Write parameters along the list at `offset`, and count the bytes. -/
def marshal (m : Machine) (world : Surroundings) (offset : Nat) (params : List Value)
    (sink : Sink) : Outcome Sink Nat :=
  let m := m.startOperation
  let env : Marshal.Env := { m, world with }
  let start : Marshal.State := { world with writer := .new sink m.config }
  match Marshal.putParameters env offset params start with
  | .error e s =>
    { result := .error e
      machine := { m with nodes := s.nodes }.latch e
      surroundings := { world with pipes := s.pipes, calls := s.calls }
      transport := s.writer.abandon.sink }
  | .ok () s =>
    let surroundings := { world with pipes := s.pipes, calls := s.calls }
    let m := { m with nodes := s.nodes }
    match Writer.finish s.writer with
    | .ok n w =>
      { result := .ok n, machine := { m with deleted := [] }, surroundings, transport := w.sink }
    | .error e w => { result := .error e, machine := m.latch e, surroundings, transport := w.sink }

/-! ### Unmarshalling -/

/-- Make the changes that a message asks for: free the cells of its deleted nodes, and forget the
contexts that it closed. -/
def commit (previous : NodeTable) (s : Unmarshal.State) : Surroundings where
  heap := (s.deleted.reverse.filterMap previous.cellOf?).foldl Heap.release s.heap
  contexts := s.contexts.map fun r => s.closed.reverse.foldl Registry.destroy r
  pipes := s.pipes
  calls := s.calls

/-- Take back the cells and the contexts that a message made. -/
def rollback (s : Unmarshal.State) : Surroundings where
  heap := s.allocated.foldl Heap.release s.heap
  contexts := s.contexts.map fun r => s.adopted.reverse.foldl Registry.destroy r
  pipes := s.pipes
  calls := s.calls

/-- Parameters with the values that were read. -/
def replace (params : List Value) (values : List (Nat × Value)) : List Value :=
  values.foldl (fun params (index, v) => params.set index v) params

theorem length_replace (params : List Value) (values : List (Nat × Value)) :
    (replace params values).length = params.length := by
  induction values generalizing params with
  | nil => rfl
  | cons v values ih => exact (ih _).trans List.length_set

theorem getElem?_replace_of_notMem {params : List Value} {values : List (Nat × Value)}
    {i : Nat} (h : i ∉ values.map Prod.fst) : (replace params values)[i]? = params[i]? := by
  induction values generalizing params with
  | nil => rfl
  | cons v values ih =>
    rw [List.map_cons, List.mem_cons, not_or] at h
    exact (ih h.2).trans (List.getElem?_set_ne (Ne.symm h.1))

/-- An index with values has one of them. -/
theorem exists_getElem?_replace {params : List Value} {values : List (Nat × Value)} {i : Nat}
    (h : i ∈ values.map Prod.fst) (hi : i < params.length) :
    ∃ v, (i, v) ∈ values ∧ (replace params values)[i]? = some v := by
  induction values generalizing params with
  | nil => exact absurd h List.not_mem_nil
  | cons w values ih =>
    by_cases hrest : i ∈ values.map Prod.fst
    · have hset : i < (params.set w.1 w.2).length := by rwa [List.length_set]
      obtain ⟨v, hv, he⟩ := ih hrest hset
      exact ⟨v, List.mem_cons_of_mem _ hv, he⟩
    · obtain rfl := (List.mem_cons.1 h).resolve_right hrest
      exact ⟨w.2, List.mem_cons_self, (getElem?_replace_of_notMem hrest).trans (by simp [hi])⟩

/-- Values of distinct indices are all put in place. -/
theorem getElem?_replace_of_mem {params : List Value} {values : List (Nat × Value)}
    (hn : (values.map Prod.fst).Nodup) {i : Nat} {v : Value} (h : (i, v) ∈ values)
    (hi : i < params.length) : (replace params values)[i]? = some v := by
  induction values generalizing params with
  | nil => exact absurd h List.not_mem_nil
  | cons w values ih =>
    rw [List.map_cons, List.nodup_cons] at hn
    rcases List.mem_cons.1 h with rfl | h
    · exact (getElem?_replace_of_notMem hn.1).trans (by simp [hi])
    · exact ih hn.2 h (by rwa [List.length_set])

/-- Read parameters along the list at `offset`. The others keep their values. -/
def unmarshal (m : Machine) (world : Surroundings) (offset : Nat) (params : List Value)
    (source : Source) : Outcome Source (List Value) :=
  let m := m.startOperation
  let env : Unmarshal.Env := { m with }
  let start : Unmarshal.State := { world with reader := { source } }
  match Unmarshal.getParameters env offset params start with
  | .ok values s =>
    { result := .ok (replace params values)
      machine := { m with nodes := s.nodes }
      surroundings := commit m.previous s
      transport := s.reader.finish }
  | .error e s =>
    { result := .error e
      machine := m.latch e
      surroundings := rollback s
      transport := s.reader.finish }

end Machine

end Ndr
