import Ndr.Config
import Ndr.Interface
import Ndr.NodeTable
import Ndr.Pipe.Basic
import Ndr.Registry
import Ndr.Site
import Ndr.Wire.Word
import Std.Data.TreeMap.Lemmas

/-!
Unmarshalling: what a walk over a message knows, what it changes, and the steps it is made of.
Whatever it changes can be taken back: cells and contexts that it makes are listed, and those
that it is told to delete are only listed.
-/

namespace Ndr

/-- The side of a call that a machine is on. -/
inductive Side where
  | client
  | server
  deriving DecidableEq, Inhabited

namespace Unmarshal

/-- What does not change while a message is read. -/
structure Env where
  interface : Interface
  representation : Representation
  config : Config
  side : Side
  /-- The node table of the operation before, which deleted nodes refer to. -/
  previous : NodeTable

/-- A pointer that was read and is not null. -/
structure Sighting where
  /-- The id it carried, none for a reference. -/
  id : Option Nat
  /-- The stream of its pointee. -/
  pointee : Nat
  cell : CellId
  deriving DecidableEq

structure State where
  reader : Reader
  heap : Heap
  contexts : Option Registry
  nodes : NodeTable := {}
  scopes : Array Scope := #[]
  /-- The pointees put off, newest first. -/
  deferred : List (Deferred ScopeId) := []
  /-- The bounds that were read ahead of their fields, by scope, newest first. -/
  late : Std.TreeMap ScopeId (List LateCheck) := ∅
  /-- The cells that were made, newest first. -/
  allocated : List CellId := []
  /-- The pointers that were read, newest first. -/
  sightings : List Sighting := []
  /-- The ids of the nodes that the peer reports as deleted, newest first. -/
  deleted : List Nat := []
  /-- The contexts that the peer closed, newest first. -/
  closed : List ContextHandle := []
  /-- The contexts that were made for new tokens, newest first. -/
  adopted : List ContextHandle := []
  pipes : Array Pipe
  /-- The calls of routines, newest first. -/
  calls : List Routine.Call

end Unmarshal

/-- An action on a message being read and on all that its reading changes. -/
abbrev Unmarshalling := EStateM Fault Unmarshal.State

namespace Unmarshal

/-- A walk over a message under a descriptor. -/
abbrev Walk := Descriptor → Site ScopeId → Unmarshalling Value

/-! ### Steps -/

/-- A step of the reader. -/
def fetch {α : Type} (x : Fetch α) : Unmarshalling α :=
  onPart State.reader (fun s reader => { s with reader }) x

/-- A step of a pipe. -/
def onPipe {α : Type} (h : PipeHandle) (x : EStateM Fault Pipe α) : Unmarshalling α :=
  onPart State.pipes (fun s pipes => { s with pipes }) (Pipe.under h x)

def recordCall (c : Routine.Call) : Unmarshalling Unit :=
  modify fun s => { s with calls := c :: s.calls }

/-- Put a pointee off. -/
def defer (d : Deferred ScopeId) : Unmarshalling Unit :=
  modify fun s => { s with deferred := d :: s.deferred }

/-- The pointees put off, in order; none is left. -/
def takeDeferred : Unmarshalling (List (Deferred ScopeId)) :=
  modifyGet fun s => (s.deferred.reverse, { s with deferred := [] })

/-- A new cell, not filled yet. -/
def allocate : Unmarshalling CellId := do
  (← get).heap.checkRoom
  let c := (← get).heap.allocations
  modify fun s => { s with heap := s.heap.append .void, allocated := c :: s.allocated }
  return c

/-- Fill a cell. -/
def store (c : CellId) (v : Value) : Unmarshalling Unit := do
  if (← get).heap.isLive c then modify fun s => { s with heap := s.heap.put c v }
  else throw (.invalidCell c)

/-- Enter a cell under the id that was read for it. -/
def register (id : Nat) (c : CellId) : Unmarshalling Unit := do
  let nodes ← (← get).nodes.register id c
  modify fun s => { s with nodes }

/-- Keep a pointer that was read. -/
def sight (p : Sighting) : Unmarshalling Unit :=
  modify fun s => { s with sightings := p :: s.sightings }

/-! ### Scopes -/

/-- The bounds that wait for a scope to be complete, newest first. -/
def State.due (s : State) (scope : ScopeId) : List LateCheck := s.late.getD scope []

/-- A new scope. -/
def openScope (scope : Scope) : Unmarshalling ScopeId :=
  modifyGet fun s => (s.scopes.size, { s with scopes := s.scopes.push scope })

def scopeOf (id : ScopeId) : Unmarshalling Scope := return (← get).scopes[id]?.getD #[]

/-- Enter the value of a field into its scope, where it is an integer. -/
def setField (id : ScopeId) (field : Nat) (v : Option Int) : Unmarshalling Unit :=
  match v with
  | none => return
  | some v => modify fun s => { s with scopes := s.scopes.modify id (·.insert field v) }

/-- Compare a bound that was read with its field, or keep it until its scope is complete. -/
def checkBound (b : Bound) (wire : Int) (scope : ScopeId) : Unmarshalling Unit := do
  if b.isChecked then
    match ← b.resolve (← scopeOf scope) with
    | .value v => if v ≠ wire then throw (.correlationMismatch v wire)
    | .late => modify fun s => { s with late := s.late.insert scope (⟨b, wire⟩ :: s.due scope) }
    | .fromString | .unknown => return

/-- Compare the bounds that were kept for a scope. -/
def verifyLate (scope : ScopeId) : Unmarshalling Unit := do
  let due := (← get).due scope
  modify fun s => { s with late := s.late.erase scope }
  let fields ← scopeOf scope
  due.reverse.forM fun c => c.verify fields

variable (env : Env)

def Env.vector : TypeVector := env.interface.vector

def Env.order : ByteOrder := env.representation.integers

/-- An aligned count or node id. -/
def getCount : Unmarshalling Nat := fetch (Reader.getCount env.order)

/-- A number of elements that a message announces. -/
def checkCount (n : Nat) : Except Fault Unit :=
  if n ≤ env.config.maxElements then .ok () else .error (.tooManyElements n env.config.maxElements)

end Unmarshal

end Ndr
