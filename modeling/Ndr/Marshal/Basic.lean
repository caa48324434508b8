import Ndr.Config
import Ndr.Correlation
import Ndr.Heap.Basic
import Ndr.Interface
import Ndr.NodeTable
import Ndr.Part
import Ndr.Pipe.Basic
import Ndr.Registry
import Ndr.Site
import Ndr.Wire.Word

/-!
Marshalling: what a walk over values knows, what it changes, and the steps it is made of.
-/

namespace Ndr

namespace Marshal

/-- What does not change while a message is written. -/
structure Env where
  interface : Interface
  representation : Representation
  config : Config
  heap : Heap
  contexts : Option Registry
  /-- The ids of the nodes that the application reports as deleted. -/
  deleted : List Nat

structure State where
  writer : Writer
  nodes : NodeTable := {}
  /-- The pointees put off, newest first. -/
  deferred : List (Deferred Scope) := []
  pipes : Array Pipe
  /-- The calls of routines, newest first. -/
  calls : List Routine.Call

end Marshal

/-- An action on a message being written and on all that its writing changes. -/
abbrev Marshalling := EStateM Fault Marshal.State

namespace Marshal

/-- A walk over a value under a descriptor. -/
abbrev Walk := Descriptor → Value → Site Scope → Marshalling Unit

/-! ### Steps -/

/-- A step of the writer. -/
def put {α : Type} (x : Put α) : Marshalling α :=
  onPart State.writer (fun s writer => { s with writer }) x

/-- A step of a pipe. -/
def onPipe {α : Type} (h : PipeHandle) (x : EStateM Fault Pipe α) : Marshalling α :=
  onPart State.pipes (fun s pipes => { s with pipes }) (Pipe.under h x)

def recordCall (c : Routine.Call) : Marshalling Unit :=
  modify fun s => { s with calls := c :: s.calls }

/-- Put a pointee off. -/
def defer (d : Deferred Scope) : Marshalling Unit :=
  modify fun s => { s with deferred := d :: s.deferred }

/-- The pointees put off, in order; none is left. -/
def takeDeferred : Marshalling (List (Deferred Scope)) :=
  modifyGet fun s => (s.deferred.reverse, { s with deferred := [] })

/-- The id of a cell. -/
def sight (c : CellId) : Marshalling Sighting := do
  let (sighting, nodes) ← (← get).nodes.sight c
  modify fun s => { s with nodes }
  return sighting

variable (env : Env)

def Env.vector : TypeVector := env.interface.vector

def Env.order : ByteOrder := env.representation.integers

/-- An aligned count or node id. -/
def putCount (v : Nat) : Marshalling Unit := put (Writer.putCount env.order v)

/-- Release a host's value after it was written. -/
def freeInstance (index : Nat) (v : Value) : Marshalling Unit := do
  let _ ← env.interface.routine index
  recordCall (.freeInstance index v)

end Marshal

end Ndr
