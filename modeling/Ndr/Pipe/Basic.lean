import Ndr.Fault
import Ndr.Part

/-!
Pipes: streams of elements that an application supplies or takes piece by piece. A pipe goes in
one direction, and is over after its first empty piece.
-/

namespace Ndr

inductive Pipe.Direction where
  | send
  | receive
  deriving DecidableEq

/-- What the application of a pipe was asked for. -/
inductive Pipe.Event where
  /-- Room for a piece. -/
  | asked (requested granted : Nat)
  /-- A piece of at most `max` elements to send. -/
  | pulled (max : Nat) (piece : List Value)
  | pullFailed (max : Nat)
  /-- A received piece to take. -/
  | pushed (piece : List Value)
  | pushFailed (piece : List Value)

namespace Pipe.Event

def isPull : Event → Bool
  | pulled .. => true
  | _ => false

def isPush : Event → Bool
  | pushed _ => true
  | _ => false

end Pipe.Event

theorem Pipe.no_events (p : Pipe.Event → Bool) : 0 = [].countP p := rfl

/-- What the application of a pipe was asked for, newest first, and how many pieces it handed
over and took. -/
structure Pipe.History where
  events : List Pipe.Event := []
  pulls : Nat := 0
  pushes : Nat := 0
  pulls_eq : pulls = events.countP Pipe.Event.isPull := by exact Pipe.no_events _
  pushes_eq : pushes = events.countP Pipe.Event.isPush := by exact Pipe.no_events _

/-- The history after one more event. -/
def Pipe.History.record (h : Pipe.History) (e : Pipe.Event) : Pipe.History where
  events := e :: h.events
  pulls := h.pulls + if e.isPull then 1 else 0
  pushes := h.pushes + if e.isPush then 1 else 0
  pulls_eq := by rw [List.countP_cons, h.pulls_eq]
  pushes_eq := by rw [List.countP_cons, h.pushes_eq]

/-- The application of a pipe. What it does may depend on all it was asked for. -/
structure Pipe.Application where
  /-- The room for the next piece, in elements, where some was requested. -/
  grant : Pipe.History → Nat → Nat
  /-- How many of the elements to send make up the next piece, at most as many as requested. -/
  cut : Pipe.History → Nat → Except Fault Nat
  /-- Take a piece. -/
  accept : Pipe.History → List Value → Except Fault Unit

structure Pipe where
  application : Pipe.Application
  /-- The elements still to send. -/
  pending : List Value := []
  direction : Option Pipe.Direction := none
  /-- Whether the empty piece at the end has gone through. -/
  finished : Bool := false
  /-- The elements that went through. -/
  transferred : Nat := 0
  history : Pipe.History := {}

/-- The pipe that a value names. -/
def Value.pipe? (v : Value) : Except Fault PipeHandle :=
  match v with
  | .pipe h => .ok h
  | v => .error (.typeMismatch .pipe v.kind)

namespace Pipe

/-- Act on the pipe under a handle. -/
def under {α : Type} (h : PipeHandle) (x : EStateM Fault Pipe α) : EStateM Fault (Array Pipe) α :=
  fun pipes =>
    match pipes[h]? with
    | none => .error (.pipeMisuse .unknownHandle) pipes
    | some p => onPart (fun _ => p) (fun pipes p => pipes.setIfInBounds h p) x pipes

/-- Use a pipe in a direction, which it keeps. -/
def enter (direction : Direction) : EStateM Fault Pipe Unit := fun p =>
  if p.finished then .error (.pipeMisuse .completed) p
  else if p.direction = none ∨ p.direction = some direction then
    .ok () { p with direction := some direction }
  else .error (.pipeMisuse .bothDirections) p

def record (p : Pipe) (e : Event) : Pipe := { p with history := p.history.record e }

/-- What the application was asked for, newest first. -/
def events (p : Pipe) : List Event := p.history.events

/-- Ask for room for a piece. -/
def ask (requested : Nat) : EStateM Fault Pipe Nat := fun p =>
  let granted := p.application.grant p.history requested
  .ok granted (p.record (.asked requested granted))

/-- Ask for a piece of at most `max` elements to send. -/
def pull (max : Nat) : EStateM Fault Pipe (List Value) := fun p =>
  match p.application.cut p.history max with
  | .error e => .error e (p.record (.pullFailed max))
  | .ok n =>
    let piece := p.pending.take n
    let p := { p.record (.pulled max piece) with pending := p.pending.drop n }
    if max < piece.length then .error (.pipeMisuse .tooManyElements) p else .ok piece p

/-- Hand over a received piece. -/
def push (piece : List Value) : EStateM Fault Pipe Unit := fun p =>
  match p.application.accept p.history piece with
  | .error e => .error e (p.record (.pushFailed piece))
  | .ok () => .ok () (p.record (.pushed piece))

/-- Count elements that went through. -/
def advance (p : Pipe) (n : Nat) : Pipe := { p with transferred := p.transferred + n }

def finish (p : Pipe) : Pipe := { p with finished := true }

/-- The state of a pipe in words. -/
def describe (p : Pipe) : String :=
  let direction := match p.direction with
    | none => "None"
    | some .send => "Some(Send)"
    | some .receive => "Some(Receive)"
  let finished := if p.finished then "true" else "false"
  "PipeHandle \x7b direction: " ++ direction ++ ", finished: " ++ finished ++ ", transferred: "
    ++ toString p.transferred ++ " \x7d"

end Pipe

end Ndr
