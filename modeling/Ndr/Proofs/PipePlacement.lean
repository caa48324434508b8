import Ndr.Machine
import Ndr.Pipe.Script
import Ndr.Proofs.Lockstep.Steps
import Ndr.Value.Equality

/-!
Where pipes may stand. Both sides refuse a pipe that is embedded in a struct, an array or a union.
Writing goes by the site alone, and a pointee has the site of a parameter: a pipe behind a pointer is
written. Reading takes pipes as parameters only, and refuses it.
-/

namespace Ndr

variable {env : Marshal.Env} {side : Side} {previous : NodeTable} {d : Descriptor} {props : UInt8}
  {element : Nat}

/-! ### Embedded pipes -/

/-- A walk over a message never takes a pipe. -/
theorem Unmarshal.walk_pipe {env : Unmarshal.Env} (hd : d.form = .pipe props element) (room : Nat)
    (site : Site ScopeId) (u : Unmarshal.State) :
    Unmarshal.walk env (room + 1) d site u = .error (.pipeMisuse .outsideParameters) u := by
  unfold Unmarshal.walk Unmarshal.getForm
  rw [hd]
  rfl

/-- An embedded pipe is not written either. -/
theorem Marshal.walk_pipe (hd : d.form = .pipe props element) {site : Site Scope}
    (he : site.embedded = true) (room : Nat) (v : Value) (s : Marshal.State) :
    Marshal.walk env (room + 1) d v site s = .error (.pipeMisuse .outsideParameters) s := by
  have hform : Marshal.putForm env (Marshal.walk env room) d v site s
      = .error (.pipeMisuse .outsideParameters) s := by
    unfold Marshal.putForm Marshal.putPipe
    rw [hd]
    simp only [he, if_true]
    rfl
  exact bind_of_error hform _

/-! ### Pipes behind pointers -/

/-- **A pipe behind a pointer is written and not read.** Its cell is written as a parameter of its
own is, also where the pointee was put off; reading refuses it wherever it stands. -/
theorem pipe_pointee {p : Nat} (hstream : env.vector.stream p = .ok d)
    (hd : d.form = .pipe props element) (room : Nat) (c : CellId) :
    (∀ site s, Marshal.putPointee env (Marshal.walk env room) c p site s = (do
      let v ← env.heap.load c
      Marshal.walk env room d v { site with embedded := false } : Marshalling Unit) s) ∧
    ∀ site u, Unmarshal.getPointee (env.receiver side previous)
        (Unmarshal.walk (env.receiver side previous) (room + 1)) c p site u
      = .error (.pipeMisuse .outsideParameters) u := by
  refine ⟨fun site s => bind_of_ok (lift_eq_ok.2 ⟨hstream, rfl⟩) _, fun site u => ?_⟩
  exact (bind_of_ok (lift_eq_ok.2 ⟨hstream, rfl⟩) _).trans
    (bind_of_error (Unmarshal.walk_pipe hd room _ u) _)

/-- A vector whose only parameter list, at 28, has a unique pointer to a pipe of longs. -/
def pipePointerVector : TypeVector where
  bytes := #[8, 0, 10, 0, 1, 255, 255, 255, 0, 0, 0, 0, 9, 254, 255, 255, 41, 2, 255, 255,
    12, 0, 0, 0, 254, 255, 255, 255, 1, 0, 0, 0, 0, 0, 0, 0, 29, 2, 255, 255, 16, 0, 0, 0, 254]
  order := .little
  minor := 10

/-- A pipe of one long. -/
def longSender : Pipe where
  application := ({} : Pipe.Script).application
  pending := [.long 7]

/-- A list that is written without a fault, and that its reader refuses. -/
theorem pipe_pointee_refused :
    let m : Machine := { interface := { vector := pipePointerVector } }
    let world : Surroundings :=
      { heap := ({} : Heap).append (.pipe 0), pipes := #[longSender] }
    let o := m.marshal world 28 [.pointer (some 0)] .reliable
    o.result = .ok 16 ∧
      o.transport.message = [1, 0, 0, 0, 1, 0, 0, 0, 7, 0, 0, 0, 0, 0, 0, 0] ∧
      (m.unmarshal {} 28 [.void] (.ofBytes o.transport.message)).result
        = .error (.pipeMisuse .outsideParameters) := by
  have hr : (Machine.marshal { interface := { vector := pipePointerVector } }
      { heap := ({} : Heap).append (.pipe 0), pipes := #[longSender] } 28
      [.pointer (some 0)] .reliable).result = .ok 16 := by decide +kernel
  have hm : (Machine.marshal { interface := { vector := pipePointerVector } }
      { heap := ({} : Heap).append (.pipe 0), pipes := #[longSender] } 28
      [.pointer (some 0)] .reliable).transport.message
        = [1, 0, 0, 0, 1, 0, 0, 0, 7, 0, 0, 0, 0, 0, 0, 0] := by decide +kernel
  have hu : (Machine.unmarshal { interface := { vector := pipePointerVector } } {} 28 [.void]
      (.ofBytes [1, 0, 0, 0, 1, 0, 0, 0, 7, 0, 0, 0, 0, 0, 0, 0])).result
        = .error (.pipeMisuse .outsideParameters) := by decide +kernel
  exact ⟨hr, hm, hm ▸ hu⟩

end Ndr
