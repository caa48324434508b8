import Ndr.Proofs.Likeness
import Ndr.Proofs.Rollback

/-!
An operation does not depend on what its machine did before, unless it is about deleted nodes. Of
all that a machine keeps, the ids of deleted nodes alone are looked at: those to report in writing,
and in reading the node table of the operation before. Ids start anew with every operation, and the
range of a scalar, the conversions that are open and the depth of a walk are given to the walk.
-/

namespace Ndr

/-- No type that the parameters of the list at `offset` lead to is that of deleted nodes. -/
def TypeVector.WithoutDeletions (tv : TypeVector) (offset : Nat) : Prop :=
  ∀ list d, tv.parameters offset = .ok list → tv.Reached list d → d.form ≠ .deletedNodes

/-! ### Operations -/

/-- What is written under types that are not those of deleted nodes is the same with any nodes to
report. -/
theorem Marshal.putParameters_reporting {offset : Nat} (env : Env)
    (h : env.vector.WithoutDeletions offset) (params : List Value) (l : List Nat) {s : State}
    (hs : s.deferred = []) :
    putParameters env offset params s = putParameters { env with deleted := l } offset params s := by
  have hE : ∀ N, env.Alike { env with deleted := l } N := fun _ =>
    ⟨⟨env.vector, env.order, l, rfl⟩, rfl, fun _ => .refl _ _⟩
  exact putParameters_alike env { env with deleted := l } rfl rfl (fun _ _ => hE _)
    (fun list d hlist hd hform => absurd hform (h list d hlist hd)) params hs

/-- What is read under types that are not those of deleted nodes is the same after any operation,
and deletes none of its nodes. -/
theorem Unmarshal.getParameters_after {offset : Nat} (env : Env)
    (h : env.vector.WithoutDeletions offset) (params : List Value) (previous : NodeTable) {s : State}
    (hd : s.deferred = []) (hn : s.deleted = []) :
    getParameters env offset params s = getParameters { env with previous } offset params s ∧
      Ends (fun t => t.deleted = []) (fun _ => True) (getParameters env offset params s) := by
  have hE : ∀ N, env.Alike { env with previous } N := fun _ =>
    ⟨⟨env.vector, previous, rfl⟩, rfl, fun _ => .refl _ _⟩
  exact getParameters_alike env { env with previous } (D := (· = [])) rfl (fun _ _ => hE _)
    (fun list d hlist hd hform => absurd hform (h list d hlist hd)) params hd hn

/-! ### Machines -/

/-- Two operations that nobody can tell apart: they give and leave behind the same. -/
structure Outcome.Alike {τ α : Type} (o o' : Outcome τ α) : Prop where
  result : o.result = o'.result
  transport : o.transport = o'.transport
  surroundings : o.surroundings = o'.surroundings
  nodes : o.machine.nodes = o'.machine.nodes

namespace Machine

theorem create_eq_ok {i : Interface} {r : Representation} {side : Side} {config : Config}
    {m : Machine} (h : create i r side config = .ok m) :
    m = { interface := i, representation := r, side, config } := by
  obtain ⟨_, -, h⟩ := Except.bind_eq_ok.1 h
  exact (Except.pure_eq_ok.1 h).symm

theorem withoutDeletions_longPointer : longPointerVector.WithoutDeletions 16 := by
  have hlist : longPointerVector.parameters 16 = .ok [⟨0, 24, {}, .pointer .unique 10 12⟩] := rfl
  have hlong : longPointerVector.stream 12 = .ok ⟨12, {}, .scalar .long⟩ := rfl
  intro list d h hd
  obtain rfl := Except.ok.inj (hlist.symm.trans h)
  have hforms : d.form = .pointer .unique 10 12 ∨ d.form = .scalar .long := by
    induction hd with
    | parameter hp =>
      obtain rfl := List.mem_singleton.1 hp
      exact .inl rfl
    | step _ hleads ih =>
      rcases ih with hp | hs
      · exact .inr (by rw [← Except.ok.inj (hlong.symm.trans (hleads.stream_of_pointer hp))])
      · exact absurd hleads (TypeVector.not_leads_of_scalar hs)
  rcases hforms with h | h <;> rw [h] <;> simp

/-- A machine that has read a pointer and noted its node as deleted. -/
def deleter : Machine :=
  ((Machine.unmarshal { interface := { vector := longPointerVector } } {} 16 [.void]
    (.ofBytes [1, 0, 0, 0, 5, 0, 0, 0])).machine.noteDeleted 0).2

end Machine

end Ndr
