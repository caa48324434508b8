import Ndr.Fault

/-!
The registry of contexts: which token each handle of an application stands for. A handle is
never used again.
-/

namespace Ndr

theorem Registry.no_entries : ∀ e ∈ ([] : List (ContextHandle × Uuid)), e.1 ≤ 0 := by simp

structure Registry where
  /-- Handles and tokens, newest first. -/
  entries : List (ContextHandle × Uuid) := []
  /-- The last handle given out. -/
  last : Nat := 0
  le_last : ∀ e ∈ entries, e.1 ≤ last := by exact Registry.no_entries
  deriving DecidableEq

instance : Inhabited Registry := ⟨{}⟩

/-- The context that a value names. -/
def Value.context? (v : Value) : Except Fault (Option ContextHandle) :=
  match v with
  | .context h => .ok h
  | v => .error (.typeMismatch .context v.kind)

namespace Registry

def token? (r : Registry) (h : ContextHandle) : Option Uuid :=
  (r.entries.find? (·.1 == h)).map (·.2)

def resolve? (r : Registry) (u : Uuid) : Option ContextHandle :=
  (r.entries.find? (·.2 == u)).map (·.1)

/-- A new handle for a token. -/
def insert (r : Registry) (u : Uuid) : ContextHandle × Registry :=
  (r.last + 1,
    { entries := (r.last + 1, u) :: r.entries
      last := r.last + 1
      le_last := by
        intro e he
        rcases List.mem_cons.1 he with rfl | he
        · exact Nat.le_refl _
        · exact Nat.le_succ_of_le (r.le_last e he) })

/-- A context under a token that was never used. -/
def create (r : Registry) (fresh : Uuid) : ContextHandle × Registry := r.insert fresh

/-- The handle of a token, a new one for a token that has none. -/
def adopt (r : Registry) (u : Uuid) : ContextHandle × Registry :=
  match r.resolve? u with
  | some h => (h, r)
  | none => r.insert u

def isLive (r : Registry) (h : ContextHandle) : Bool := (r.token? h).isSome

/-- The registry without a context. -/
def destroy (r : Registry) (h : ContextHandle) : Registry :=
  { r with
    entries := r.entries.filter (·.1 != h)
    le_last := fun e he => r.le_last e (List.mem_filter.1 he).1 }

def size (r : Registry) : Nat := r.entries.length

theorem token?_insert (r : Registry) (u : Uuid) (h : ContextHandle) :
    (r.insert u).2.token? h = if h = r.last + 1 then some u else r.token? h := by
  simp only [token?, insert, List.find?_cons]
  by_cases e : h = r.last + 1
  · simp [e]
  · have : (r.last + 1 == h) = false := by simpa using Ne.symm e
    simp [this, e]

theorem token?_destroy (r : Registry) (g h : ContextHandle) :
    (r.destroy g).token? h = if h = g then none else r.token? h := by
  simp only [token?, destroy, List.find?_filter]
  by_cases e : h = g
  · subst e
    simp only [ite_true, Option.map_eq_none_iff, List.find?_eq_none]
    intro p _
    by_cases hp : p.1 = h <;> simp [hp]
  · rw [if_neg e]
    congr 2
    funext p
    by_cases hp : p.1 = h
    · simp [hp, e]
    · simp [hp]

end Registry

end Ndr
