/-!
An action on a part of a state, as one on the whole.
-/

namespace Ndr

variable {ε σ τ α β : Type}

/-- Act on the part of a state that `get` finds and `set` replaces. -/
@[inline] def onPart (get : σ → τ) (set : σ → τ → σ) (x : EStateM ε τ α) : EStateM ε σ α := fun s =>
  match x (get s) with
  | .ok a t => .ok a (set s t)
  | .error e t => .error e (set s t)

theorem onPart_pure {get : σ → τ} {set : σ → τ → σ} (h : ∀ s, set s (get s) = s) (a : α) :
    onPart get set (pure a : EStateM ε τ α) = pure a := by
  funext s
  show EStateM.Result.ok a (set s (get s)) = EStateM.Result.ok a s
  rw [h]

/-- Acting in turn on a part is acting in turn on the whole. -/
theorem onPart_bind {get : σ → τ} {set : σ → τ → σ} (hg : ∀ s t, get (set s t) = t)
    (hs : ∀ s t u, set (set s t) u = set s u) (x : EStateM ε τ α) (f : α → EStateM ε τ β) :
    onPart get set (x >>= f) = onPart get set x >>= fun a => onPart get set (f a) := by
  funext s
  simp only [onPart, bind, EStateM.bind]
  cases x (get s) with
  | error e t => rfl
  | ok a t =>
    simp only [hg]
    cases f a t <;> simp [hs]

end Ndr
