/-!
An action run a number of times.
-/

namespace Ndr

universe u v

variable {m : Type u → Type v} [Monad m] {α : Type u}

/-- The results of `n` runs of an action, behind the reversed results of earlier ones. -/
@[specialize] def repeatFrom (x : m α) : Nat → List α → m (List α)
  | 0, before => pure before.reverse
  | n + 1, before => do
    let a ← x
    repeatFrom x n (a :: before)

/-- The results of `n` runs of an action, in order. -/
@[inline] def repeatM (n : Nat) (x : m α) : m (List α) := repeatFrom x n []

@[simp] theorem repeatM_zero (x : m α) : repeatM 0 x = pure [] := rfl

theorem repeatFrom_eq [LawfulMonad m] (x : m α) (n : Nat) (before : List α) :
    repeatFrom x n before = (fun after => before.reverse ++ after) <$> repeatM n x := by
  unfold repeatM
  induction n generalizing before with
  | zero => simp [repeatFrom]
  | succ n ih =>
    simp only [repeatFrom, map_bind]
    congr 1
    funext a
    rw [ih (a :: before), ih [a]]
    simp

theorem repeatM_succ [LawfulMonad m] (x : m α) (n : Nat) :
    repeatM (n + 1) x = x >>= fun a => (a :: ·) <$> repeatM n x := by
  show (x >>= fun a => repeatFrom x n [a]) = _
  congr 1
  funext a
  rw [repeatFrom_eq]
  simp

end Ndr
