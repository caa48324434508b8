import Ndr.Fault

/-!
Equality of values, which is decided slot by slot and element by element.
-/

namespace Ndr

namespace Value

mutual

/-- Whether two values are the same. -/
def same : Value → Value → Bool
  | void, void => true
  | boolean a, boolean b => a == b
  | byte a, byte b | char a, char b | usmall a, usmall b => a == b
  | small a, small b => a == b
  | short a, short b => a == b
  | ushort a, ushort b => a == b
  | long a, long b | enum a, enum b => a == b
  | ulong a, ulong b | float a, float b | errorStatus a, errorStatus b => a == b
  | hyper a, hyper b => a == b
  | uhyper a, uhyper b | double a, double b => a == b
  | struct a, struct b | array a, array b => sameAll a b
  | union a v, union b w => a == b && same v w
  | pointer a, pointer b | context a, context b => a == b
  | pipe a, pipe b => a == b
  | _, _ => false

def sameAll : List Value → List Value → Bool
  | [], [] => true
  | v :: vs, w :: ws => same v w && sameAll vs ws
  | _, _ => false

end

mutual

theorem same_self (v : Value) : v.same v = true := by
  cases v <;> simp [same, sameAll_self, same_self]

theorem sameAll_self : ∀ vs : List Value, sameAll vs vs = true
  | [] => rfl
  | v :: vs => by rw [sameAll, same_self v, sameAll_self vs]; rfl

end

theorem eq_of_same : ∀ v w : Value, v.same w = true → v = w := by
  apply @same.induct (fun v w => v.same w = true → v = w)
    (fun vs ws => sameAll vs ws = true → vs = ws)
  all_goals intros
  all_goals grind [same, sameAll]

instance : DecidableEq Value := fun v w =>
  decidable_of_iff (v.same w = true) ⟨eq_of_same v w, fun h => h ▸ same_self v⟩

end Value

instance Except.decidableEq {ε α : Type} [DecidableEq ε] [DecidableEq α] :
    DecidableEq (Except ε α)
  | .ok a, .ok b => decidable_of_iff (a = b) ⟨congrArg _, Except.ok.inj⟩
  | .error d, .error e => decidable_of_iff (d = e) ⟨congrArg _, Except.error.inj⟩
  | .ok _, .error _ | .error _, .ok _ => isFalse nofun

end Ndr
