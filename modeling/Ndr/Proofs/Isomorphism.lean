import Ndr.Proofs.Matching

/-!
Object graphs that are the same up to the names of their cells. Two such graphs are equal, where no
float is a NaN.
-/

namespace Ndr

/-! ### Floats -/

mutual

/-- Whether a float of a value is no number. -/
def Value.hasNaN : Value → Bool
  | .float bits => IeeeFormat.single.isNaN bits.toNat
  | .double bits => IeeeFormat.double.isNaN bits.toNat
  | .struct vs | .array vs => hasNaNAny vs
  | .union _ v => hasNaN v
  | _ => false

def Value.hasNaNAny : List Value → Bool
  | [] => false
  | v :: vs => hasNaN v || hasNaNAny vs

end

variable {f : CellId → CellId}

mutual

/-- A value is the same as under other names, up to these names. -/
theorem Value.sameUpTo_rename : ∀ v : Value, v.hasNaN = false →
    v.SameUpTo (fun c d => d = f c) (v.rename f)
  | .pointer (some c), _ => .pointer rfl
  | .struct vs, hnan => by
    rw [rename_struct]
    refine .struct (List.length_map _).symm fun k v w hv hw => ?_
    rw [List.getElem?_map, hv] at hw
    exact Option.some.inj hw ▸ sameUpTo_rename_of_mem vs hnan v (List.mem_of_getElem? hv)
  | .array vs, hnan => by
    rw [rename_array]
    refine .array (List.length_map _).symm fun k v w hv hw => ?_
    rw [List.getElem?_map, hv] at hw
    exact Option.some.inj hw ▸ sameUpTo_rename_of_mem vs hnan v (List.mem_of_getElem? hv)
  | .union s v, hnan => .union s (sameUpTo_rename v hnan)
  | .float b, hnan => .float (IeeeFormat.same_self _ hnan)
  | .double b, hnan => .double (IeeeFormat.same_self _ hnan)
  | .pointer none, _ | .void, _ | .boolean _, _ | .byte _, _ | .char _, _ | .small _, _
  | .usmall _, _ | .short _, _ | .ushort _, _ | .long _, _ | .ulong _, _ | .hyper _, _
  | .uhyper _, _ | .enum _, _ | .errorStatus _, _ | .context _, _ | .pipe _, _ => .plain rfl

theorem Value.sameUpTo_rename_of_mem : ∀ vs : List Value, hasNaNAny vs = false → ∀ v ∈ vs,
    v.SameUpTo (fun c d => d = f c) (v.rename f)
  | v :: vs, hnan, w, hw => by
    rw [hasNaNAny, Bool.or_eq_false_iff] at hnan
    rcases List.mem_cons.1 hw with hwv | hw
    · exact hwv ▸ sameUpTo_rename v hnan.1
    · exact sameUpTo_rename_of_mem vs hnan.2 w hw

end

/-- A value without a NaN is the same as itself. -/
theorem Value.sameUpTo_self {v : Value} (h : v.hasNaN = false) : v.SameUpTo (· = ·) v := by
  have hid := sameUpTo_rename (f := id) v h
  rw [rename_eq_self (f := id) fun _ _ => rfl] at hid
  exact hid.mono fun _ _ _ _ => Eq.symm

theorem Value.hasNaNAny_eq_false {vs : List Value} (h : ∀ v ∈ vs, v.hasNaN = false) :
    hasNaNAny vs = false := by
  induction vs with
  | nil => rfl
  | cons v vs ih =>
    rw [hasNaNAny, h v List.mem_cons_self, Bool.false_or]
    exact ih fun w hw => h w (List.mem_cons_of_mem _ hw)

namespace Heap

/-! ### Graphs -/

/-- The same graph under other names: `f` names every cell that is reached, no two alike, and with
these names the values are the same, bit by bit. -/
structure Renames (f : CellId → CellId) (h : Heap) (roots : List Value) (h' : Heap)
    (roots' : List Value) : Prop where
  injective : ∀ c d, h.Reaches roots c → h.Reaches roots d → f c = f d → c = d
  values : roots' = roots.map (Value.rename f)
  cells : ∀ c, h.Reaches roots c → ∃ v, h.load? c = some v ∧ h'.load? (f c) = some (v.rename f)

/-- No float of a graph is a NaN. -/
def NoNaN (h : Heap) (roots : List Value) : Prop :=
  (∀ v ∈ roots, v.hasNaN = false) ∧
    ∀ c v, h.Reaches roots c → h.load? c = some v → v.hasNaN = false

variable {h h' : Heap} {roots roots' : List Value}

/-- The names match the cells. -/
theorem Renames.matching (hr : h.Renames f roots h' roots') (hn : h.NoNaN roots) :
    Matching h (.struct roots) h' (.struct roots') fun c d => h.Reaches roots c ∧ d = f c where
  unique := by
    refine ⟨fun c d x => ?_, fun c x y => ?_⟩
    · rintro ⟨hc, rfl⟩ ⟨hd, he⟩
      exact hr.injective c d hc hd he
    · rintro ⟨-, rfl⟩ ⟨-, rfl⟩
      rfl
  values := by
    rw [hr.values, ← Value.rename_struct]
    have hnan : (Value.struct roots).hasNaN = false := Value.hasNaNAny_eq_false hn.1
    refine (Value.sameUpTo_rename _ hnan).mono fun c d hc _ he => ?_
    obtain ⟨⟩ | ⟨hv, hc⟩ := hc
    exact ⟨.root hv hc, he⟩
  cells c d := by
    rintro ⟨hc, rfl⟩
    obtain ⟨v, hv, hv'⟩ := hr.cells c hc
    refine ⟨v, v.rename f, hv, hv', ?_⟩
    exact (Value.sameUpTo_rename v (hn.2 c v hc hv)).mono fun d _ hd _ he => ⟨.step hc hv hd, he⟩

/-- **Graphs that are the same up to the names of their cells are equal.** -/
theorem deepEq_of_renames (hr : h.Renames f roots h' roots') (hn : h.NoNaN roots) :
    deepEq h (.struct roots) h' (.struct roots') = true :=
  (hr.matching hn).deepEq

end Heap

end Ndr
