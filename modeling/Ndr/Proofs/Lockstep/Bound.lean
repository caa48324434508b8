import Ndr.Marshal.Array
import Ndr.Proofs.Lockstep.Steps
import Ndr.Unmarshal.Array

/-!
The shapes of arrays in lock-step: the bounds that both sides find, the counts that travel, and
the dimensions that they make up.
-/

namespace Ndr

/-! ### Integers of 64 bits -/

theorem checked_eq_ok {v w : Int} : checked v = .ok w ↔ v = w ∧ FitsInt64 v := by
  unfold checked
  split <;> simp_all

theorem fitsInt64_tdiv {v : Int} (h : FitsInt64 v) {n : Int} (hn : 0 < n) :
    FitsInt64 (v.tdiv n) := by
  obtain ⟨h1, h2⟩ := h
  rcases Int.le_total 0 v with hv | hv
  · have hle := Int.tdiv_le_self n hv
    have hpos := Int.tdiv_nonneg hv (Int.le_of_lt hn)
    exact ⟨by omega, by omega⟩
  · have hneg : v.tdiv n = -((-v).tdiv n) := by rw [Int.neg_tdiv, Int.neg_neg]
    have hle := Int.tdiv_le_self n (show 0 ≤ -v by omega)
    have hpos := Int.tdiv_nonneg (show 0 ≤ -v by omega) (Int.le_of_lt hn)
    exact ⟨by omega, by omega⟩

theorem fitsInt64_roundUp {n v w : Int} (hn : 0 < n) (hv : FitsInt64 v) (h : roundUp n v = .ok w) :
    FitsInt64 w := by
  obtain ⟨x, hx, h⟩ := Except.bind_eq_ok.1 h
  obtain rfl := Except.pure_eq_ok.1 h
  obtain ⟨rfl, h1, h2⟩ := checked_eq_ok.1 hx
  have hmod := Int.emod_nonneg (v + (n - 1)) (Int.ne_of_gt hn)
  have hlt := Int.emod_lt_of_pos (v + (n - 1)) hn
  have heq := Int.mul_ediv_add_emod (v + (n - 1)) n
  rw [Int.mul_comm] at heq
  obtain ⟨hv1, hv2⟩ := hv
  exact ⟨by omega, by omega⟩

/-- What an operator makes of an integer of 64 bits has 64 bits. -/
theorem fitsInt64_applyOperator {operator : UInt8} {v w : Int} (hv : FitsInt64 v)
    (h : applyOperator operator v = .ok w) : FitsInt64 w := by
  unfold applyOperator at h
  split at h
  all_goals
    first
      | exact Except.ok.inj h ▸ hv
      | exact Except.ok.inj h ▸ fitsInt64_tdiv hv (by decide)
      | exact (checked_eq_ok.1 h).1 ▸ (checked_eq_ok.1 h).2
      | exact fitsInt64_roundUp (by decide) hv h
      | exact absurd h (by simp)

theorem Bound.fitsInt64_constant (b : Bound) : FitsInt64 b.constant := by
  have h1 := b.value.toInt32.le_toInt
  have h2 := b.value.toInt32.toInt_lt
  exact ⟨by unfold constant; omega, by unfold constant; omega⟩

/-! ### What writing has found -/

namespace Marshal

variable {b : Bound} {scope : Scope} {v : Int}

/-- A bound that is found is known. -/
theorem resolve_of_boundValue (h : boundValue b scope = .ok v) :
    b.resolve scope = .ok (.value v) := by
  obtain ⟨r, hr, h⟩ := Except.bind_eq_ok.1 h
  rw [hr]
  cases r with
  | value w => rw [Except.pure_eq_ok.1 h]
  | fromString | late | unknown => exact absurd h Except.throw_ne_ok

/-- A bound that is found is constant, or comes from its field. -/
theorem boundValue_eq_ok (h : boundValue b scope = .ok v) :
    (b.kind = .fixed ∧ b.constant = v) ∨
      b.kind ≠ .fixed ∧ ∃ w, scope.get? b.field = some w ∧ applyOperator b.operator w = .ok v := by
  have hr := resolve_of_boundValue h
  unfold Bound.resolve at hr
  split at hr
  · exact absurd hr (by simp)
  split at hr
  · rename_i hfixed
    exact .inl ⟨hfixed, by simpa using hr⟩
  rename_i hfixed
  split at hr
  · exact absurd hr (by simp)
  refine .inr ⟨hfixed, ?_⟩
  split at hr
  · rename_i w hw
    obtain ⟨x, hx, hr⟩ := Except.bind_eq_ok.1 hr
    obtain rfl := Resolution.value.inj (Except.pure_eq_ok.1 hr)
    exact ⟨w, hw, hx⟩
  · split at hr <;> exact absurd hr (by simp)

theorem boundValue_of_fixed (h : b.kind = .fixed) : boundValue b scope = .ok b.constant := by
  unfold boundValue Bound.resolve
  rw [if_neg (by rw [h]; decide), if_pos h]
  rfl

theorem fitsInt64_boundValue (hs : ∀ k w, scope.get? k = some w → FitsInt64 w)
    (h : boundValue b scope = .ok v) : FitsInt64 v := by
  rcases boundValue_eq_ok h with ⟨-, rfl⟩ | ⟨-, w, hw, hv⟩
  · exact b.fitsInt64_constant
  · exact fitsInt64_applyOperator (hs _ _ hw) hv

variable {d : ArrayDefinition} {text : Option Nat} {dim : Dimension} {p : Span}

theorem countOf_eq_ok {v lower upper : Int} {n : Nat} :
    countOf v lower upper = .ok n ↔ v = n := by
  unfold countOf
  split
  · rw [Except.ok.injEq]
    omega
  · simp only [reduceCtorEq, false_iff]
    omega

theorem partOf_eq_ok {lower : Int} {extent first length : Nat} {limits : BoundPair}
    (h : partOf d text scope lower extent limits = .ok (first, length)) :
    (if limits.lower.kind = .string then first = 0
      else boundValue limits.lower scope = .ok (first : Int)) ∧
    if limits.upper.kind = .string then stringCount d text = .ok length
    else if limits.upper.kind = .upperConf then first ≤ extent ∧ length = extent - first
    else ∃ v, boundValue limits.upper scope = .ok v ∧
      lengthOf limits.upper.kind first v = .ok length := by
  have hupper : ∀ n : Nat, (do
      let length ← if limits.upper.kind = .string then stringCount d text
        else if limits.upper.kind = .upperConf then
          if n ≤ extent then pure (extent - n)
          else throw (.conformanceMismatch extent n 0)
        else do lengthOf limits.upper.kind n (← boundValue limits.upper scope)
      return (n, length) : Except Fault (Nat × Nat)) = .ok (first, length) →
      n = first ∧ if limits.upper.kind = .string then stringCount d text = .ok length
        else if limits.upper.kind = .upperConf then n ≤ extent ∧ length = extent - n
        else ∃ v, boundValue limits.upper scope = .ok v ∧
          lengthOf limits.upper.kind n v = .ok length := by
    intro n h
    dsimp only at h
    split at h
    · rename_i hk
      obtain ⟨m, hm, h⟩ := Except.bind_eq_ok.1 h
      obtain ⟨rfl, rfl⟩ := Prod.mk.inj (Except.pure_eq_ok.1 h)
      exact ⟨rfl, by rw [if_pos hk]; exact hm⟩
    rename_i hk
    split at h
    · rename_i hk'
      split at h
      · rename_i hle
        obtain ⟨rfl, rfl⟩ := Prod.mk.inj (Except.pure_eq_ok.1 h)
        exact ⟨rfl, by rw [if_neg hk, if_pos hk']; exact ⟨hle, rfl⟩⟩
      · obtain ⟨_, h, -⟩ := Except.bind_eq_ok.1 h
        exact absurd h Except.throw_ne_ok
    · rename_i hk'
      obtain ⟨v, hv, h⟩ := Except.bind_eq_ok.1 h
      obtain ⟨m, hm, h⟩ := Except.bind_eq_ok.1 h
      obtain ⟨rfl, rfl⟩ := Prod.mk.inj (Except.pure_eq_ok.1 h)
      exact ⟨rfl, by rw [if_neg hk, if_neg hk']; exact ⟨v, hv, hm⟩⟩
  unfold partOf at h
  dsimp only at h
  split at h
  · rename_i hk
    obtain ⟨rfl, hlength⟩ := hupper 0 h
    exact ⟨by rw [if_pos hk], hlength⟩
  · rename_i hk
    obtain ⟨v, hv, h⟩ := Except.bind_eq_ok.1 h
    obtain ⟨n, hn, h⟩ := Except.bind_eq_ok.1 h
    obtain ⟨rfl, hlength⟩ := hupper n h
    exact ⟨by rw [if_neg hk, ← countOf_eq_ok.1 hn]; exact hv, hlength⟩

/-- How a dimension is made up. -/
structure Spans (d : ArrayDefinition) (text : Option Nat) (scope : Scope) (dim : Dimension)
    (lower : Int) (p : Span) : Prop where
  from_lower : boundValue dim.bounds.lower scope = .ok lower
  extent : if dim.bounds.upper.kind = .string then stringCount d text = .ok p.extent
    else ∃ v, boundValue dim.bounds.upper scope = .ok v ∧
      extentOf dim.bounds.upper.kind lower v = .ok p.extent
  limits : match dim.limits with
    | none => p.first = 0 ∧ p.length = p.extent
    | some limits => partOf d text scope lower p.extent limits = .ok (p.first, p.length)
  within : p.first + p.length ≤ p.extent

/-- A dimension of a host array, once its extent is known. -/
abbrev spanFrom (d : ArrayDefinition) (text : Option Nat) (scope : Scope) (lower : Int)
    (dim : Dimension) (extent : Nat) : Except Fault Span := do
  let (first, length) ← match dim.limits with
    | none => pure (0, extent)
    | some limits => partOf d text scope lower extent limits
  if extent < first + length then throw (.conformanceMismatch extent first length)
  return { extent, first, length }

theorem spanFrom_eq_ok {lower : Int} {extent : Nat}
    (h : spanFrom d text scope lower dim extent = .ok p) :
    p.extent = extent ∧ (match dim.limits with
      | none => p.first = 0 ∧ p.length = p.extent
      | some limits => partOf d text scope lower p.extent limits = .ok (p.first, p.length)) ∧
    p.first + p.length ≤ p.extent := by
  have hrest : ∀ first length, (do
      if extent < first + length then throw (.conformanceMismatch extent first length)
      return { extent, first, length } : Except Fault Span) = .ok p →
      p = ⟨extent, first, length⟩ ∧ first + length ≤ extent := by
    intro first length h
    split at h
    · obtain ⟨_, h, -⟩ := Except.bind_eq_ok.1 h
      exact absurd h Except.throw_ne_ok
    · rename_i hle
      exact ⟨(Except.pure_eq_ok.1 h).symm, by omega⟩
  unfold spanFrom at h
  cases hl : dim.limits with
  | none =>
    simp only [hl] at h
    obtain ⟨rfl, hle⟩ := hrest _ _ h
    exact ⟨rfl, ⟨rfl, rfl⟩, hle⟩
  | some limits =>
    simp only [hl] at h
    obtain ⟨⟨first, length⟩, h1, h⟩ := Except.bind_eq_ok.1 h
    obtain ⟨rfl, hle⟩ := hrest _ _ h
    exact ⟨rfl, h1, hle⟩

theorem spanOf_eq_ok (h : spanOf d text scope dim = .ok p) :
    ∃ lower, Spans d text scope dim lower p := by
  obtain ⟨lower, hlower, h⟩ := Except.bind_eq_ok.1 h
  dsimp only at h
  by_cases hs : dim.bounds.upper.kind = .string
  · rw [if_pos hs] at h
    obtain ⟨extent, he, h⟩ := Except.bind_eq_ok.1 h
    obtain ⟨rfl, h1, h2⟩ := spanFrom_eq_ok h
    exact ⟨lower, hlower, by rw [if_pos hs]; exact he, h1, h2⟩
  · rw [if_neg hs] at h
    obtain ⟨v, hv, h⟩ := Except.bind_eq_ok.1 h
    obtain ⟨extent, he, h⟩ := Except.bind_eq_ok.1 h
    obtain ⟨rfl, h1, h2⟩ := spanFrom_eq_ok h
    exact ⟨lower, hlower, by rw [if_neg hs]; exact ⟨v, hv, he⟩, h1, h2⟩

theorem checkedSpan_eq_ok {lower upper v : Int} (h : checkedSpan lower upper = .ok v) :
    v = upper - lower + 1 := by
  obtain ⟨w, hw, h⟩ := Except.bind_eq_ok.1 h
  obtain ⟨rfl, -⟩ := checked_eq_ok.1 hw
  exact (checked_eq_ok.1 h).1.symm

/-- The upper bound of as many elements. -/
theorem upper_of_extentOf {kind : BoundKind} {lower upper : Int} {n : Nat}
    (h : extentOf kind lower upper = .ok n) :
    upper = if kind = .sizeIs then (n : Int) else lower + (n - 1) := by
  unfold extentOf at h
  split at h
  · rename_i hkind
    rw [if_pos hkind]
    exact countOf_eq_ok.1 h
  · rename_i hkind
    rw [if_neg hkind]
    obtain ⟨v, hv, h⟩ := Except.bind_eq_ok.1 h
    have hspan := checkedSpan_eq_ok hv
    have hcount := countOf_eq_ok.1 h
    omega

/-- The limit of as many elements that are sent. -/
theorem upper_of_lengthOf {kind : BoundKind} {first upper : Int} {n : Nat}
    (h : lengthOf kind first upper = .ok n) :
    upper = if kind = .lengthIs then (n : Int) else first + n - 1 := by
  unfold lengthOf at h
  split at h
  · rename_i hkind
    rw [if_pos hkind]
    exact countOf_eq_ok.1 h
  · rename_i hkind
    rw [if_neg hkind]
    obtain ⟨v, hv, h⟩ := Except.bind_eq_ok.1 h
    have hspan := checkedSpan_eq_ok hv
    have hcount := countOf_eq_ok.1 h
    omega

end Marshal

namespace Lockstep

section

variable {env : Marshal.Env} {T : Terms} {N : Naming} {own : ScopeId → Prop} {G : List Frame}
  {F : Frame} {i : ScopeId} {b : Bound} {v lower : Int} {d : ArrayDefinition} {text : Option Nat}
  {dim : Dimension} {p : Span} (side : Side) (previous : NodeTable)

/-! ### Bounds -/

/-- What is asked of a bound: where it is compared with its field, the field need not come early,
and is read. -/
def BoundHolds (F : Frame) (b : Bound) : Prop :=
  b.isChecked → b.hasFlag BoundFlag.early = false ∧ F.readable b.field

theorem BoundHolds.agrees (hb : BoundHolds F b) (h : Marshal.boundValue b F.scope = .ok v)
    (hc : b.isChecked) : Agrees F b v := by
  obtain ⟨hearly, hread⟩ := hb hc
  rcases Marshal.boundValue_eq_ok h with ⟨hfixed, -⟩ | ⟨-, hw⟩
  · simp [Bound.isChecked, hfixed] at hc
  · exact ⟨hearly, hread, hw⟩

theorem not_isChecked_of_string (h : b.kind = .string) : ¬b.isChecked := by
  simp [Bound.isChecked, h]

/-- What is asked of a dimension. -/
structure DimensionHolds (F : Frame) (dim : Dimension) : Prop where
  lower : dim.bounds.lower.kind = .fixed
  upper : BoundHolds F dim.bounds.upper
  limits : ∀ l, dim.limits = some l → BoundHolds F l.lower ∧ BoundHolds F l.upper

/-! ### Extents -/

theorem saturate_of_fits (h : FitsInt64 v) : Unmarshal.saturate v = v := by
  obtain ⟨h1, h2⟩ := h
  unfold Unmarshal.saturate
  omega

/-- The extent that was read agrees with its bound. -/
theorem silent_extentIn (hF : G[i]? = some F) (hd : DimensionHolds F dim)
    (h : Marshal.Spans d text F.scope dim lower p) :
    Silent env T N own G (Unmarshal.extentIn i dim.bounds (some p.extent)) (· = p.extent) := by
  have hlower := (Marshal.boundValue_of_fixed hd.lower).symm.trans h.from_lower
  have hcheck : Silent env T N own G (Unmarshal.checkBound dim.bounds.upper
      (if dim.bounds.upper.kind = .sizeIs then (p.extent : Int)
        else Unmarshal.saturate (dim.bounds.lower.constant + (p.extent - 1))) i) fun _ => True := by
    refine silent_checkBound hF fun hc => ?_
    have hextent := h.extent
    rw [if_neg fun hs => not_isChecked_of_string hs hc] at hextent
    obtain ⟨v, hv, hextent⟩ := hextent
    have hupper := Marshal.upper_of_extentOf hextent
    rw [← Except.ok.inj hlower] at hupper
    split
    · rename_i hsize
      rw [if_pos hsize] at hupper
      exact hupper ▸ hd.upper.agrees hv hc
    · rename_i hsize
      rw [if_neg hsize] at hupper
      rw [← hupper, saturate_of_fits (Marshal.fitsInt64_boundValue F.fits hv)]
      exact hd.upper.agrees hv hc
  refine ⟨fun {G' s u} hG hu => ?_⟩
  obtain ⟨_, u1, e1, r1, f1, c1, -⟩ := hcheck.runs hG hu
  refine ⟨p.extent, u1, ?_, r1, f1, c1, rfl⟩
  have hresolve : dim.bounds.lower.resolve (u.scopeAt i) = .ok (.value dim.bounds.lower.constant) := by
    unfold Bound.resolve
    rw [if_neg (by rw [hd.lower]; decide), if_pos hd.lower]
  exact bind_eq_ok.2 ⟨_, u, rfl, bind_eq_ok.2 ⟨_, u, lift_eq_ok.2 ⟨hresolve, rfl⟩,
    bind_eq_ok.2 ⟨_, u1, e1, rfl⟩⟩⟩

/-- The extent between constant bounds is found without the message. -/
theorem silent_extentIn_constant (hc : dim.bounds.isConstant)
    (h : Marshal.Spans d text F.scope dim lower p) :
    Silent env T N own G (Unmarshal.extentIn i dim.bounds none) (· = p.extent) := by
  simp only [BoundPair.isConstant, Bool.and_eq_true, beq_iff_eq] at hc
  obtain ⟨hl, hu⟩ := hc
  have hlower := Except.ok.inj ((Marshal.boundValue_of_fixed hl).symm.trans h.from_lower)
  have hextent := h.extent
  rw [if_neg (by rw [hu]; decide), hlower.symm] at hextent
  obtain ⟨v, hv, hextent⟩ := hextent
  obtain rfl := Except.ok.inj ((Marshal.boundValue_of_fixed hu).symm.trans hv)
  refine ⟨fun {G' s u} _ hf => ?_⟩
  have hresolve : dim.bounds.lower.resolve (u.scopeAt i) = .ok (.value dim.bounds.lower.constant) := by
    unfold Bound.resolve
    rw [if_neg (by rw [hl]; decide), if_pos hl]
  exact ⟨p.extent, u, bind_eq_ok.2 ⟨_, u, rfl, bind_eq_ok.2 ⟨_, u, lift_eq_ok.2 ⟨hresolve, rfl⟩,
    lift_eq_ok.2 ⟨hextent, rfl⟩⟩⟩, rfl, hf, .refl, rfl⟩

/-- How the dimensions of a shape are made up. -/
def Shapes (d : ArrayDefinition) (text : Option Nat) (scope : Scope) (dims : List Dimension)
    (shape : Shape) : Prop :=
  List.Forall₂ (fun dim p => ∃ lower, Marshal.Spans d text scope dim lower p) dims shape

theorem silent_extentsIn {shape : Shape} (hF : G[i]? = some F)
    (hd : ∀ dim ∈ d.dimensions, DimensionHolds F dim) (h : Shapes d text F.scope d.dimensions shape) :
    Silent env T N own G (Unmarshal.extentsIn i d (some (shape.map (·.extent))))
      (· = shape.map (·.extent)) := by
  unfold Unmarshal.extentsIn
  generalize d.dimensions = dims at h hd
  induction h with
  | nil =>
    simp only [List.map_nil, List.zip_nil_right, List.mapM_nil]
    exact .pure rfl
  | @cons dim p dims shape hp _ ih =>
    obtain ⟨lower, hp⟩ := hp
    simp only [List.map_cons, List.zip_cons_cons, List.mapM_cons]
    refine .bind (silent_extentIn hF (hd dim List.mem_cons_self) hp) ?_
    rintro _ rfl
    refine .bind (ih fun e he => hd e (List.mem_cons_of_mem _ he)) ?_
    rintro _ rfl
    exact .pure rfl

theorem silent_extentsIn_constant {shape : Shape} (hc : d.dimensions.all (·.bounds.isConstant))
    (h : Shapes d text F.scope d.dimensions shape) :
    Silent env T N own G (Unmarshal.extentsIn i d none) (· = shape.map (·.extent)) := by
  unfold Unmarshal.extentsIn
  generalize d.dimensions = dims at h hc
  induction h with
  | nil =>
    simp only [List.map_nil, List.mapM_nil]
    exact .pure rfl
  | @cons dim p dims shape hp _ ih =>
    obtain ⟨lower, hp⟩ := hp
    rw [List.all_cons, Bool.and_eq_true] at hc
    simp only [List.map_cons, List.mapM_cons]
    refine .bind (silent_extentIn_constant hc.1 hp) ?_
    rintro _ rfl
    refine .bind (ih hc.2) ?_
    rintro _ rfl
    exact .pure rfl

/-! ### Counts -/

theorem locked_size {v1 : Bool} {n : Nat} :
    Locked env T N own G (Marshal.putSize env v1 n)
      (Unmarshal.getSize (env.receiver side previous) v1) fun _ k => k = n := by
  unfold Marshal.putSize Unmarshal.getSize
  cases v1 with
  | true =>
    simp only [if_true]
    exact .check (fun hlt => .wire (mirrored_putAligned _ (by simpa using hlt)))
      (.put (puts_putAligned _ _ _))
  | false =>
    simp only [Bool.false_eq_true, if_false]
    exact .check (fun hlt => locked_count side previous (by simpa using hlt))
      ((Marshal.composes_grows _).count _)

theorem locked_extents {v1 : Bool} (shape : Shape) :
    Locked env T N own G (Marshal.putExtents env shape v1)
      (Unmarshal.getExtents (env.receiver side previous) shape.length v1)
      fun _ counts => counts = shape.map (·.extent) := by
  unfold Marshal.putExtents Unmarshal.getExtents
  induction shape with
  | nil => exact .pure rfl
  | cons p shape ih =>
    rw [List.length_cons, repeatM_succ]
    refine .bind (locked_size side previous) (fun _ => (Marshal.composes_grows _).putExtents _ _) ?_
    rintro _ _ rfl
    exact ih.map fun _ _ h => by rw [h, List.map_cons]

/-! ### Ranges -/

/-- The range of a dimension agrees with its limits. -/
theorem silent_checkLimits {limits : BoundPair} (hF : G[i]? = some F)
    (hl : BoundHolds F limits.lower ∧ BoundHolds F limits.upper)
    (h : Marshal.partOf d text F.scope lower p.extent limits = .ok (p.first, p.length)) :
    Silent env T N own G (Unmarshal.checkLimits limits i p.first p.length) fun _ => True := by
  obtain ⟨hfirst, hlength⟩ := Marshal.partOf_eq_ok h
  have hlower : Silent env T N own G (if limits.lower.kind = .firstIs then
      Unmarshal.checkBound limits.lower p.first i else pure ()) fun _ => True := by
    split
    · rename_i hkind
      rw [if_neg (by rw [hkind]; decide)] at hfirst
      exact silent_checkBound hF (hl.1.agrees hfirst)
    · exact .pure trivial
  have hupper : Silent env T N own G (if limits.upper.kind = .lengthIs then
      Unmarshal.checkBound limits.upper p.length i
      else if limits.upper.kind = .lastIs then
        Unmarshal.checkBound limits.upper ((p.first : Int) + p.length - 1) i
      else pure ()) fun _ => True := by
    split
    · rename_i hkind
      rw [if_neg (by rw [hkind]; decide), if_neg (by rw [hkind]; decide)] at hlength
      obtain ⟨v, hv, hlength⟩ := hlength
      have hupper := Marshal.upper_of_lengthOf hlength
      rw [if_pos hkind] at hupper
      exact silent_checkBound hF (hl.2.agrees (hupper ▸ hv))
    split
    · rename_i hlen hkind
      rw [if_neg (by rw [hkind]; decide), if_neg (by rw [hkind]; decide)] at hlength
      obtain ⟨v, hv, hlength⟩ := hlength
      have hupper := Marshal.upper_of_lengthOf hlength
      rw [if_neg hlen] at hupper
      exact silent_checkBound hF (hl.2.agrees (hupper ▸ hv))
    · exact .pure trivial
  unfold Unmarshal.checkLimits
  by_cases hkind : limits.lower.kind = .firstIs
  · simp only [if_pos hkind] at hlower ⊢
    exact .bind hlower fun _ _ => hupper
  · simp only [if_neg hkind]
    exact hupper

/-- A dimension whose counts were read. -/
theorem silent_span (hF : G[i]? = some F) (hd : DimensionHolds F dim)
    (h : Marshal.Spans d text F.scope dim lower p) :
    Silent env T N own G (do
      if p.extent < p.first + p.length then
        throw (.conformanceMismatch p.extent p.first p.length)
      match dim.limits with
      | none => pure ()
      | some limits => Unmarshal.checkLimits limits i p.first p.length
      return { p with } : Unmarshalling Span) (· = p) := by
  dsimp only
  rw [if_neg (Nat.not_lt.2 h.within)]
  have hlimits := h.limits
  cases hl : dim.limits with
  | none => exact .pure rfl
  | some limits =>
    simp only [hl] at hlimits
    exact .bind (silent_checkLimits hF (hd.limits _ hl) hlimits) fun _ _ => .pure rfl

/-- The range of a dimension is read back with its limits. -/
theorem locked_span {v1 : Bool} (hF : G[i]? = some F) (hd : DimensionHolds F dim)
    (h : Marshal.Spans d text F.scope dim lower p) :
    Locked env T N own G (do
      if v1 then
        if p.first ≠ 0 then throw (.conformanceMismatch p.extent p.first p.length)
        Marshal.putSize env v1 p.length
      else
        if 2 ^ 32 ≤ p.first ∨ 2 ^ 32 ≤ p.length then throw .integerOverflow
        Marshal.putCount env p.first
        Marshal.putCount env p.length)
      (Unmarshal.getSpan (env.receiver side previous) v1 i dim p.extent) fun _ q => q = p := by
  unfold Unmarshal.getSpan
  cases v1 with
  | true =>
    simp only [if_true]
    refine .check (fun hfirst => ?_) ((Marshal.composes_grows _).putSize _ _)
    rw [pure_bind, ← Decidable.not_not.1 hfirst]
    refine (locked_size side previous).behind ?_
    rintro _ _ rfl
    exact silent_span hF hd h
  | false =>
    simp only [Bool.false_eq_true, if_false]
    refine .check (fun hlt => ?_)
      (.bind ((Marshal.composes_grows _).count _) fun _ => (Marshal.composes_grows _).count _)
    rw [not_or, Nat.not_le, Nat.not_le] at hlt
    refine .bind (locked_count side previous hlt.1) (fun _ => (Marshal.composes_grows _).count _) ?_
    rintro _ _ rfl
    refine (locked_count side previous hlt.2).behind ?_
    rintro _ _ rfl
    exact silent_span hF hd h

theorem locked_ranges {v1 : Bool} {shape : Shape} (hF : G[i]? = some F)
    (hd : ∀ dim ∈ d.dimensions, DimensionHolds F dim) (h : Shapes d text F.scope d.dimensions shape) :
    Locked env T N own G (Marshal.putRanges env shape v1)
      ((d.dimensions.zip (shape.map (·.extent))).mapM fun (dim, n) =>
        Unmarshal.getSpan (env.receiver side previous) v1 i dim n) fun _ read => read = shape := by
  generalize d.dimensions = dims at h hd
  induction h with
  | nil => exact .pure rfl
  | @cons dim p dims shape hp _ ih =>
    obtain ⟨lower, hp⟩ := hp
    simp only [List.map_cons, List.zip_cons_cons, List.mapM_cons]
    refine .bind (locked_span side previous hF (hd dim List.mem_cons_self) hp)
      (fun _ => (Marshal.composes_grows _).putRanges _ _) ?_
    rintro _ _ rfl
    exact (ih fun e he => hd e (List.mem_cons_of_mem _ he)).behind fun _ _ h =>
      .pure (by rw [h])

end

end Lockstep

end Ndr
