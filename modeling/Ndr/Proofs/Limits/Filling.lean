import Ndr.Proofs.Box
import Ndr.Proofs.Pipes.Order
import Ndr.Proofs.TextRoundTrip

/-!
Arrays among the values that are read. Each was read in whole, is the text of a string, is a list of
deleted nodes, or was read in part, and then few of its elements are not from the message; or it
stands in the zero of a type. None of them is long.
-/

namespace Ndr

namespace Value

/-! ### Values in values -/

/-- A value stands within another. -/
inductive Occurs (v : Value) : Value → Prop
  | self : Occurs v v
  | slot {slots : List Value} {w : Value} (mem : w ∈ slots) (within : Occurs v w) :
      Occurs v (.struct slots)
  | element {elements : List Value} {w : Value} (mem : w ∈ elements) (within : Occurs v w) :
      Occurs v (.array elements)
  | arm {switch : Int64} {w : Value} (within : Occurs v w) : Occurs v (.union switch w)

/-- All arrays in a value have at most `n` elements. -/
def ArraysWithin (n : Nat) (v : Value) : Prop := ∀ vs, (array vs).Occurs v → vs.length ≤ n

variable {n : Nat} {v : Value} {vs : List Value}

theorem ArraysWithin.of_none (h : ∀ vs, ¬(array vs).Occurs v) : v.ArraysWithin n :=
  fun vs hvs => absurd hvs (h vs)

theorem ArraysWithin.struct (h : ∀ v ∈ vs, v.ArraysWithin n) : (struct vs).ArraysWithin n := by
  rintro ws (_ | ⟨mem, within⟩)
  exact h _ mem ws within

theorem ArraysWithin.array (hn : vs.length ≤ n) (h : ∀ v ∈ vs, v.ArraysWithin n) :
    (array vs).ArraysWithin n := by
  rintro ws (_ | _ | ⟨mem, within⟩)
  · exact hn
  · exact h _ mem ws within

theorem ArraysWithin.union {switch : Int64} (h : v.ArraysWithin n) :
    (union switch v).ArraysWithin n := by
  rintro ws (_ | _ | _ | within)
  exact h ws within

theorem not_occurs_void (vs : List Value) : ¬(array vs).Occurs void := nofun

theorem not_occurs_pointer (vs : List Value) (target : Option CellId) :
    ¬(array vs).Occurs (pointer target) := nofun

theorem not_occurs_context (vs : List Value) (handle : Option ContextHandle) :
    ¬(array vs).Occurs (context handle) := nofun

theorem not_occurs_ofWord (vs : List Value) (kind : Scalar) (n : Nat) :
    ¬(array vs).Occurs (kind.ofWord n) := by
  cases kind <;> exact nofun

theorem not_occurs_zero (vs : List Value) (kind : Scalar) : ¬(array vs).Occurs kind.zero := by
  cases kind <;> exact nofun

end Value

namespace Unmarshal

/-! ### Zeros -/

section

variable {env : Env} {zero : Descriptor → Except Fault Value} {n : Nat} {v : Value}

theorem arraysWithin_zeroFields {layout index : Nat} {fields : List Descriptor}
    {slots slots' : Array Value} (hzero : ∀ d v, zero d = .ok v → v.ArraysWithin n)
    (hslots : ∀ v ∈ slots, v.ArraysWithin n)
    (h : zeroFields env zero layout index fields slots = .ok slots') :
    ∀ v ∈ slots', v.ArraysWithin n := by
  induction fields generalizing index slots with
  | nil => exact Except.ok.inj h ▸ hslots
  | cons d ds ih =>
    obtain ⟨slot, -, h⟩ := Except.bind_eq_ok.1 h
    obtain ⟨w, hw, h⟩ := Except.bind_eq_ok.1 h
    refine ih (fun v hv => ?_) h
    rcases Array.mem_or_eq_of_mem_setIfInBounds hv with hv | rfl
    · exact hslots v hv
    · exact hzero d v hw

theorem arraysWithin_zeroStruct {layout : Nat} {fields : List Descriptor}
    (hzero : ∀ d v, zero d = .ok v → v.ArraysWithin n)
    (h : zeroStruct env zero layout fields = .ok v) : v.ArraysWithin n := by
  obtain ⟨count, -, h⟩ := Except.bind_eq_ok.1 h
  obtain ⟨slots, hslots, h⟩ := Except.bind_eq_ok.1 h
  obtain rfl := Except.pure_eq_ok.1 h
  refine .struct fun v hv => arraysWithin_zeroFields hzero (fun w hw => ?_) hslots v (by simpa using hv)
  exact (Array.mem_replicate.1 hw).2 ▸ .of_none Value.not_occurs_void

theorem arraysWithin_zeroArray {definition : Nat} {varying : Bool}
    (hzero : ∀ d v, zero d = .ok v → v.ArraysWithin env.config.maxElements)
    (h : zeroArray env zero definition varying = .ok v) : v.ArraysWithin env.config.maxElements := by
  obtain ⟨a, -, h⟩ := Except.bind_eq_ok.1 h
  obtain ⟨total, -, h⟩ := Except.bind_eq_ok.1 h
  obtain ⟨_, hcount, h⟩ := Except.bind_eq_ok.1 h
  obtain ⟨w, hw, h⟩ := Except.bind_eq_ok.1 h
  obtain rfl := Except.pure_eq_ok.1 h
  refine .array ?_ fun v hv => (List.mem_replicate.1 hv).2 ▸ hzero _ _ hw
  rw [List.length_replicate]
  exact checkCount_eq_ok hcount

/-- Arrays in the zero of a type are no longer than arrays that are read. -/
theorem arraysWithin_zeroFrom {fuel : Nat} {d : Descriptor} (h : zeroFrom env fuel d = .ok v) :
    v.ArraysWithin env.config.maxElements := by
  induction fuel generalizing d v with
  | zero => exact absurd h (by simp [zeroFrom])
  | succ fuel ih =>
    have ih : ∀ d v, zeroFrom env fuel d = .ok v → v.ArraysWithin env.config.maxElements :=
      fun _ _ => ih
    unfold zeroFrom at h
    split at h
    · exact Except.ok.inj h ▸ .of_none fun _ => Value.not_occurs_zero _ _
    · exact Except.ok.inj h ▸ .of_none fun _ => Value.not_occurs_pointer _ _
    · exact Except.ok.inj h ▸ .of_none fun _ => Value.not_occurs_pointer _ _
    · obtain ⟨s, -, h⟩ := Except.bind_eq_ok.1 h
      exact arraysWithin_zeroStruct ih h
    · exact arraysWithin_zeroStruct ih h
    · split at h
      · exact Except.ok.inj h ▸ .array (Nat.zero_le _) (by simp)
      · exact arraysWithin_zeroArray ih h
    · exact Except.ok.inj h ▸ .union (.of_none Value.not_occurs_void)
    · exact Except.ok.inj h ▸ .union (.of_none Value.not_occurs_void)
    · exact Except.ok.inj h ▸ .of_none fun _ => Value.not_occurs_context _ _
    all_goals exact Except.ok.inj h ▸ .of_none Value.not_occurs_void

end

/-! ### Elements in their places -/

/-- Put values into places, in order. -/
def place : List Nat → List Value → Array Value → Array Value
  | i :: places, v :: vs, cells => place places vs (cells.setIfInBounds i v)
  | _, _, cells => cells

/-- Elements are read in order; where they go does not matter to their reading. -/
theorem foldIndices_place (shape : Shape) (x : Unmarshalling Value) (cells : Array Value) :
    shape.foldIndices (fun cells i => return cells.setIfInBounds i (← x)) cells
      = (place shape.indices · cells) <$> repeatM shape.indices.length x := by
  rw [Shape.foldIndices_eq]
  induction shape.indices generalizing cells with
  | nil => rfl
  | cons i places ih =>
    rw [List.foldlM_cons, List.length_cons, repeatM_succ, map_bind, bind_assoc]
    refine bind_congr fun v => ?_
    rw [pure_bind, ih, ← comp_map]
    rfl

section

variable {places : List Nat} {vs : List Value} {cells : Array Value}

theorem size_place : (place places vs cells).size = cells.size := by
  induction places generalizing vs cells with
  | nil => rfl
  | cons i places ih =>
    cases vs with
    | nil => rfl
    | cons v vs => exact ih.trans (Array.size_setIfInBounds ..)

/-- Other places stay as they are. -/
theorem getElem?_place_of_notMem {i : Nat} (h : i ∉ places) : (place places vs cells)[i]? = cells[i]? := by
  induction places generalizing vs cells with
  | nil => rfl
  | cons j places ih =>
    obtain ⟨hne, h⟩ := not_or.1 (mt List.mem_cons.2 h)
    cases vs with
    | nil => rfl
    | cons v vs => exact (ih h).trans (Array.getElem?_setIfInBounds_ne (Ne.symm hne))

/-- Every value is found in its place. -/
theorem forall₂_place (hn : places.Nodup) (hl : places.length = vs.length)
    (hi : ∀ i ∈ places, i < cells.size) :
    List.Forall₂ (fun i v => (place places vs cells)[i]? = some v) places vs := by
  induction places generalizing vs cells with
  | nil => exact List.length_eq_zero_iff.1 hl.symm ▸ .nil
  | cons i places ih =>
    obtain _ | ⟨v, vs⟩ := vs
    · exact absurd hl (by simp)
    obtain ⟨hi', hn⟩ := List.nodup_cons.1 hn
    obtain ⟨hlt, hi⟩ := List.forall_mem_cons.1 hi
    refine .cons ?_ (ih hn (Nat.succ.inj hl) fun j hj => ?_)
    · exact (getElem?_place_of_notMem hi').trans (Array.getElem?_setIfInBounds_self_of_lt hlt)
    · rw [Array.size_setIfInBounds]
      exact hi j hj

end

/-- Of `n` places those that are not listed are the rest. -/
theorem countP_notMem {places : List Nat} {n : Nat} (hn : places.Nodup) (hi : ∀ i ∈ places, i < n) :
    (List.range n).countP (· ∉ places) = n - places.length := by
  have hperm : ((List.range n).filter (· ∈ places)).Perm places :=
    (List.perm_ext_iff_of_nodup (List.nodup_range.filter _) hn).2 fun i => by
      simpa using hi i
  have hcount := List.length_eq_countP_add_countP (· ∈ places) (l := List.range n)
  rw [List.length_range, List.countP_eq_length_filter, hperm.length_eq] at hcount
  simp only [decide_eq_true_eq] at hcount
  omega

/-! ### Arrays that are read -/

/-- The elements `vs` of an array come from `read`, which is read from the state `s` to `t`: in whole, as
the characters of a text behind which there is a terminator, or in part. -/
inductive Filling (env : Env) (walk : Walk) (element : Descriptor) (site : Site ScopeId) (s t : State)
    (vs : List Value) : List Value → Prop
  | whole (reads : getElements env walk element vs.length site s = .ok vs t) :
      Filling env walk element site s t vs vs
  | text {characters : List Value}
      (reads : getElements env walk element characters.length site s = .ok characters t)
      (ends : stripTerminator characters = .ok vs) : Filling env walk element site s t vs characters
  /-- The places that are sent go up; in the others there is zero. -/
  | part {places : List Nat} {read : List Value}
      (reads : repeatM places.length (walk element site) s = .ok read t)
      (order : places.Pairwise (· < ·)) (within : ∀ i ∈ places, i < vs.length)
      (sent : List.Forall₂ (fun i v => vs[i]? = some v) places read)
      (unsent : ∀ i < vs.length, i ∉ places →
        ∃ zero, zeroValue env element = .ok zero ∧ vs[i]? = some zero)
      (filled : (List.range vs.length).countP (· ∉ places) ≤ env.config.maxFilled) :
      Filling env walk element site s t vs read

/-- An element of an array is one that was read, or zero. -/
theorem Filling.mem_or_zero {env : Env} {walk : Walk} {element : Descriptor} {site : Site ScopeId}
    {s t : State} {vs read : List Value} (h : Filling env walk element site s t vs read) {v : Value}
    (hv : v ∈ vs) : v ∈ read ∨ zeroValue env element = .ok v := by
  cases h with
  | whole reads => exact .inl hv
  | text reads ends =>
    obtain ⟨w, rfl⟩ := stripTerminator_eq_ok ends
    exact .inl (List.mem_append_left _ hv)
  | @part places _ reads order within sent unsent filled =>
    obtain ⟨i, hi, rfl⟩ := List.mem_iff_getElem.1 hv
    by_cases hmem : i ∈ places
    · obtain ⟨w, hw, he⟩ := exists_of_forall₂ sent hmem
      rw [List.getElem?_eq_getElem hi] at he
      exact .inl (Option.some.inj he ▸ hw)
    · obtain ⟨zero, hzero, he⟩ := unsent i hi hmem
      rw [List.getElem?_eq_getElem hi] at he
      exact .inr (Option.some.inj he ▸ hzero)

/-- Values that are read between the states `S` and `E` of an operation, of whose arrays each keeps
within the limits. -/
inductive Limited (env : Env) (S E : State) : Value → Prop
  | plain {v : Value} (h : ∀ vs, ¬(Value.array vs).Occurs v) : Limited env S E v
  | struct {slots : List Value} (h : ∀ v ∈ slots, Limited env S E v) : Limited env S E (.struct slots)
  | union {switch : Int64} {v : Value} (h : Limited env S E v) : Limited env S E (.union switch v)
  | array {definition room : Nat} {varying : Bool} {d : ArrayDefinition} {site : Site ScopeId}
      {s t : State} {vs read : List Value}
      (found : env.vector.arrayDefinition definition varying = .ok d)
      (size : vs.length ≤ env.config.maxElements) (start : S.Before s)
      (filling : Filling env (walk env room) d.element site s t vs read) (final : t.Before E)
      (h : ∀ v ∈ read, Limited env S E v) : Limited env S E (.array vs)
  | deletedNodes {s t : State} {ids : List Value} (size : ids.length ≤ env.config.maxElements)
      (start : S.Before s) (reads : repeatM ids.length (getDeletedNode env) s = .ok ids t)
      (final : t.Before E) (h : ∀ v ∈ ids, Limited env S E v) : Limited env S E (.array ids)

theorem Limited.arraysWithin {env : Env} {S E : State} {v : Value} (h : Limited env S E v) :
    v.ArraysWithin env.config.maxElements := by
  induction h with
  | plain h => exact .of_none h
  | struct _ ih => exact .struct ih
  | union _ ih => exact .union ih
  | array found size start filling final _ ih =>
    refine .array size fun v hv => ?_
    rcases filling.mem_or_zero hv with hv | hzero
    · exact ih v hv
    · exact arraysWithin_zeroFrom hzero
  | deletedNodes size start reads final _ ih => exact .array size ih

end Unmarshal

end Ndr
