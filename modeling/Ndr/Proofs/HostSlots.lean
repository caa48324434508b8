import Mathlib.Data.List.Perm.Subperm
import Ndr.Proofs.Assembly.Spelling
import Ndr.Proofs.Lockstep.Struct

/-!
Host layouts that leave a slot out. A layout that the assembler accepts has as many slots as the struct
has fields, and all of them within the struct; so it leaves a slot out exactly where two fields share
one. What stands in a slot that is left out is not written, and it is still void in a struct that was
read.
-/

namespace Ndr

variable {l : Layout} {index p : Nat}

/-- A slot is that of no field. -/
def Layout.LeavesOut (l : Layout) (index p : Nat) : Prop := ∀ k, l.slot index k ≠ .ok p

/-! ### Layouts -/

/-- As many numbers below `n` as there are: none is missing exactly if none comes twice. -/
theorem forall_mem_iff_nodup {ps : List Nat} {n : Nat} (hlength : ps.length = n)
    (hlt : ∀ p ∈ ps, p < n) : (∀ p < n, p ∈ ps) ↔ ps.Nodup := by
  constructor
  · intro hall
    have hsub : List.range n ⊆ ps := fun p hp => hall p (List.mem_range.1 hp)
    have hperm := (List.subperm_of_subset List.nodup_range hsub).perm_of_length_le
      (by simp [hlength])
    exact hperm.nodup_iff.1 List.nodup_range
  · intro hnodup p hp
    have hsub : ps ⊆ List.range n := fun q hq => List.mem_range.2 (hlt q hq)
    have hperm := (List.subperm_of_subset hnodup hsub).perm_of_length_le
      (by simp [hlength])
    exact hperm.mem_iff.2 (List.mem_range.2 hp)

namespace Layout.Lays

variable {s : StructSpec} (h : l.Lays index s)

include h

/-- The slots of a layout are those of its fields. -/
theorem slot_iff_mem : (∃ k, l.slot index k = .ok p) ↔ p ∈ s.slots.map UInt32.toNat := by
  constructor
  · rintro ⟨k, hk⟩
    obtain ⟨n, hn, hlt, -⟩ := slot_lt hk
    obtain rfl := Except.ok.inj (h.count.symm.trans hn)
    rw [← h.length] at hlt
    obtain rfl := Except.ok.inj ((h.slots k _ (List.getElem?_eq_getElem hlt)).symm.trans hk)
    exact List.mem_map_of_mem (List.getElem_mem hlt)
  · intro hp
    obtain ⟨slot, hslot, rfl⟩ := List.mem_map.1 hp
    obtain ⟨k, hk⟩ := List.getElem?_of_mem hslot
    exact ⟨k, h.slots k slot hk⟩

/-- **A layout leaves a slot out exactly where two fields share one**; where no two do, each slot is that
of one field. -/
theorem leavesOut_iff :
    (∃ p < s.slotted.length, l.LeavesOut index p) ↔ ¬(s.slots.map UInt32.toNat).Nodup := by
  have hlt : ∀ q ∈ s.slots.map UInt32.toNat, q < s.slotted.length := by
    intro q hq
    obtain ⟨k, hk⟩ := h.slot_iff_mem.2 hq
    obtain ⟨n, hn, -, hqn⟩ := slot_lt hk
    rwa [Except.ok.inj (h.count.symm.trans hn)]
  rw [← forall_mem_iff_nodup (by rw [List.length_map, h.length]) hlt]
  simp only [LeavesOut, ← h.slot_iff_mem, not_forall, not_exists, exists_prop]

theorem covers_iff : l.Covers index s.slotted.length ↔ (s.slots.map UInt32.toNat).Nodup := by
  rw [← not_iff_not, ← h.leavesOut_iff]
  constructor
  · intro hcovers
    by_contra hnone
    refine hcovers fun n hn p hp => ?_
    obtain rfl := Except.ok.inj (h.count.symm.trans hn)
    by_contra hleft
    refine hnone ⟨p, hp, fun k hk => hleft ⟨k, ?_, hk⟩⟩
    obtain ⟨n, hn, hlt, -⟩ := slot_lt hk
    rwa [Except.ok.inj (h.count.symm.trans hn)]
  · rintro ⟨p, hp, hleft⟩ hcovers
    obtain ⟨k, -, hk⟩ := hcovers _ h.count p hp
    exact hleft k hk

end Layout.Lays

/-! ### Writing -/

namespace Marshal

variable {env : Env} {layout : Nat} {walk last : Walk} {site : Site Scope}

section

variable (hp : env.interface.layout.LeavesOut layout p) (slots : List Value) (w : Value)

include hp

theorem slotValue_set : slotValue env layout (slots.set p w) = slotValue env layout slots := by
  funext field
  unfold slotValue
  refine Except.bind_congr_of fun slot hslot => ?_
  have hne : p ≠ slot := fun h => hp field (h ▸ hslot)
  rw [List.getElem?_set_ne hne, List.length_set]

theorem scopeOf_set (fields : List Descriptor) :
    scopeOf env layout fields (slots.set p w) = scopeOf env layout fields slots := by
  unfold scopeOf
  rw [slotValue_set hp, List.length_set]

theorem putFields_set (index : Nat) (ds : List Descriptor) :
    putFields env walk last layout (slots.set p w) site index ds
      = putFields env walk last layout slots site index ds := by
  induction ds generalizing index with
  | nil => rfl
  | cons d ds ih =>
    unfold putFields
    simp only [slotValue_set hp, ih]

end

theorem hoistedShape_set {d : StructDefinition} (hp : env.interface.layout.LeavesOut d.layout p)
    (slots : List Value) (w : Value) (scope : Scope) :
    hoistedShape env d (slots.set p w) scope = hoistedShape env d slots scope := by
  have hshape : ∀ trailing levels, trailingShape env d.offset trailing levels d (slots.set p w) scope
      = trailingShape env d.offset trailing levels d slots scope := by
    intro trailing levels
    cases levels with
    | zero => rfl
    | succ levels =>
      unfold trailingShape
      rw [slotValue_set hp]
  unfold hoistedShape
  cases d.trailing with
  | none => rfl
  | some trailing => exact hshape trailing _

/-- **A slot that the layout leaves out is not written**: a struct is written in the same way whatever
stands there. -/
theorem putStruct_set {definition : Nat} {d : StructDefinition}
    (hd : env.vector.structDefinition definition = .ok d)
    (hp : env.interface.layout.LeavesOut d.layout p) (kind : StructKind) (slots : List Value)
    (w : Value) : putStruct env walk kind definition (.struct (slots.set p w)) site
      = putStruct env walk kind definition (.struct slots) site := by
  have hparts : ∀ slots, structParts env definition (.struct slots) = (do
      return (d, slots, ← scopeOf env d.layout d.fields slots)) := by
    intro slots
    unfold structParts
    rw [hd]
    rfl
  unfold putStruct
  rw [hparts, hparts, scopeOf_set hp]
  cases scopeOf env d.layout d.fields slots with
  | error e => rfl
  | ok scope =>
    show (if kind = .fixed then _ else _) = if kind = .fixed then _ else _
    dsimp only
    rw [hoistedShape_set hp]
    simp only [putFields_set hp]

end Marshal

/-! ### Reading -/

namespace Unmarshal

variable {env : Env} {layout : Nat} {walk last : Walk} {site : Site ScopeId} {s t : State}

/-- The fields of a struct change no slot that the layout leaves out. -/
theorem getFields_leavesOut (hp : env.interface.layout.LeavesOut layout p) {index : Nat}
    {ds : List Descriptor} {slots out : Array Value}
    (e : getFields env walk last layout site index ds slots s = .ok out t) :
    out.size = slots.size ∧ out[p]? = slots[p]? := by
  induction ds generalizing index slots s with
  | nil =>
    obtain ⟨rfl, -⟩ := pure_eq_ok.1 e
    exact ⟨rfl, rfl⟩
  | cons d ds ih =>
    obtain ⟨_, v, u, -, -, ⟨slot, hslot, e⟩ | e⟩ := getFields_cons_eq_ok e
    · obtain ⟨hsize, hout⟩ := ih e
      have hne : slot ≠ p := by
        rintro rfl
        exact hp index hslot
      rw [hsize, hout, Array.size_setIfInBounds, Array.getElem?_setIfInBounds_ne hne]
      exact ⟨rfl, rfl⟩
    · exact ih e

/-- **A slot that the layout leaves out is void** in every struct that is read. -/
theorem getBody_leavesOut (hp : env.interface.layout.LeavesOut layout p) {align count : Nat}
    {fields : List Descriptor} {v : Value} (hlt : p < count)
    (e : getBody env walk last align layout count fields site s = .ok v t) :
    ∃ slots, v = .struct slots ∧ slots.length = count ∧ slots[p]? = some .void := by
  unfold getBody at e
  obtain ⟨_, s1, -, e⟩ := bind_eq_ok.1 e
  obtain ⟨slots, s2, e2, e⟩ := bind_eq_ok.1 e
  obtain ⟨_, s3, -, e⟩ := bind_eq_ok.1 e
  obtain ⟨rfl, -⟩ := pure_eq_ok.1 e
  obtain ⟨hsize, hslot⟩ := getFields_leavesOut hp e2
  refine ⟨slots.toList, rfl, by simpa using hsize, ?_⟩
  rw [Array.getElem?_toList, hslot, Array.getElem?_replicate, if_pos hlt]

/-- **A struct two of whose fields share a slot is never read in full**: another slot is void. -/
theorem getBody_shared {spec : StructSpec} (h : env.interface.layout.Lays layout spec)
    (hshared : ¬(spec.slots.map UInt32.toNat).Nodup) {align : Nat} {fields : List Descriptor}
    {v : Value}
    (e : getBody env walk last align layout spec.slotted.length fields site s = .ok v t) :
    ∃ slots, v = .struct slots ∧ ∃ p < spec.slotted.length,
      env.interface.layout.LeavesOut layout p ∧ slots[p]? = some .void := by
  obtain ⟨p, hlt, hleft⟩ := h.leavesOut_iff.2 hshared
  obtain ⟨slots, hv, -, hvoid⟩ := getBody_leavesOut hleft hlt e
  exact ⟨slots, hv, p, hlt, hleft, hvoid⟩

end Unmarshal

end Ndr
