import Mathlib.Data.List.Forall2
import Ndr.Proofs.Bounded.Odometer

/-!
The box of a shape: the indices of the elements that are sent, in the order of the wire. The
odometer runs through the places of the box and through nothing else, and a part that is seen to be
contiguous is a box whose places follow each other.
-/

namespace Ndr

namespace Shape

variable {s : Shape} {index : List Nat}

/-! ### Places in row-major order -/

/-- The place of an element: an index of a dimension counts the elements of all the dimensions
behind it. -/
def rowMajor : Shape → List Nat → Nat
  | _ :: ds, i :: is => i * size ds + rowMajor ds is
  | _, _ => 0

theorem Valid.flat_eq (h : s.Valid index) : s.flat index = s.rowMajor index := by
  induction h with
  | nil => rfl
  | cons hi h ih => rw [flat_cons h, rowMajor, ih]

theorem Valid.rowMajor_lt (h : s.Valid index) : s.rowMajor index < s.size :=
  h.flat_eq ▸ h.flat_lt

/-! ### The box -/

/-- The indices of the elements that are sent, those of the last dimension fastest. -/
def box : Shape → List (List Nat)
  | [] => [[]]
  | d :: ds => (List.range' d.first d.length).flatMap fun i => (box ds).map (i :: ·)

theorem mem_box : index ∈ s.box ↔ s.Sent index := by
  induction s generalizing index with
  | nil => simp [box, Sent]
  | cons d s ih =>
    simp only [box, List.mem_flatMap, List.mem_range'_1, List.mem_map, ih]
    constructor
    · rintro ⟨i, hi, is, his, rfl⟩
      exact .cons hi his
    · rintro (_ | ⟨hi, his⟩)
      exact ⟨_, hi, _, his, rfl⟩

theorem length_box (s : Shape) : s.box.length = s.count := by
  induction s with
  | nil => rfl
  | cons d s ih => simp [box, List.length_flatMap, count_cons, ih]

theorem map_flat_box (hw : ∀ d ∈ s, d.first + d.length ≤ d.extent) :
    s.box.map s.flat = s.box.map s.rowMajor :=
  List.map_congr_left fun _ h => ((mem_box.1 h).valid hw).flat_eq

/-- The places of a box go up: the places behind one index of a dimension stay below those behind
the next. -/
theorem pairwise_box (hw : ∀ d ∈ s, d.first + d.length ≤ d.extent) :
    (s.box.map s.rowMajor).Pairwise (· < ·) := by
  induction s with
  | nil => exact List.pairwise_singleton _ _
  | cons d s ih =>
    have hws : ∀ e ∈ s, e.first + e.length ≤ e.extent := fun e he => hw e (List.mem_cons_of_mem _ he)
    have ih := List.pairwise_map.1 (ih hws)
    rw [List.pairwise_map, box, List.pairwise_flatMap]
    refine ⟨fun i _ => ?_, ?_⟩
    · rw [List.pairwise_map]
      exact ih.imp fun h => Nat.add_lt_add_left h _
    · refine (List.pairwise_lt_range' (s := d.first) (n := d.length)).imp fun {i j} hij => ?_
      intro x hx y hy
      obtain ⟨is, his, rfl⟩ := List.mem_map.1 hx
      obtain ⟨js, -, rfl⟩ := List.mem_map.1 hy
      have hlt := ((mem_box.1 his).valid hws).rowMajor_lt
      calc rowMajor (d :: s) (i :: is)
          < i * size s + size s := Nat.add_lt_add_left hlt _
        _ = (i + 1) * size s := (Nat.succ_mul i _).symm
        _ ≤ j * size s := Nat.mul_le_mul_right _ hij
        _ ≤ rowMajor (d :: s) (j :: js) := Nat.le_add_right _ _

/-! ### What the odometer has ahead -/

/-- The indices that are sent from one on. -/
def onward : Shape → List Nat → List (List Nat)
  | d :: ds, i :: is =>
    (onward ds is).map (i :: ·) ++
      (List.range' (i + 1) (d.first + d.length - (i + 1))).flatMap fun j => (box ds).map (j :: ·)
  | _, _ => [[]]

theorem onward_start (h : ∀ d ∈ s, d.length ≠ 0) : s.onward s.start = s.box := by
  induction s with
  | nil => rfl
  | cons d s ih =>
    have hpos := h d List.mem_cons_self
    have hlength : d.length = d.first + d.length - (d.first + 1) + 1 := by omega
    have hstart : Shape.start (d :: s) = d.first :: Shape.start s := rfl
    rw [hstart, onward, ih fun e he => h e (List.mem_cons_of_mem _ he), box]
    conv_rhs => rw [hlength, List.range'_succ, List.flatMap_cons]

/-- One step of the odometer leaves the indices behind the one that it stood at. -/
theorem onward_eq (h : s.Sent index) :
    s.onward index = index :: ((s.next? index).map s.onward).getD [] := by
  induction h with
  | nil => rfl
  | @cons d i s index hi hs ih =>
    rw [onward, ih]
    cases hnext : Shape.next? s index with
    | some index' => simp only [next?, hnext, onward, Option.map_some, Option.getD_some, List.map_cons,
        List.cons_append]
    | none =>
      simp only [next?, hnext, Option.map_none, Option.getD_none, List.map_cons, List.map_nil,
        List.cons_append, List.nil_append]
      by_cases hlast : i + 1 < d.first + d.length
      · -- the dimensions behind start again
        have hleft : d.first + d.length - (i + 1) = d.first + d.length - (i + 1 + 1) + 1 := by omega
        rw [if_pos hlast, Option.map_some, Option.getD_some, onward, onward_start (Sent.nonzero hs), hleft,
          List.range'_succ, List.flatMap_cons]
      · rw [if_neg hlast, show d.first + d.length - (i + 1) = 0 by omega]
        rfl

theorem indicesFrom_eq (n : Nat) (h : s.Sent index) :
    s.indicesFrom n index = ((s.onward index).map s.flat).take n := by
  induction n generalizing index with
  | zero => rfl
  | succ n ih =>
    rw [indicesFrom, onward_eq h, List.map_cons, List.take_succ_cons]
    rcases next?_sent h with ⟨index', hnext, hsent, -⟩ | ⟨hnext, -⟩
    · simp only [hnext, Option.map_some, Option.getD_some]
      rw [ih hsent]
    · simp only [hnext, Option.map_none, Option.getD_none, List.map_nil, List.take_nil]

/-- The odometer stops by itself behind the last element that is sent. -/
theorem indicesFrom_start (h : ∀ d ∈ s, d.length ≠ 0) {n : Nat} (hn : s.count ≤ n) :
    s.indicesFrom n s.start = s.box.map s.flat := by
  rw [indicesFrom_eq n (sent_start h), onward_start h, List.take_of_length_le]
  rwa [List.length_map, length_box]

theorem indices_eq_box (s : Shape) : s.indices = s.box.map s.flat := by
  by_cases h : ∀ d ∈ s, d.length ≠ 0
  · exact indicesFrom_start h (Nat.le_refl _)
  · push Not at h
    obtain ⟨d, hd, hzero⟩ := h
    have hcount := count_eq_zero hd hzero
    have hbox : s.box = [] := List.length_eq_zero_iff.1 (s.length_box.trans hcount)
    rw [indices, hcount, hbox]
    rfl

/-! ### Contiguous parts -/

theorem indices_contiguous {start count : Nat} (h : s.contiguous? = some (start, count)) :
    s.indices = List.range' start count := by
  unfold contiguous? at h
  split at h
  · rename_i hfull
    split at h
    · rename_i total htotal
      obtain ⟨rfl, rfl⟩ := Prod.mk.inj (Option.some.inj h)
      rw [indices_full hfull, size_of_total htotal, List.range_eq_range']
    · exact absurd h (by simp)
  · split at h
    · rename_i d _
      obtain ⟨rfl, rfl⟩ := Prod.mk.inj (Option.some.inj h)
      exact indices_single d
    · exact absurd h (by simp)

/-! ### The odometer -/

/-- **The odometer runs through the box of a shape.** Where every range lies in its dimension and the
elements can be counted, it gives as many places as the product of the lengths, all below the number
of elements and each above the one before: those of the indices that are sent, in row-major order. It
stops there by itself, and where the part that is sent is seen to be contiguous, the places are those
of the run. -/
theorem odometer_box {total : Nat} (hw : ∀ d ∈ s, d.first + d.length ≤ d.extent)
    (ht : s.total = .ok total) :
    s.indices.length = (s.map (·.length)).prod ∧ s.indices.Pairwise (· < ·) ∧
      (∀ place ∈ s.indices, place < total) ∧
      s.indices = s.box.map s.rowMajor ∧
      (∀ index, index ∈ s.box ↔
        List.Forall₂ (fun d i => d.first ≤ i ∧ i < d.first + d.length) s index) ∧
      (s.count ≠ 0 → ∀ n, s.count ≤ n → s.indicesFrom n s.start = s.indices) ∧
      ∀ start count, s.contiguous? = some (start, count) → s.indices = List.range' start count := by
  have hbox : s.indices = s.box.map s.rowMajor := s.indices_eq_box.trans (map_flat_box hw)
  refine ⟨?_, hbox ▸ pairwise_box hw, fun place hplace => ?_, hbox, fun index => mem_box,
    fun hcount n hn => ?_, fun start count h => indices_contiguous h⟩
  · rw [hbox, List.length_map, length_box, count, List.prod_eq_foldl]
  · rw [hbox] at hplace
    obtain ⟨index, hindex, rfl⟩ := List.mem_map.1 hplace
    exact size_of_total ht ▸ ((mem_box.1 hindex).valid hw).rowMajor_lt
  · rw [indicesFrom_start (fun d hd hzero => hcount (count_eq_zero hd hzero)) hn, indices_eq_box]

/-- Two rows of two elements in the middle of an array of three by four. -/
theorem odometer_box_rows :
    let s : Shape := [⟨3, 1, 2⟩, ⟨4, 1, 2⟩]
    (∀ d ∈ s, d.first + d.length ≤ d.extent) ∧ s.total = .ok 12 ∧ s.indices = [5, 6, 9, 10] ∧
      s.indices.length = 4 ∧ s.indices.Pairwise (· < ·) ∧ (∀ place ∈ s.indices, place < 12) ∧
      s.indices = s.box.map s.rowMajor := by
  have hw : ∀ d ∈ ([⟨3, 1, 2⟩, ⟨4, 1, 2⟩] : Shape), d.first + d.length ≤ d.extent := by decide
  have ht : Shape.total [⟨3, 1, 2⟩, ⟨4, 1, 2⟩] = .ok 12 := by decide
  obtain ⟨hlength, hpairwise, hlt, hbox, -⟩ := odometer_box hw ht
  exact ⟨hw, ht, by decide, hlength, hpairwise, hlt, hbox⟩

end Shape

end Ndr
