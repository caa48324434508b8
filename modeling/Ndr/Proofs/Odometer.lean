import Mathlib.Algebra.BigOperators.Group.List.Basic
import Mathlib.Data.List.Forall2
import Ndr.Shape

/-!
The odometer of a shape: the places it runs through of a full shape and of a single dimension, and
how many elements there are and are sent.
-/

namespace Ndr

namespace Shape

/-! ### One dimension -/

theorem indicesFrom_single (d : Span) (n i : Nat) (h : i + n = d.first + d.length) :
    Shape.indicesFrom [d] n [i] = List.range' i n := by
  induction n generalizing i with
  | zero => rfl
  | succ n ih =>
    have hnext : Shape.next? [d] [i] = if i + 1 < d.first + d.length then some [i + 1] else none := rfl
    have hflat : Shape.flat [d] [i] = i := by simp [flat]
    rw [indicesFrom, hflat, hnext, List.range'_succ]
    by_cases hlast : i + 1 < d.first + d.length
    · rw [if_pos hlast]
      exact congrArg _ (ih (i + 1) (by omega))
    · obtain rfl : n = 0 := by omega
      rw [if_neg hlast]
      rfl

/-- The places that are sent of an array of one dimension. -/
theorem indices_single (d : Span) : Shape.indices [d] = List.range' d.first d.length := by
  have hcount : Shape.count [d] = d.length := by simp [count]
  rw [indices, hcount]
  exact indicesFrom_single d _ _ rfl

/-! ### Full shapes -/

/-- The elements of a shape, however many. -/
def size (s : Shape) : Nat := (s.map (·.extent)).prod

theorem size_cons (d : Span) (s : Shape) : Shape.size (d :: s) = d.extent * s.size := by
  simp [size]

/-- An index that lies within every dimension. -/
def Valid (s : Shape) (index : List Nat) : Prop := List.Forall₂ (fun d i => i < d.extent) s index

theorem flat_cons {d : Span} {s : Shape} {i : Nat} {index : List Nat} (h : s.Valid index) :
    Shape.flat (d :: s) (i :: index) = i * s.size + s.flat index := by
  have hfrom : ∀ acc, (s.zip index).foldl (fun acc p => acc * p.1.extent + p.2) acc =
      acc * s.size + (s.zip index).foldl (fun acc p => acc * p.1.extent + p.2) 0 := by
    induction h with
    | nil => simp [size]
    | @cons d i s index _ _ ih =>
      intro acc
      simp only [List.zip_cons_cons, List.foldl_cons]
      rw [ih, ih (0 * d.extent + i), size_cons]
      simp only [Nat.add_mul, Nat.mul_assoc, Nat.add_assoc, Nat.zero_mul, Nat.zero_add]
  have hcons : Shape.flat (d :: s) (i :: index) =
      (s.zip index).foldl (fun acc p => acc * p.1.extent + p.2) (0 * d.extent + i) := rfl
  rw [hcons, hfrom, Nat.zero_mul, Nat.zero_add]
  rfl

/-- The odometer of a full shape starts at its first element, where it has any. -/
theorem start_full {s : Shape} (hfull : s.isFull) {index : List Nat} (h : s.Valid index) :
    s.Valid s.start ∧ s.flat s.start = 0 := by
  induction h with
  | nil => exact ⟨.nil, rfl⟩
  | @cons d i s index hi _ ih =>
    simp only [isFull, List.all_cons, Bool.and_eq_true, beq_iff_eq] at hfull
    obtain ⟨⟨hfirst, -⟩, hrest⟩ := hfull
    obtain ⟨hvalid, hzero⟩ := ih hrest
    have hstart : Shape.start (d :: s) = 0 :: Shape.start s := by simp [start, hfirst]
    rw [hstart]
    exact ⟨.cons (Nat.zero_lt_of_lt hi) hvalid, by rw [flat_cons hvalid, hzero, Nat.zero_mul]⟩

/-- The odometer of a full shape counts in steps of one, up to the number of elements. -/
theorem next?_full {s : Shape} (hfull : s.isFull) {index : List Nat} (h : s.Valid index) :
    match s.next? index with
    | some index' => s.Valid index' ∧ s.flat index' = s.flat index + 1
    | none => s.flat index + 1 = s.size := by
  induction h with
  | nil => rfl
  | @cons d i s index hi h ih =>
    simp only [isFull, List.all_cons, Bool.and_eq_true, beq_iff_eq] at hfull
    obtain ⟨⟨hfirst, hlength⟩, hrest⟩ := hfull
    have ih := ih hrest
    unfold next?
    cases hn : Shape.next? s index with
    | some index' =>
      simp only [hn] at ih ⊢
      refine ⟨.cons hi ih.1, ?_⟩
      rw [flat_cons ih.1, flat_cons h, ih.2, Nat.add_assoc]
    | none =>
      simp only [hn] at ih ⊢
      rw [hfirst, hlength, Nat.zero_add, flat_cons h, Nat.add_assoc, ih, ← Nat.succ_mul]
      by_cases hlast : i + 1 < d.extent
      · rw [if_pos hlast]
        obtain ⟨hvalid, hzero⟩ := start_full hrest h
        exact ⟨.cons hlast hvalid, by rw [flat_cons hvalid, hzero, Nat.add_zero]⟩
      · rw [if_neg hlast, size_cons, show i.succ = d.extent by omega]

theorem valid_zeros {s : Shape} (h : 0 < s.size) : s.Valid (s.map fun _ => 0) := by
  induction s with
  | nil => exact .nil
  | cons d s ih =>
    rw [size_cons] at h
    exact .cons (Nat.pos_of_mul_pos_right h) (ih (Nat.pos_of_mul_pos_left h))

/-- The places of a full shape are all there are, in order. -/
theorem indices_full {s : Shape} (hfull : s.isFull) : s.indices = List.range s.size := by
  have hfrom : ∀ n index, s.Valid index → s.flat index + n ≤ s.size →
      s.indicesFrom n index = List.range' (s.flat index) n := by
    intro n
    induction n with
    | zero => exact fun _ _ _ => rfl
    | succ n ih =>
      intro index hvalid hle
      have hnext := next?_full hfull hvalid
      rw [indicesFrom, List.range'_succ]
      cases hn : s.next? index with
      | some index' =>
        simp only [hn] at hnext ⊢
        rw [ih index' hnext.1 (by omega), hnext.2]
      | none =>
        simp only [hn] at hnext ⊢
        obtain rfl : n = 0 := by omega
        rfl
  have hcount : s.count = s.size := by
    have hmap : s.map (·.length) = s.map (·.extent) := by
      refine List.map_congr_left fun d hd => ?_
      have hd := List.all_eq_true.1 hfull d hd
      rw [Bool.and_eq_true, beq_iff_eq, beq_iff_eq] at hd
      exact hd.2
    rw [count, hmap, ← List.prod_eq_foldl]
    rfl
  rw [indices, hcount, List.range_eq_range']
  rcases Nat.eq_zero_or_pos s.size with hzero | hpos
  · rw [hzero]
    rfl
  · obtain ⟨hvalid, hstart⟩ := start_full hfull (valid_zeros hpos)
    rw [hfrom _ _ hvalid (by omega), hstart]

/-! ### Counts -/

/-- The counts that are multiplied may be replaced by smaller ones. -/
theorem checkedProduct_of_le {ns ms : List Nat} {acc acc' total : Nat}
    (h : List.Forall₂ (· ≤ ·) ns ms) (hacc : acc ≤ acc') (e : checkedProduct ms acc' = .ok total) :
    ∃ n, checkedProduct ns acc = .ok n ∧ n ≤ total := by
  induction h generalizing acc acc' with
  | nil => exact ⟨acc, rfl, Except.ok.inj e ▸ hacc⟩
  | cons hle _ ih =>
    unfold checkedProduct at e ⊢
    split at e
    · rename_i hlt
      have hmul := Nat.mul_le_mul hacc hle
      rw [if_pos (Nat.lt_of_le_of_lt hmul hlt)]
      exact ih hmul e
    · exact absurd e (by simp)

theorem checkedProduct_eq_foldl {ns : List Nat} {acc total : Nat}
    (e : checkedProduct ns acc = .ok total) : ns.foldl (· * ·) acc = total := by
  induction ns generalizing acc with
  | nil => exact Except.ok.inj e
  | cons n ns ih =>
    unfold checkedProduct at e
    split at e
    · exact ih e
    · exact absurd e (by simp)

theorem size_of_total {s : Shape} {total : Nat} (e : s.total = .ok total) : s.size = total := by
  rw [← checkedProduct_eq_foldl e, size, List.prod_eq_foldl]

/-- Where the elements can be counted, so can those that are sent. -/
theorem transmitted_eq_ok {s : Shape} {total : Nat} (hs : ∀ p ∈ s, p.first + p.length ≤ p.extent)
    (e : s.total = .ok total) : s.transmitted = .ok s.count := by
  have hle : List.Forall₂ (· ≤ ·) (s.map (·.length)) (s.map (·.extent)) := by
    rw [List.forall₂_map_left_iff, List.forall₂_map_right_iff, List.forall₂_same]
    exact fun p hp => Nat.le_trans (Nat.le_add_left _ _) (hs p hp)
  obtain ⟨n, hn, -⟩ := checkedProduct_of_le hle (Nat.le_refl 1) e
  rw [transmitted, hn, count, checkedProduct_eq_foldl hn]

end Shape

end Ndr
