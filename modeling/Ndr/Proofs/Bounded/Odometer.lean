import Mathlib.Data.List.Induction
import Ndr.Proofs.Bounded.Word
import Ndr.Proofs.Odometer

/-!
The odometer of a shape in words. Its counters are indexed by dimension and reset from the last one on,
and the place of an element is added up dimension by dimension. Where every range lies in its dimension
and the elements can be counted, no place is larger than that count and no counter passes its range.
-/

namespace Ndr

namespace Shape

open Bounded

/-! ### Steps in words -/

namespace Bounded

variable (trap : Fault)

/-- The place of an element, from that of the dimensions before. -/
def flatFrom : Nat → Shape → List Nat → Except Fault Nat
  | place, d :: ds, i :: is => do
    let base ← fit trap (place * d.extent)
    flatFrom (← fit trap (base + i)) ds is
  | place, _, _ => .ok place

/-- The element after `index`, where the last `k` counters have not been looked at yet. -/
def advance (s : Shape) : Nat → List Nat → Except Fault (Option (List Nat))
  | 0, _ => .ok none
  | k + 1, index => do
    let d ← item trap s k
    let i ← fit trap ((← item trap index k) + 1)
    if i < (← fit trap (d.first + d.length)) then return some (index.set k i)
    else advance s k (index.set k d.first)

/-- Run through the places from an index on. More than `n` of them are a trap. -/
def foldFrom {σ β : Type} (s : Shape) (f : β → Nat → EStateM Fault σ β) :
    Nat → Option (List Nat) → β → EStateM Fault σ β
  | _, none, b => pure b
  | 0, some _, _ => throw trap
  | n + 1, some index, b => do
    let place ← flatFrom trap 0 s index
    let next ← advance trap s s.length index
    foldFrom s f n next (← f b place)

/-- Run through the places of the elements that are sent, none where a dimension has none. -/
def foldIndices {σ β : Type} (s : Shape) (f : β → Nat → EStateM Fault σ β) (b : β) :
    EStateM Fault σ β :=
  foldFrom trap s f s.count (if s.any (·.length == 0) then none else some s.start) b

end Bounded

/-! ### Shapes in words -/

/-- Every range lies in its dimension, and the elements are counted by a word. -/
structure Countable (s : Shape) : Prop where
  within : ∀ d ∈ s, d.first + d.length ≤ d.extent
  small : s.size < 2 ^ 64

theorem checkedProduct_lt {ns : List Nat} {acc total : Nat} (hacc : acc < 2 ^ 64)
    (e : checkedProduct ns acc = .ok total) : total < 2 ^ 64 := by
  induction ns generalizing acc with
  | nil => exact Except.ok.inj e ▸ hacc
  | cons n ns ih =>
    unfold checkedProduct at e
    split at e
    · rename_i hlt
      exact ih hlt e
    · exact absurd e (by simp)

theorem Countable.of_total {s : Shape} {total : Nat} (h : ∀ d ∈ s, d.first + d.length ≤ d.extent)
    (e : s.total = .ok total) : s.Countable :=
  ⟨h, size_of_total e ▸ checkedProduct_lt (by decide) e⟩

/-- The end of a run of elements is a word. -/
theorem Countable.contiguous {s : Shape} (h : s.Countable) {start count : Nat}
    (e : s.contiguous? = some (start, count)) : start + count < 2 ^ 64 := by
  unfold contiguous? at e
  split at e
  · split at e
    · rename_i total htotal
      obtain ⟨rfl, rfl⟩ := Prod.mk.inj (Option.some.inj e)
      rw [Nat.zero_add, ← size_of_total htotal]
      exact h.small
    · exact absurd e (by simp)
  · split at e
    · rename_i d _
      obtain ⟨rfl, rfl⟩ := Prod.mk.inj (Option.some.inj e)
      have hsize : Shape.size [d] = d.extent := by simp [size]
      exact Nat.lt_of_le_of_lt (h.within d (List.mem_singleton_self d)) (hsize ▸ h.small)
    · exact absurd e (by simp)

/-- An index among the elements that are sent. -/
def Sent (s : Shape) (index : List Nat) : Prop :=
  List.Forall₂ (fun d i => d.first ≤ i ∧ i < d.first + d.length) s index

/-- How many elements are sent from an index on. -/
def ahead : Shape → List Nat → Nat
  | d :: ds, i :: is => (d.first + d.length - i - 1) * Shape.count ds + ahead ds is
  | _, _ => 1

theorem count_cons (d : Span) (s : Shape) : Shape.count (d :: s) = d.length * s.count := by
  rw [count, count, ← List.prod_eq_foldl, ← List.prod_eq_foldl, List.map_cons, List.prod_cons]

variable {s : Shape} {index : List Nat}

theorem count_eq_zero {d : Span} (hd : d ∈ s) (hzero : d.length = 0) : s.count = 0 := by
  induction s with
  | nil => exact absurd hd List.not_mem_nil
  | cons e s ih =>
    rw [count_cons]
    rcases List.mem_cons.1 hd with rfl | hd
    · rw [hzero, Nat.zero_mul]
    · rw [ih hd, Nat.mul_zero]

theorem sent_start (h : ∀ d ∈ s, d.length ≠ 0) : s.Sent s.start := by
  induction s with
  | nil => exact .nil
  | cons d s ih =>
    have hpos := Nat.pos_of_ne_zero (h d List.mem_cons_self)
    exact .cons ⟨Nat.le_refl _, Nat.lt_add_of_pos_right hpos⟩ (ih fun e he => h e (List.mem_cons_of_mem _ he))

theorem ahead_start (h : ∀ d ∈ s, d.length ≠ 0) : s.ahead s.start = s.count := by
  induction s with
  | nil => rfl
  | cons d s ih =>
    have hpos := Nat.pos_of_ne_zero (h d List.mem_cons_self)
    have hrest := ih fun e he => h e (List.mem_cons_of_mem _ he)
    have hstart : Shape.start (d :: s) = d.first :: Shape.start s := rfl
    rw [hstart, ahead, hrest, count_cons, Nat.add_sub_cancel_left, ← Nat.succ_mul, Nat.succ_eq_add_one,
      Nat.sub_add_cancel hpos]

theorem Sent.nonzero (h : s.Sent index) : ∀ d ∈ s, d.length ≠ 0 := by
  induction h with
  | nil => exact fun d hd => absurd hd List.not_mem_nil
  | cons hi _ ih =>
    intro e he
    rcases List.mem_cons.1 he with rfl | he
    · omega
    · exact ih e he

/-- After an element comes one that is sent too, and one less is ahead; the last one is alone. -/
theorem next?_sent (h : s.Sent index) :
    (∃ index', s.next? index = some index' ∧ s.Sent index' ∧ s.ahead index = s.ahead index' + 1) ∨
      s.next? index = none ∧ s.ahead index = 1 := by
  induction h with
  | nil => exact .inr ⟨rfl, rfl⟩
  | @cons d i s index hi hs ih =>
    rcases ih with ⟨index', hnext, hsent, hahead⟩ | ⟨hnext, hahead⟩
    · refine .inl ⟨i :: index', by simp only [next?, hnext], .cons hi hsent, ?_⟩
      rw [ahead, ahead, hahead, Nat.add_assoc]
    · by_cases hlast : i + 1 < d.first + d.length
      · refine .inl ⟨(i + 1) :: start s, by simp only [next?, hnext, if_pos hlast], ?_, ?_⟩
        · exact .cons ⟨by omega, hlast⟩ (sent_start (Sent.nonzero hs))
        · rw [ahead, ahead, hahead, ahead_start (Sent.nonzero hs), ← Nat.succ_mul]
          congr 2
          omega
      · refine .inr ⟨by simp only [next?, hnext, if_neg hlast], ?_⟩
        rw [ahead, hahead, show d.first + d.length - i - 1 = 0 by omega, Nat.zero_mul]

theorem Sent.valid (h : s.Sent index) (hw : ∀ d ∈ s, d.first + d.length ≤ d.extent) : s.Valid index := by
  induction h with
  | nil => exact .nil
  | cons hi _ ih =>
    exact .cons (Nat.lt_of_lt_of_le hi.2 (hw _ List.mem_cons_self))
      (ih fun e he => hw e (List.mem_cons_of_mem _ he))

theorem Valid.size_pos (h : s.Valid index) : 0 < s.size := by
  induction h with
  | nil => exact Nat.one_pos
  | cons hi _ ih =>
    rw [size_cons]
    exact Nat.mul_pos (Nat.zero_lt_of_lt hi) ih

theorem Valid.flat_lt (h : s.Valid index) : s.flat index < s.size := by
  induction h with
  | nil => exact Nat.one_pos
  | @cons d i s index hi h ih =>
    rw [flat_cons h, size_cons]
    exact Nat.lt_of_lt_of_le (Nat.add_lt_add_left ih _) (Nat.succ_mul i _ ▸ Nat.mul_le_mul_right _ hi)

theorem Valid.extent_le_size (h : s.Valid index) : ∀ d ∈ s, d.extent ≤ s.size := by
  induction h with
  | nil => exact fun d hd => absurd hd List.not_mem_nil
  | @cons d i s index hi h ih =>
    intro e he
    rw [size_cons]
    rcases List.mem_cons.1 he with rfl | he
    · exact Nat.le_mul_of_pos_right _ (Valid.size_pos h)
    · exact Nat.le_trans (ih e he) (Nat.le_mul_of_pos_left _ (Nat.zero_lt_of_lt hi))

/-- The last counter moves first. -/
theorem next?_concat (h : s.length = index.length) (d : Span) (i : Nat) :
    Shape.next? (s ++ [d]) (index ++ [i]) = if i + 1 < d.first + d.length then some (index ++ [i + 1])
      else (s.next? index).map (· ++ [d.first]) := by
  induction s generalizing index with
  | nil =>
    obtain rfl := List.length_eq_zero_iff.1 h.symm
    rfl
  | cons e s ih =>
    cases index with
    | nil => simp at h
    | cons j index =>
      have hnext := ih (Nat.succ.inj h)
      have hstart : Shape.start (s ++ [d]) = Shape.start s ++ [d.first] := by simp [start]
      simp only [List.cons_append, next?, hnext, hstart]
      by_cases hmoves : i + 1 < d.first + d.length
      · simp only [if_pos hmoves]
      · simp only [if_neg hmoves]
        cases Shape.next? s index with
        | some index' => rfl
        | none =>
          simp only [Option.map_none]
          split <;> rfl

/-! ### Without a trap -/

namespace Bounded

variable (trap : Fault)

/-- A place is below the number of elements, and so are those on the way to it. -/
theorem flatFrom_eq (h : s.Valid index) {place : Nat} (hsmall : (place + 1) * s.size < 2 ^ 64) :
    flatFrom trap place s index = .ok ((s.zip index).foldl (fun acc p => acc * p.1.extent + p.2) place) := by
  induction h generalizing place with
  | nil => rfl
  | @cons d i s index hi h ih =>
    rw [size_cons, ← Nat.mul_assoc] at hsmall
    have hstep : place * d.extent + i + 1 ≤ (place + 1) * d.extent := by
      rw [Nat.succ_mul]
      omega
    have hrest : (place * d.extent + i + 1) * Shape.size s < 2 ^ 64 :=
      Nat.lt_of_le_of_lt (Nat.mul_le_mul_right _ hstep) hsmall
    have hword : place * d.extent + i < 2 ^ 64 :=
      Nat.lt_of_lt_of_le (Nat.lt_succ_self _) (Nat.le_trans (Nat.le_mul_of_pos_right _ (Valid.size_pos h))
        (Nat.le_of_lt hrest))
    rw [flatFrom, fit_eq trap (Nat.lt_of_le_of_lt (Nat.le_add_right _ _) hword)]
    show (do flatFrom trap (← fit trap (place * d.extent + i)) s index) = _
    rw [fit_eq trap hword]
    exact ih hrest

-- the place of an element that no word counts is a trap
example (trap : Fault) : flatFrom trap 0 [⟨2 ^ 40, 0, 1⟩, ⟨2 ^ 40, 0, 1⟩] [2 ^ 39, 0] = .error trap := rfl

/-- The counters behind the one that moves are set back. -/
theorem advance_append (hlen : s.length = index.length) (hi : ∀ p ∈ s.zip index, p.2 + 1 < 2 ^ 64)
    (hd : ∀ d ∈ s, d.first + d.length < 2 ^ 64) (after : Shape) :
    advance trap (s ++ after) s.length (index ++ Shape.start after)
      = .ok ((Shape.next? s index).map (· ++ Shape.start after)) := by
  induction s using List.reverseRecOn generalizing index after with
  | nil =>
    obtain rfl := List.length_eq_zero_iff.1 hlen.symm
    rfl
  | append_singleton s d ih =>
    rcases List.eq_nil_or_concat index with rfl | ⟨index, i, rfl⟩
    · simp at hlen
    rw [List.concat_eq_append] at hlen hi ⊢
    rw [List.length_append, List.length_append] at hlen
    have hlen : s.length = index.length := Nat.add_right_cancel hlen
    rw [List.zip_append hlen] at hi
    have hdim : (s ++ [d] ++ after)[s.length]? = some d := by simp
    have hcounter : (index ++ [i] ++ Shape.start after)[s.length]? = some i := by simp [hlen]
    have hword : i + 1 < 2 ^ 64 := hi (d, i) (by simp)
    have hstop : d.first + d.length < 2 ^ 64 := hd d (by simp)
    have hset : ∀ j, (index ++ [i] ++ Shape.start after).set s.length j = index ++ [j] ++ Shape.start after :=
      fun j => by simp [hlen]
    rw [List.length_append, List.length_singleton, advance, item_eq trap hdim, item_eq trap hcounter]
    show (do
      let i ← fit trap (i + 1)
      if i < (← fit trap (d.first + d.length)) then return some (_ : List Nat)
      else advance trap _ s.length _) = _
    rw [fit_eq trap hword, fit_eq trap hstop, next?_concat hlen]
    show (if i + 1 < d.first + d.length then _ else advance trap _ s.length _) = _
    by_cases hmoves : i + 1 < d.first + d.length
    · rw [if_pos hmoves, if_pos hmoves, hset]
      rfl
    · have hback := ih hlen (fun p hp => hi p (List.mem_append_left _ hp))
        (fun e he => hd e (List.mem_append_left _ he)) (d :: after)
      have hstart : Shape.start (d :: after) = [d.first] ++ Shape.start after := rfl
      rw [if_neg hmoves, if_neg hmoves, hset, List.append_assoc, List.append_assoc, ← hstart]
      show advance trap (s ++ (d :: after)) s.length (index ++ Shape.start (d :: after)) = _
      rw [hback, hstart, Option.map_map]
      simp [Function.comp_def]

variable {σ β : Type}

theorem advance_eq (h : s.Countable) (hs : s.Sent index) :
    advance trap s s.length index = .ok (s.next? index) := by
  have hle := (hs.valid h.within).extent_le_size
  have hstop : ∀ d ∈ s, d.first + d.length < 2 ^ 64 := fun d hd =>
    Nat.lt_of_le_of_lt (Nat.le_trans (h.within d hd) (hle d hd)) h.small
  have hcounter : ∀ p ∈ s.zip index, p.2 + 1 < 2 ^ 64 := by
    rintro ⟨d, i⟩ hp
    exact Nat.lt_of_le_of_lt (List.forall₂_zip hs hp).2 (hstop d (List.of_mem_zip hp).1)
  have := advance_append trap hs.length_eq hcounter hstop []
  simpa [start] using this

variable {f g : β → Nat → EStateM Fault σ β}

theorem foldFrom_eq (h : s.Countable) (hf : ∀ b, ∀ place < s.size, f b place = g b place) {n : Nat}
    (hs : s.Sent index) (hn : s.ahead index = n) (b : β) :
    foldFrom trap s f n (some index) b = s.foldFrom g n index b := by
  induction n generalizing index b with
  | zero => rcases next?_sent hs with ⟨_, -, -, hahead⟩ | ⟨-, hahead⟩ <;> omega
  | succ n ih =>
    have hplace : flatFrom trap 0 s index = .ok (s.flat index) :=
      flatFrom_eq trap (hs.valid h.within) (by rw [Nat.zero_add, Nat.one_mul]; exact h.small)
    rw [foldFrom, Shape.foldFrom, hplace, advance_eq trap h hs, lift_ok_bind, lift_ok_bind,
      hf b _ (hs.valid h.within).flat_lt]
    rcases next?_sent hs with ⟨index', hnext, hsent, hahead⟩ | ⟨hnext, -⟩
    · simp only [hnext]
      exact bind_congr fun b => ih hsent (by omega) b
    · simp only [hnext]
      exact bind_congr fun b => by cases n <;> rfl

/-- The odometer of a shape whose elements are counted runs without a trap, and only through places of
the array. -/
theorem foldIndices_eq (h : s.Countable) (hf : ∀ b, ∀ place < s.size, f b place = g b place) (b : β) :
    foldIndices trap s f b = s.foldIndices g b := by
  unfold foldIndices Shape.foldIndices
  by_cases hany : s.any (·.length == 0)
  · obtain ⟨d, hd, hzero⟩ := List.any_eq_true.1 hany
    rw [if_pos hany, count_eq_zero hd (beq_iff_eq.1 hzero)]
    rfl
  · have hnonzero : ∀ d ∈ s, d.length ≠ 0 := fun d hd hzero =>
      hany (List.any_eq_true.2 ⟨d, hd, beq_iff_eq.2 hzero⟩)
    rw [if_neg hany]
    exact foldFrom_eq trap h hf (sent_start hnonzero) (ahead_start hnonzero) b

end Bounded

end Shape

end Ndr
