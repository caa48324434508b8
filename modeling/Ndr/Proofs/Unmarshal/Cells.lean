import Ndr.Proofs.Unmarshal.Steps

/-!
The cells that reading makes: each is filled with a value that belongs there, or put off to be
filled later.
-/

namespace Ndr.Unmarshal

/-- A cell that holds a value which belongs there. -/
def Filled (S : CellId → Value → Prop) (heap : Heap) (c : CellId) : Prop :=
  ∃ v, heap.load? c = some v ∧ S c v

/-- What happens from `s` to `t` where the cells of `W` are filled: filled cells stay filled, and
every new cell is filled, or put off. -/
structure Step (S : CellId → Value → Prop) (W : CellId → Prop) (s t : State) : Prop where
  grows : s.heap.cells.size ≤ t.heap.cells.size
  kept : ∀ c, Filled S s.heap c → Filled S t.heap c
  filled : ∀ c, W c → Filled S t.heap c
  deferred : ∃ new, t.deferred = new ++ s.deferred ∧
    ∀ c, s.heap.cells.size ≤ c → c < t.heap.cells.size →
      Filled S t.heap c ∨ ∃ d ∈ new, d.cell = c

/-- No cell is filled but new ones. -/
abbrev None : CellId → Prop := fun _ => False

section

variable {S : CellId → Value → Prop} {W W' : CellId → Prop} {s t u : State} {c : CellId}

theorem Filled.of_load {heap heap' : Heap} (h : Filled S heap c)
    (e : heap'.load? c = heap.load? c) : Filled S heap' c := by
  obtain ⟨v, hv, hs⟩ := h
  exact ⟨v, e.trans hv, hs⟩

theorem Filled.lt_size {heap : Heap} (h : Filled S heap c) : c < heap.cells.size := by
  obtain ⟨v, hv, -⟩ := h
  exact Heap.lt_of_load? hv

/-- A new cell leaves the filled ones as they are. -/
theorem Filled.append {heap : Heap} (h : Filled S heap c) (v : Value) :
    Filled S (heap.append v) c :=
  h.of_load (by rw [Heap.load?_append, Heap.allocations, if_neg (Nat.ne_of_lt h.lt_size)])

namespace Step

theorem trans (h : Step S W s t) (h' : Step S W' t u) : Step S (fun c => W c ∨ W' c) s u where
  grows := Nat.le_trans h.grows h'.grows
  kept c hc := h'.kept c (h.kept c hc)
  filled c hw := hw.elim (fun hw => h'.kept c (h.filled c hw)) (h'.filled c)
  deferred := by
    obtain ⟨new, hn, hc⟩ := h.deferred
    obtain ⟨new', hn', hc'⟩ := h'.deferred
    refine ⟨new' ++ new, by rw [hn', hn, List.append_assoc], fun c h1 h2 => ?_⟩
    by_cases hlt : c < t.heap.cells.size
    · rcases hc c h1 hlt with hs | ⟨d, hd, he⟩
      · exact .inl (h'.kept c hs)
      · exact .inr ⟨d, List.mem_append_right _ hd, he⟩
    · rcases hc' c (Nat.not_lt.1 hlt) h2 with hs | ⟨d, hd, he⟩
      · exact .inl hs
      · exact .inr ⟨d, List.mem_append_left _ hd, he⟩

theorem congr (h : Step S W s t) (hW : ∀ c, W' c → W c) : Step S W' s t where
  grows := h.grows
  kept := h.kept
  filled c hw := h.filled c (hW c hw)
  deferred := h.deferred

theorem trans_none (h : Step S None s t) (h' : Step S None t u) : Step S None s u :=
  (h.trans h').congr fun _ => False.elim

/-- A change of neither the heap nor what is put off. -/
theorem of_eq (hh : t.heap = s.heap) (hd : t.deferred = s.deferred) : Step S None s t where
  grows := Nat.le_of_eq (by rw [hh])
  kept c hc := hc.of_load (by rw [hh])
  filled _ := False.elim
  deferred := ⟨[], hd, fun c h1 h2 => by
    rw [hh] at h2
    exact absurd h1 (Nat.not_le.2 h2)⟩

/-- A cell that is filled with a value which belongs there. -/
theorem store {v : Value} (hl : s.heap.isLive c) (hv : S c v) :
    Step S (· = c) s { s with heap := s.heap.put c v } := by
  have hc : Filled S (s.heap.put c v) c := ⟨v, by rw [Heap.load?_put hl, if_pos rfl], hv⟩
  refine ⟨Nat.le_of_eq (Heap.size_put _ _ _).symm, fun e he => ?_, fun e he => he ▸ hc, [], rfl,
    fun e h1 h2 => ?_⟩
  · by_cases hec : e = c
    · exact hec ▸ hc
    · exact he.of_load (by rw [Heap.load?_put hl, if_neg hec])
  · dsimp only at h2
    rw [Heap.size_put] at h2
    exact absurd h1 (Nat.not_le.2 h2)

section Fresh

variable (hh : t.heap = s.heap.append .void) (hc : s.heap.cells.size = c)
  (hd : t.deferred = s.deferred)

include hh hc hd

/-- A new cell that is put off. -/
theorem defer_fresh {d : Deferred ScopeId} (hdc : d.cell = c) :
    Step S None s { t with deferred := d :: t.deferred } := by
  have hsize : t.heap.cells.size = s.heap.cells.size + 1 := by
    rw [hh, Heap.append, Array.size_push]
  refine ⟨by dsimp only; omega, fun e he => ?_, fun _ => False.elim, [d], by rw [← hd]; rfl,
    fun e h1 h2 => ?_⟩
  · dsimp only
    exact hh ▸ he.append .void
  · dsimp only at h2
    have : s.heap.cells.size = e := by omega
    exact .inr ⟨d, List.mem_singleton_self _, hdc.trans (hc ▸ this)⟩

/-- A new cell that is filled at once. -/
theorem fill_fresh (h : Step S (· = c) t u) : Step S None s u := by
  have hsize : t.heap.cells.size = s.heap.cells.size + 1 := by
    rw [hh, Heap.append, Array.size_push]
  obtain ⟨new, hn, hnew⟩ := h.deferred
  refine ⟨?_, fun e he => h.kept e (hh ▸ he.append .void), fun _ => False.elim, new,
    hn.trans (by rw [hd]), fun e h1 h2 => ?_⟩
  · have := h.grows
    omega
  · by_cases he : e = c
    · exact .inl (h.filled e he)
    · refine hnew e ?_ h2
      rw [hsize]
      exact Nat.succ_le_of_lt (Nat.lt_of_le_of_ne h1 fun h => he (h ▸ hc))

end Fresh

/-- What is put off meanwhile is filled at once. -/
theorem drain (h : Step S W s t) (hs : s.deferred = [])
    (h' : Step S (fun c => ∃ d ∈ t.deferred.reverse, d.cell = c) { t with deferred := [] } u)
    (hu : u.deferred = []) : Step S W s u where
  grows := Nat.le_trans h.grows h'.grows
  kept c hc := h'.kept c (h.kept c hc)
  filled c hw := h'.kept c (h.filled c hw)
  deferred := by
    obtain ⟨new, hn, hc⟩ := h.deferred
    obtain ⟨new', hn', hc'⟩ := h'.deferred
    rw [hs, List.append_nil] at hn
    rw [hu, List.append_nil] at hn'
    refine ⟨[], by rw [hu, hs]; rfl, fun c h1 h2 => .inl ?_⟩
    rcases Nat.lt_or_ge c t.heap.cells.size with hlt | hge
    · rcases hc c h1 hlt with hset | ⟨d, hd, he⟩
      · exact h'.kept c hset
      · exact h'.filled c ⟨d, List.mem_reverse.2 (hn ▸ hd), he⟩
    · rcases hc' c hge h2 with hset | ⟨d, hd, -⟩
      · exact hset
      · exact absurd (hn' ▸ hd) (by simp)

/-- Where nothing stays put off, every new cell is filled. -/
theorem filled_fresh (h : Step S W s t) (ht : t.deferred = []) (h1 : s.heap.cells.size ≤ c)
    (h2 : c < t.heap.cells.size) : Filled S t.heap c := by
  obtain ⟨new, hn, hc⟩ := h.deferred
  rw [ht] at hn
  rcases hc c h1 h2 with hset | ⟨d, hd, -⟩
  · exact hset
  · rw [(List.append_eq_nil_iff.1 hn.symm).1] at hd
    exact absurd hd List.not_mem_nil

end Step

end

end Ndr.Unmarshal
