import Ndr.Fault

/-!
The heap of the host: numbered cells, each live or freed. A freed cell is never used again, so
a stale number is told from a live one. The lemmas say what each operation does to the cells.
-/

namespace Ndr

theorem Heap.no_frees : 0 = (#[] : Array (Option Value)).countP Option.isNone := rfl

/-- The cells in the order of their allocation, `none` for a freed one, and the most live cells
the heap takes. -/
structure Heap where
  cells : Array (Option Value) := #[]
  /-- How many cells were freed. -/
  frees : Nat := 0
  limit : Option Nat := none
  frees_eq : frees = cells.countP Option.isNone := by exact Heap.no_frees

namespace Heap

instance : Inhabited Heap := ⟨{}⟩

/-! ### Counts -/

/-- The cells ever allocated. -/
def allocations (h : Heap) : Nat := h.cells.size

def live (h : Heap) : Nat := h.allocations - h.frees

theorem frees_le_allocations (h : Heap) : h.frees ≤ h.allocations := by
  rw [h.frees_eq]
  exact Array.countP_le_size

theorem live_add_frees (h : Heap) : h.live + h.frees = h.allocations :=
  Nat.sub_add_cancel h.frees_le_allocations

theorem live_eq_countP (h : Heap) : h.live = h.cells.countP Option.isSome := by
  have hn : (fun c : Option Value => decide (¬ c.isSome = true)) = Option.isNone := by
    funext c
    cases c <;> rfl
  have : h.cells.size = _ := Array.size_eq_countP_add_countP (p := Option.isSome)
  rw [hn, ← h.frees_eq] at this
  unfold live allocations
  omega

/-! ### Changes -/

theorem countP_isNone_set {cells : Array (Option Value)} {c : Nat} {v : Value}
    (e : cells[c]? = some (some v)) (w : Option Value) :
    (cells.setIfInBounds c w).countP Option.isNone
      = cells.countP Option.isNone + if w.isNone then 1 else 0 := by
  obtain ⟨hc, hv⟩ := Array.getElem?_eq_some_iff.1 e
  rw [Array.setIfInBounds, dif_pos hc, Array.countP_set hc, hv]
  simp

/-- The heap with a new cell at its end. -/
def append (h : Heap) (v : Value) : Heap :=
  { h with
    cells := h.cells.push (some v)
    frees_eq := by simp [h.frees_eq] }

/-- The heap with `v` in the live cell `c`; nothing changes where the cell is not live. -/
def put (h : Heap) (c : CellId) (v : Value) : Heap :=
  match e : h.cells[c]? with
  | some (some _) =>
    { h with
      cells := h.cells.setIfInBounds c (some v)
      frees_eq := by simp [countP_isNone_set e, h.frees_eq] }
  | _ => h

/-- The heap without the cell `c`; nothing changes where the cell is not live. -/
def release (h : Heap) (c : CellId) : Heap :=
  match e : h.cells[c]? with
  | some (some _) =>
    { h with
      cells := h.cells.setIfInBounds c none
      frees := h.frees + 1
      frees_eq := by simp [countP_isNone_set e, h.frees_eq] }
  | _ => h

/-! ### Operations -/

/-- The value of a live cell. -/
def load? (h : Heap) (c : CellId) : Option Value := h.cells[c]?.join

def isLive (h : Heap) (c : CellId) : Bool := (h.load? c).isSome

def load (h : Heap) (c : CellId) : Except Fault Value :=
  match h.load? c with
  | some v => .ok v
  | none => .error (.invalidCell c)

/-- Whether the heap takes another live cell. -/
def checkRoom (h : Heap) : Except Fault Unit :=
  match h.limit with
  | none => .ok ()
  | some limit => if limit ≤ h.live then .error (.allocationFailed h.live limit) else .ok ()

/-- A new cell that holds `v`, refused where the limit of live cells is reached. -/
def allocate (h : Heap) (v : Value) : Except Fault (CellId × Heap) := do
  h.checkRoom
  return (h.allocations, h.append v)

def free (h : Heap) (c : CellId) : Except Fault Heap :=
  match h.cells[c]? with
  | some (some _) => .ok (h.release c)
  | some none => .error (.doubleFree c)
  | none => .error (.invalidCell c)

def store (h : Heap) (c : CellId) (v : Value) : Except Fault Heap :=
  if h.isLive c then .ok (h.put c v) else .error (.invalidCell c)

/-! ### Cells after a change -/

theorem load?_eq (h : Heap) (c : CellId) : h.load? c = h.cells[c]?.join := rfl

theorem isLive_iff {h : Heap} {c : CellId} : h.isLive c = true ↔ ∃ v, h.load? c = some v := by
  simp [isLive, Option.isSome_iff_exists]

theorem lt_of_load? {h : Heap} {c : CellId} {v : Value} (e : h.load? c = some v) :
    c < h.cells.size := by
  simp only [load?, Option.join_eq_some_iff, Array.getElem?_eq_some_iff] at e
  exact e.1

theorem load_eq_ok_iff {h : Heap} {c : CellId} {v : Value} :
    h.load c = .ok v ↔ h.load? c = some v := by
  unfold load
  cases h.load? c <;> simp

theorem load?_append (h : Heap) (v : Value) (d : CellId) :
    (h.append v).load? d = if d = h.allocations then some v else h.load? d := by
  simp only [load?, append, allocations, Array.getElem?_push]
  split <;> simp_all

theorem cells_put (h : Heap) (c : CellId) (v : Value) :
    (h.put c v).cells = if h.isLive c then h.cells.setIfInBounds c (some v) else h.cells := by
  unfold put isLive load?
  split
  · rename_i e
    simp [e]
  · rename_i hn
    rcases e : h.cells[c]? with _ | _ | w
    · simp
    · simp
    · exact absurd e (hn w)

theorem cells_release (h : Heap) (c : CellId) :
    (h.release c).cells = if h.isLive c then h.cells.setIfInBounds c none else h.cells := by
  unfold release isLive load?
  split
  · rename_i e
    simp [e]
  · rename_i hn
    rcases e : h.cells[c]? with _ | _ | w
    · simp
    · simp
    · exact absurd e (hn w)

theorem load?_put {h : Heap} {c : CellId} (hl : h.isLive c) (v : Value) (d : CellId) :
    (h.put c v).load? d = if d = c then some v else h.load? d := by
  obtain ⟨w, hw⟩ := isLive_iff.1 hl
  have := lt_of_load? hw
  simp only [load?, cells_put, hl, ite_true, Array.getElem?_setIfInBounds]
  by_cases hd : c = d
  · subst hd; simp [this]
  · simp [hd, Ne.symm hd]

theorem load?_release (h : Heap) (c d : CellId) :
    (h.release c).load? d = if d = c then none else h.load? d := by
  simp only [load?, cells_release]
  by_cases hl : h.isLive c
  · simp only [hl, ite_true, Array.getElem?_setIfInBounds]
    by_cases hd : c = d
    · subst hd; by_cases hc : c < h.cells.size <;> simp [hc]
    · simp [hd, Ne.symm hd]
  · rw [if_neg hl]
    by_cases hd : d = c
    · subst hd
      simpa [isLive, load?] using hl
    · simp [hd]

theorem size_put (h : Heap) (c : CellId) (v : Value) :
    (h.put c v).cells.size = h.cells.size := by
  rw [cells_put]
  split
  · exact Array.size_setIfInBounds
  · rfl

theorem size_release (h : Heap) (c : CellId) : (h.release c).cells.size = h.cells.size := by
  rw [cells_release]
  split
  · exact Array.size_setIfInBounds
  · rfl

theorem getElem?_release (h : Heap) {c d : CellId} (hd : d ≠ c) :
    (h.release c).cells[d]? = h.cells[d]? := by
  rw [cells_release]
  split
  · exact Array.getElem?_setIfInBounds_ne (Ne.symm hd)
  · rfl

/-! ### Cells after several are freed -/

theorem size_release_all (cs : List CellId) (h : Heap) :
    (cs.foldl release h).cells.size = h.cells.size := by
  induction cs generalizing h with
  | nil => rfl
  | cons c cs ih => rw [List.foldl_cons, ih, size_release]

theorem getElem?_release_all {cs : List CellId} {d : CellId} (hd : d ∉ cs) (h : Heap) :
    (cs.foldl release h).cells[d]? = h.cells[d]? := by
  induction cs generalizing h with
  | nil => rfl
  | cons c cs ih =>
    obtain ⟨hne, hd⟩ := not_or.1 (mt List.mem_cons.2 hd)
    rw [List.foldl_cons, ih hd, getElem?_release h hne]

theorem load?_release_all {cs : List CellId} {d : CellId} (hd : d ∈ cs) (h : Heap) :
    (cs.foldl release h).load? d = none := by
  induction cs generalizing h with
  | nil => exact absurd hd List.not_mem_nil
  | cons c cs ih =>
    rw [List.foldl_cons]
    by_cases hm : d ∈ cs
    · exact ih hm _
    · obtain rfl := (List.mem_cons.1 hd).resolve_right hm
      rw [load?, getElem?_release_all hm, ← load?, load?_release, if_pos rfl]

/-! ### Cells after an operation -/

/-- What an allocation does: a new live cell at the end. -/
theorem allocate_eq_ok {h h' : Heap} {c : CellId} {v : Value} (e : h.allocate v = .ok (c, h')) :
    c = h.allocations ∧ h' = h.append v := by
  unfold allocate at e
  cases hr : h.checkRoom with
  | error f => simp [hr, bind, Except.bind] at e
  | ok u => simpa [hr, bind, Except.bind, pure, Except.pure, eq_comm] using e

theorem load?_allocate {h h' : Heap} {c : CellId} {v : Value} (e : h.allocate v = .ok (c, h'))
    (d : CellId) : h'.load? d = if d = c then some v else h.load? d := by
  obtain ⟨rfl, rfl⟩ := allocate_eq_ok e
  exact load?_append h v d

theorem load?_store {h h' : Heap} {c : CellId} {v : Value} (e : h.store c v = .ok h')
    (d : CellId) : h'.load? d = if d = c then some v else h.load? d := by
  unfold store at e
  split at e
  · rename_i hl
    simp only [Except.ok.injEq] at e
    subst e
    exact load?_put hl v d
  · exact absurd e (by simp)

theorem load?_free {h h' : Heap} {c : CellId} (e : h.free c = .ok h') (d : CellId) :
    h'.load? d = if d = c then none else h.load? d := by
  unfold free at e
  split at e
  · simp only [Except.ok.injEq] at e
    subst e
    exact load?_release h c d
  · exact absurd e (by simp)
  · exact absurd e (by simp)

end Heap

end Ndr
