import Ndr.Fault
import Ndr.Pairing

/-!
The node table of an operation: which wire id stands for which heap cell. The first pointer to a
cell that is written gives it the next id, later ones repeat the id; ids that are read are
entered with the cell made for them.
-/

namespace Ndr

structure NodeTable where
  /-- Ids on the left, cells on the right. -/
  pairs : Pairing := {}
  /-- The last id given out in writing. -/
  assigned : Nat := 0
  deriving Inhabited

/-- A pointer met in writing. -/
inductive Sighting where
  /-- The first to its cell. -/
  | first (id : Nat)
  | again (id : Nat)
  deriving DecidableEq

namespace NodeTable

def cellOf? (t : NodeTable) (id : Nat) : Option CellId := t.pairs.right? id

def idOf? (t : NodeTable) (c : CellId) : Option Nat := t.pairs.left? c

/-- The id of a cell in writing, the next one for a new cell. -/
def sight (t : NodeTable) (c : CellId) : Except Fault (Sighting × NodeTable) :=
  match t.idOf? c with
  | some id => .ok (.again id, t)
  | none =>
    let id := t.assigned + 1
    if id < 2 ^ 32 then .ok (.first id, { pairs := t.pairs.insert id c, assigned := id })
    else .error .integerOverflow

/-- The table with an id that was read and the cell made for it; neither may be known. -/
def register (t : NodeTable) (id : Nat) (c : CellId) : Except Fault NodeTable :=
  if id = 0 then .error (.unknownNode id)
  else if (t.cellOf? id).isSome ∨ (t.idOf? c).isSome then .error (.invalidCell c)
  else .ok { t with pairs := t.pairs.insert id c }

/-! ### Inverse functions -/

/-- Ids and cells stand for each other one to one, and no id is zero. -/
def Consistent (t : NodeTable) : Prop := t.pairs.Inverse ∧ t.cellOf? 0 = none

theorem consistent_empty : Consistent {} := ⟨Pairing.inverse_empty, Pairing.right?_empty 0⟩

theorem Consistent.register {t t' : NodeTable} {id : Nat} {c : CellId} (h : t.Consistent)
    (e : t.register id c = .ok t') : t'.Consistent := by
  unfold NodeTable.register at e
  split at e
  · simp at e
  · rename_i hid
    split at e
    · simp at e
    · rename_i hf
      simp only [not_or, Option.not_isSome_iff_eq_none] at hf
      simp only [Except.ok.injEq] at e
      subst e
      refine ⟨h.1.insert hf.1 hf.2, ?_⟩
      have h0 := h.2
      simp only [cellOf?, Pairing.right?_insert] at h0 ⊢
      rw [if_neg hid, h0]

end NodeTable

end Ndr
