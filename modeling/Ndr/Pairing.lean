import Std.Data.TreeMap.Lemmas

/-!
Pairs of numbers that are looked up from either side. The lemmas say what a new pair does to the
two look-ups, and that they stay inverse to each other.
-/

namespace Ndr

structure Pairing where
  /-- The partner of a number on the left. -/
  rights : Std.TreeMap Nat Nat := ∅
  /-- The partner of a number on the right. -/
  lefts : Std.TreeMap Nat Nat := ∅
  deriving Inhabited

namespace Pairing

def right? (p : Pairing) (a : Nat) : Option Nat := p.rights[a]?

def left? (p : Pairing) (b : Nat) : Option Nat := p.lefts[b]?

/-- The pairs with the pair of `a` and `b`. -/
def insert (p : Pairing) (a b : Nat) : Pairing where
  rights := p.rights.insert a b
  lefts := p.lefts.insert b a

def size (p : Pairing) : Nat := p.rights.size

/-! ### Look-ups -/

@[simp] theorem right?_empty (a : Nat) : right? {} a = none := Std.TreeMap.getElem?_emptyc

@[simp] theorem left?_empty (b : Nat) : left? {} b = none := Std.TreeMap.getElem?_emptyc

theorem right?_insert (p : Pairing) (a b c : Nat) :
    (p.insert a b).right? c = if a = c then some b else p.right? c := by
  simp [right?, insert, Std.TreeMap.getElem?_insert]

theorem left?_insert (p : Pairing) (a b c : Nat) :
    (p.insert a b).left? c = if b = c then some a else p.left? c := by
  simp [left?, insert, Std.TreeMap.getElem?_insert]

/-! ### Inverse functions -/

/-- Each look-up undoes the other. -/
def Inverse (p : Pairing) : Prop := ∀ a b, p.right? a = some b ↔ p.left? b = some a

theorem inverse_empty : Inverse {} := by simp [Inverse]

/-- A pair of two new numbers keeps the look-ups inverse. -/
theorem Inverse.insert {p : Pairing} (h : p.Inverse) {a b : Nat} (ha : p.right? a = none)
    (hb : p.left? b = none) : (p.insert a b).Inverse := by
  intro c d
  rw [right?_insert, left?_insert]
  by_cases hc : a = c <;> by_cases hd : b = d
  · simp [hc, hd]
  · subst hc
    have : p.left? d ≠ some a := fun e => by simp [(h a d).2 e] at ha
    simp [hd, this]
  · subst hd
    have : p.right? c ≠ some b := fun e => by simp [(h c b).1 e] at hb
    simp [hc, this]
  · simpa [hc, hd] using h c d

end Pairing

end Ndr
