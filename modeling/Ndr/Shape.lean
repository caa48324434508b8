import Ndr.Fault

/-!
The shape of an array: in each dimension the elements it has and the range of them that is
sent. An odometer runs through the elements that are sent, the last dimension fastest.
-/

namespace Ndr

/-- The elements of a dimension, and the first and the number of those that are sent. -/
structure Span where
  extent : Nat
  first : Nat
  length : Nat
  deriving DecidableEq, Inhabited

/-- The dimensions of an array, the slowest first. -/
abbrev Shape := List Span

namespace Shape

/-! ### Counts -/

/-- A product of counts, which must have 64 bits at every step. -/
def checkedProduct : List Nat → Nat → Except Fault Nat
  | [], acc => .ok acc
  | n :: ns, acc =>
    if acc * n < 2 ^ 64 then checkedProduct ns (acc * n) else .error .integerOverflow

/-- The elements of the array. -/
def total (s : Shape) : Except Fault Nat := checkedProduct (s.map (·.extent)) 1

/-- The elements that are sent. -/
def transmitted (s : Shape) : Except Fault Nat := checkedProduct (s.map (·.length)) 1

/-- The elements that are sent, however many. -/
def count (s : Shape) : Nat := (s.map (·.length)).foldl (· * ·) 1

/-- Whether every element is sent. -/
def isFull (s : Shape) : Bool := s.all fun d => d.first == 0 && d.length == d.extent

/-- The elements that are sent as one run, the first and the number, where that is seen at
once. -/
def contiguous? (s : Shape) : Option (Nat × Nat) :=
  if s.isFull then
    match s.total with
    | .ok total => some (0, total)
    | .error _ => none
  else
    match s with
    | [d] => some (d.first, d.length)
    | _ => none

/-! ### The odometer -/

/-- The place of an element in row-major order, by its index in each dimension. -/
def flat (s : Shape) (index : List Nat) : Nat :=
  (s.zip index).foldl (fun acc (d, i) => acc * d.extent + i) 0

/-- The first element that is sent. -/
def start (s : Shape) : List Nat := s.map (·.first)

/-- The element after `index`, `none` after the last. -/
def next? : Shape → List Nat → Option (List Nat)
  | d :: ds, i :: is =>
    match next? ds is with
    | some is' => some (i :: is')
    | none => if i + 1 < d.first + d.length then some ((i + 1) :: start ds) else none
  | _, _ => none

/-- The places of at most `n` elements from `index` on. -/
def indicesFrom (s : Shape) : Nat → List Nat → List Nat
  | 0, _ => []
  | n + 1, index =>
    s.flat index :: match s.next? index with
      | some index' => indicesFrom s n index'
      | none => []

/-- The places of the elements that are sent, in the order of the wire. -/
def indices (s : Shape) : List Nat := s.indicesFrom s.count s.start

/-- Run through the places of at most `n` elements from `index` on. -/
@[specialize] def foldFrom {m : Type → Type} [Monad m] {β : Type} (s : Shape) (f : β → Nat → m β) :
    Nat → List Nat → β → m β
  | 0, _, b => pure b
  | n + 1, index, b => do
    let b ← f b (s.flat index)
    match s.next? index with
    | some index' => foldFrom s f n index' b
    | none => pure b

/-- Run through the places of the elements that are sent. -/
@[inline] def foldIndices {m : Type → Type} [Monad m] {β : Type} (s : Shape) (f : β → Nat → m β)
    (b : β) : m β :=
  s.foldFrom f s.count s.start b

theorem foldFrom_eq {m : Type → Type} [Monad m] [LawfulMonad m] {β : Type} (s : Shape)
    (f : β → Nat → m β) (n : Nat) (index : List Nat) (b : β) :
    s.foldFrom f n index b = (s.indicesFrom n index).foldlM f b := by
  induction n generalizing index b with
  | zero => rfl
  | succ n ih =>
    simp only [foldFrom, indicesFrom, List.foldlM_cons]
    congr 1
    funext b
    cases s.next? index with
    | none => rfl
    | some index' => exact ih index' b

/-- Running through the places is running through their list. -/
theorem foldIndices_eq {m : Type → Type} [Monad m] [LawfulMonad m] {β : Type} (s : Shape)
    (f : β → Nat → m β) (b : β) : s.foldIndices f b = s.indices.foldlM f b :=
  foldFrom_eq s f _ _ b

end Shape

end Ndr
