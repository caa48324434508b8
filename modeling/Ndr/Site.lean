import Ndr.Correlation
import Ndr.Heap.Basic

/-!
Where a descriptor is met in a walk over values or over a message, and the pointees that the walk
puts off.
-/

namespace Ndr

/-- The scope of a descriptor, whether it is embedded in a struct, an array, a union or a pipe,
and the conversions that are open around it. -/
structure Site (σ : Type) where
  scope : σ
  embedded : Bool
  conversions : Nat := 0

/-- The same place, inside another type. -/
def Site.inside {σ : Type} (s : Site σ) : Site σ := { s with embedded := true }

/-- A pointee that stands behind the parameter that holds its pointer. -/
structure Deferred (σ : Type) where
  cell : CellId
  pointee : Nat
  scope : σ

/-- The integer that a parameter gives its scope; one passed by reference gives that of its
pointee. -/
def correlationOf (heap : Heap) : Value → Option Int
  | .pointer (some c) => (heap.load? c).bind Value.toInt?
  | v => v.toInt?

end Ndr
