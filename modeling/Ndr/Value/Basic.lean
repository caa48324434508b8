import Ndr.Ieee
import Ndr.Scalar

/-!
The values of the host: scalars of their own widths, structs by slot, arrays in row-major
order, unions, and the names of heap cells, contexts and pipes.
-/

namespace Ndr

/-- The number of a heap cell. -/
abbrev CellId := Nat

/-- The number under which an application holds a context. -/
abbrev ContextHandle := Nat

/-- The number under which an application holds a pipe. -/
abbrev PipeHandle := Nat

inductive Value where
  /-- The value of an empty arm, and of a cell or slot not filled yet. -/
  | void
  | boolean (v : Bool)
  | byte (v : UInt8)
  | char (v : UInt8)
  | small (v : Int8)
  | usmall (v : UInt8)
  | short (v : Int16)
  | ushort (v : UInt16)
  | long (v : Int32)
  | ulong (v : UInt32)
  | hyper (v : Int64)
  | uhyper (v : UInt64)
  /-- A floating point number, by its bits. -/
  | float (bits : UInt32)
  | double (bits : UInt64)
  /-- An enumeration of either width. -/
  | enum (v : Int32)
  | errorStatus (v : UInt32)
  | struct (slots : List Value)
  | array (elements : List Value)
  | union (switch : Int64) (arm : Value)
  | pointer (target : Option CellId)
  | context (handle : Option ContextHandle)
  | pipe (handle : PipeHandle)
  deriving Inhabited

namespace Value

/-! ### Kinds -/

/-- The kind of a value, and what a descriptor asks of one. -/
inductive Kind where
  | void
  | scalar (kind : Scalar)
  | struct
  | array
  | union
  | pointer
  | context
  | pipe
  deriving DecidableEq, Inhabited

def Kind.name : Kind → String
  | void => "void"
  | scalar kind => kind.name
  | struct => "struct"
  | array => "array"
  | union => "union"
  | pointer => "pointer"
  | context => "context handle"
  | pipe => "pipe"

def kind : Value → Kind
  | void => .void
  | boolean _ => .scalar .boolean
  | byte _ => .scalar .byte
  | char _ => .scalar .char
  | small _ => .scalar .small
  | usmall _ => .scalar .usmall
  | short _ => .scalar .short
  | ushort _ => .scalar .ushort
  | long _ => .scalar .long
  | ulong _ => .scalar .ulong
  | hyper _ => .scalar .hyper
  | uhyper _ => .scalar .uhyper
  | float _ => .scalar .float
  | double _ => .scalar .double
  | enum _ => .scalar .enum
  | errorStatus _ => .scalar .errorStatus
  | struct _ => .struct
  | array _ => .array
  | union _ _ => .union
  | pointer _ => .pointer
  | context _ => .context
  | pipe _ => .pipe

/-! ### Integers -/

/-- The integer that a scalar holds, as a number of 64 bits with a sign: an unsigned hyper
with its top bit set is negative. -/
def toInt? : Value → Option Int
  | boolean v => some (if v then 1 else 0)
  | byte v | char v | usmall v => some v.toNat
  | small v => some v.toInt
  | short v => some v.toInt
  | ushort v => some v.toNat
  | long v | enum v => some v.toInt
  | ulong v | errorStatus v => some v.toNat
  | hyper v => some v.toInt
  | uhyper v => some v.toInt64.toInt
  | _ => none

end Value

/-- An integer of 64 bits with a sign. -/
def FitsInt64 (v : Int) : Prop := -2 ^ 63 ≤ v ∧ v < 2 ^ 63

instance (v : Int) : Decidable (FitsInt64 v) := inferInstanceAs (Decidable (_ ∧ _))

namespace Scalar

/-- Whether an integer is a value of an integral scalar. Any integer is a boolean, and an
unsigned hyper takes 64 bits with a sign. -/
def admits (kind : Scalar) (v : Int) : Bool :=
  match kind with
  | byte | char | usmall => 0 ≤ v && v < 2 ^ 8
  | small => -2 ^ 7 ≤ v && v < 2 ^ 7
  | short => -2 ^ 15 ≤ v && v < 2 ^ 15
  | ushort => 0 ≤ v && v < 2 ^ 16
  | long | enum | v1Enum => -2 ^ 31 ≤ v && v < 2 ^ 31
  | ulong | errorStatus => 0 ≤ v && v < 2 ^ 32
  | boolean | hyper | uhyper | float | double => true

/-- The value of a scalar that stands for an integer of 64 bits, if it has one. -/
def ofInt? (kind : Scalar) (v : Int) : Option Value :=
  if kind.admits v then
    some <| match kind with
    | boolean => .boolean (v != 0)
    | byte => .byte (UInt8.ofNat v.toNat)
    | char => .char (UInt8.ofNat v.toNat)
    | small => .small (Int8.ofInt v)
    | usmall => .usmall (UInt8.ofNat v.toNat)
    | short => .short (Int16.ofInt v)
    | ushort => .ushort (UInt16.ofNat v.toNat)
    | enum | v1Enum => .enum (Int32.ofInt v)
    | long => .long (Int32.ofInt v)
    | ulong => .ulong (UInt32.ofNat v.toNat)
    | errorStatus => .errorStatus (UInt32.ofNat v.toNat)
    | hyper => .hyper (Int64.ofInt v)
    | uhyper => .uhyper (Int64.ofInt v).toUInt64
    | float => .float (UInt32.ofNat (IeeeFormat.single.ofInt v))
    | double => .double (UInt64.ofNat (IeeeFormat.double.ofInt v))
  else none

/-- The zero of a scalar. -/
def zero : Scalar → Value
  | boolean => .boolean false
  | byte => .byte 0
  | char => .char 0
  | small => .small 0
  | usmall => .usmall 0
  | short => .short 0
  | ushort => .ushort 0
  | enum | v1Enum => .enum 0
  | long => .long 0
  | ulong => .ulong 0
  | errorStatus => .errorStatus 0
  | float => .float 0
  | hyper => .hyper 0
  | uhyper => .uhyper 0
  | double => .double 0

theorem ofInt?_zero (kind : Scalar) : kind.ofInt? 0 = some kind.zero := by
  cases kind <;> rfl

end Scalar

namespace Value

/-! ### Text -/

/-- The element that ends the text of a string. -/
def isTerminator (v : Value) : Bool := v.toInt? == some 0

/-- The elements of a string ahead of its first terminator. -/
def textOf (elements : List Value) : List Value := elements.takeWhile (!·.isTerminator)

/-- The elements that a string puts on the wire: its text and one terminator. -/
def transmitCount (elements : List Value) : Nat := (textOf elements).length + 1

end Value

end Ndr
