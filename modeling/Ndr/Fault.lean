import Ndr.Hex
import Ndr.Representation
import Ndr.Uuid
import Ndr.Value.Basic

/-!
What can go wrong: every cause of a failed operation with what it names, its class and its text.
-/

namespace Ndr

/-- The classes of faults; a machine remembers the class of its first. -/
inductive FaultClass where
  /-- A type vector that is malformed or ends early. -/
  | decode
  /-- A value out of range, or a bound against its correlated field. -/
  | bounds
  /-- Data of another shape than the type vector's. -/
  | structural
  /-- Memory or the transport. -/
  | resource
  /-- Data in a representation that is not read. -/
  | representation
  /-- A mistake of the application. -/
  | usage
  deriving DecidableEq, Inhabited

/-! ### Reasons -/

/-- What is wrong with a record of a type vector or with a type expression. -/
inductive Malformation where
  | integerOrder
  | emptyStream
  | bareParameter
  | noDimensions
  | noElement
  | switchNotIntegral
  | badAlignment
  | expectedEnd
  | unbalancedEnd
  | unclosedNested
  | danglingModifier
  | strayMarker
  | layoutIndex
  | tooManyFields
  | layoutTruncated
  | slotOutside
  | correlatedFixed
  | stringBound
  | stringDimensions
  | stringElement
  | characterSize
  | noTrailingArray
  | trailingArrayNotLast
  | pipeElement
  | structMissing
  | containsItself
  | structUndefined
  | slotsNotCovering
  | tooDeep
  | badMarker
  | trailingArrayMissing
  | dimensionCount
  | limitCount
  | switchSpecNotIntegral
  deriving DecidableEq, Inhabited

def Malformation.message : Malformation → String
  | integerOrder => "integer representation must be 0 or 1"
  | emptyStream => "empty type stream"
  | bareParameter => "parameter without a descriptor"
  | noDimensions => "array with zero dimensions"
  | noElement => "array without an element type"
  | switchNotIntegral => "union discriminant is not an integral scalar"
  | badAlignment => "alignment must be 1, 2, 4 or 8"
  | expectedEnd => "expected end of list"
  | unbalancedEnd => "unbalanced end of nested struct"
  | unclosedNested => "nested struct not closed"
  | danglingModifier => "modifier without a descriptor"
  | strayMarker => "marker where a descriptor was expected"
  | layoutIndex => "offset vector index out of range"
  | tooManyFields => "struct has more fields than its offset vector entry"
  | layoutTruncated => "offset vector truncated"
  | slotOutside => "host slot outside struct"
  | correlatedFixed => "non-conformant array with correlated bounds"
  | stringBound => "string bound on a non-string array"
  | stringDimensions => "string arrays have exactly one dimension"
  | stringElement => "string elements must be integral scalars"
  | characterSize => "string char size disagrees with element type"
  | noTrailingArray => "conformant struct without a conformant array"
  | trailingArrayNotLast => "conformant array is not the last field"
  | pipeElement => "pipe elements may not contain pointers or pipes"
  | structMissing => "struct referenced but never laid down"
  | containsItself => "struct contains itself by value"
  | structUndefined => "struct used before it was defined"
  | slotsNotCovering => "host slots do not cover the struct's fields"
  | tooDeep => "type nests too deeply"
  | badMarker => "alignment marker must be 2, 4 or 8"
  | trailingArrayMissing => "conformant array missing"
  | dimensionCount => "array needs between 1 and 255 dimensions"
  | limitCount => "varying array needs one limit pair per dimension"
  | switchSpecNotIntegral => "union discriminant must be an integral scalar"

/-- Why the transport gave no room. -/
inductive Exhaustion where
  /-- The transport's own words. -/
  | transport (text : String)
  | nonEmptyBuffer
  | tooSmall (requested holds : Nat)
  deriving DecidableEq

def Exhaustion.message : Exhaustion → String
  | transport text => text
  | nonEmptyBuffer => "transport supplied a non-empty buffer"
  | tooSmall requested holds =>
    s!"{requested} contiguous bytes requested, chunk holds {holds}"

/-- How a pipe was misused. -/
inductive PipeMisuse where
  /-- The application's own words. -/
  | application (text : String)
  | completed
  | bothDirections
  | outsideParameters
  | tooManyElements
  | unknownHandle
  deriving DecidableEq

def PipeMisuse.message : PipeMisuse → String
  | application text => text
  | completed => "pipe already completed"
  | bothDirections => "pipe used in both directions"
  | outsideParameters => "pipe outside a parameter list"
  | tooManyElements => "pull returned more elements than requested"
  | unknownHandle => "no pipe under this handle"

inductive StringDefect where
  | noTerminator
  | empty
  | atOffset (offset : Nat)
  deriving DecidableEq

def StringDefect.message : StringDefect → String
  | noTerminator => "missing terminator"
  | empty => "zero-length string"
  | atOffset offset => s!"string transmitted at offset {offset}"

inductive ConfigDefect where
  | bufferSize
  | vectorSize
  | nestingDepth
  | pipeChunk
  deriving DecidableEq

def ConfigDefect.message : ConfigDefect → String
  | bufferSize => "buffer_size must be a non-zero multiple of 8"
  | vectorSize => "iovector_size must be at least 1"
  | nestingDepth => "max_nesting_depth must be at least 1"
  | pipeChunk => "min_pipe_chunk must be at least 1"

/-! ### Faults -/

inductive Fault where
  | unknownOpcode (opcode : UInt8) (offset : Nat)
  | truncatedVector (offset needed : Nat)
  | versionMismatch (major minor : UInt16)
  | unsupportedFlags (flags : UInt32)
  | invalidDescriptor (offset : Nat) (reason : Malformation)
  | nestingTooDeep (limit offset : Nat)
  | unsupportedConversion (operator : UInt8)
  /-- The zero value of a type at this offset would contain itself. -/
  | endlessType (offset : Nat)
  /-- References lead on for ever. -/
  | endlessReferences
  | outOfRange (value lower upper : Int)
  | correlationMismatch (expected wire : Int)
  | correlationUnavailable (field : Nat)
  | invalidBound (lower upper : Int)
  | conformanceMismatch (extent first length : Nat)
  | integerOverflow
  | noMatchingArm (switch : Int)
  | dimensionMismatch (declared recorded : Nat)
  | typeMismatch (expected found : Value.Kind)
  /-- A struct value of another number of slots than its layout. -/
  | slotMismatch (slots layout : Nat)
  | arraySizeMismatch (expected got : Nat)
  | nullReference
  | unknownNode (id : Nat)
  | invalidString (defect : StringDefect)
  | contextMismatch (token : Uuid)
  | allocationFailed (live limit : Nat)
  | tooManyElements (requested limit : Nat)
  | invalidCell (cell : CellId)
  | doubleFree (cell : CellId)
  | bufferUnderflow (needed available : Nat)
  | bufferExhausted (reason : Exhaustion)
  | unsupportedFloats (format : FloatFormat)
  | unsupportedCharacters (set : CharacterSet)
  | unsupportedOpcode (opcode : UInt8)
  | pipeMisuse (misuse : PipeMisuse)
  | missingRoutine (index : Nat)
  | routineFailed (index : Nat) (reason : String)
  | missingRegistry
  | conversionsTooDeep (limit : Nat)
  | parameterIndex (index count : Nat)
  | invalidConfig (defect : ConfigDefect)
  deriving DecidableEq

namespace Fault

def faultClass : Fault → FaultClass
  | unknownOpcode .. | truncatedVector .. | versionMismatch .. | unsupportedFlags _
  | invalidDescriptor .. | nestingTooDeep .. | unsupportedConversion _ | endlessType _ => .decode
  | outOfRange .. | correlationMismatch .. | correlationUnavailable _ | invalidBound ..
  | conformanceMismatch .. | integerOverflow => .bounds
  | noMatchingArm _ | dimensionMismatch .. | typeMismatch .. | slotMismatch ..
  | arraySizeMismatch .. | nullReference | unknownNode _ | invalidString _
  | contextMismatch _ => .structural
  | allocationFailed .. | tooManyElements .. | invalidCell _ | doubleFree _ | bufferUnderflow ..
  | bufferExhausted _ | endlessReferences => .resource
  | unsupportedFloats _ | unsupportedCharacters _ => .representation
  | unsupportedOpcode _ | pipeMisuse _ | missingRoutine _ | routineFailed .. | missingRegistry
  | conversionsTooDeep _ | parameterIndex .. | invalidConfig _ => .usage

def message : Fault → String
  | unknownOpcode opcode offset =>
    s!"unknown type vector opcode {opcode.toNat} at offset {offset}"
  | truncatedVector offset needed =>
    s!"type vector truncated: needed {needed} bytes at offset {offset}"
  | versionMismatch major minor =>
    s!"type vector version {major.toNat}.{minor.toNat} not supported"
  | unsupportedFlags flags =>
    "bug-compatibility flags 0x" ++ hexText 8 flags.toNat ++ " not supported"
  | invalidDescriptor offset reason =>
    s!"invalid descriptor at offset {offset}: " ++ reason.message
  | nestingTooDeep limit offset =>
    s!"type nesting exceeds {limit} at type vector offset {offset}"
  | unsupportedConversion operator =>
    s!"unsupported field conversion operator {operator.toNat}"
  | endlessType offset => s!"type at offset {offset} contains itself by value"
  | endlessReferences => "references lead on without end"
  | outOfRange value lower upper => s!"value {value} outside range [{lower}, {upper}]"
  | correlationMismatch expected wire =>
    s!"correlation mismatch: field gives {expected}, wire carries {wire}"
  | correlationUnavailable field => s!"correlated field {field} not available"
  | invalidBound lower upper => s!"invalid bounds: lower={lower}, upper={upper}"
  | conformanceMismatch extent first length =>
    s!"conformance mismatch: max_count={extent}, offset={first}, actual_count={length}"
  | integerOverflow => "integer overflow"
  | noMatchingArm switch => s!"no union arm for discriminant {switch}"
  | dimensionMismatch declared recorded =>
    s!"dimensionality mismatch: descriptor declares {declared}, definition records {recorded}"
  | typeMismatch expected found =>
    "type mismatch: expected " ++ expected.name ++ ", found " ++ found.name
  | slotMismatch slots layout =>
    s!"type mismatch: expected struct, found struct with {slots} fields, layout has {layout}"
  | arraySizeMismatch expected got =>
    s!"array size mismatch: expected {expected} elements, got {got}"
  | nullReference => "null [ref] pointer"
  | unknownNode id => s!"unknown node id {id}"
  | invalidString defect => "invalid string: " ++ defect.message
  | contextMismatch token => "context handle mismatch: " ++ token.text
  | allocationFailed live limit => s!"allocation failed: {live} live nodes, limit {limit}"
  | tooManyElements requested limit =>
    s!"allocation limit exceeded: requested {requested} elements, limit is {limit}"
  | invalidCell cell => s!"invalid heap reference {cell}"
  | doubleFree cell => s!"double free of heap reference {cell}"
  | bufferUnderflow needed available =>
    s!"buffer underflow: needed {needed} bytes, have {available}"
  | bufferExhausted reason => "buffer exhausted: " ++ reason.message
  | unsupportedFloats format => "unsupported float representation " ++ format.name
  | unsupportedCharacters set => "unsupported character representation " ++ set.name
  | unsupportedOpcode opcode => s!"unsupported opcode {opcode.toNat}"
  | pipeMisuse misuse => "pipe misuse: " ++ misuse.message
  | missingRoutine index => s!"missing transmit_as routine {index}"
  | routineFailed index reason =>
    s!"transmit_as routine {index} failed: " ++ reason
  | missingRegistry => "context handle used without a context registry"
  | conversionsTooDeep limit => s!"transmit_as nesting exceeds {limit}"
  | parameterIndex index count =>
    s!"parameter index {index} outside parameter vector of {count}"
  | invalidConfig defect => "invalid configuration: " ++ defect.message

end Fault

/-! ### Representations that are read -/

/-- Floating point numbers travel in the IEEE format only. -/
def Representation.checkFloats (r : Representation) : Except Fault Unit :=
  if r.floats = .ieee then .ok () else .error (.unsupportedFloats r.floats)

/-- Characters travel in ASCII only. -/
def Representation.checkCharacters (r : Representation) : Except Fault Unit :=
  if r.characters = .ascii then .ok () else .error (.unsupportedCharacters r.characters)

/-! ### Failing within a state -/

/-- A computation that may fail, as a step of one with a state, which it does not touch. -/
instance {σ : Type} : MonadLift (Except Fault) (EStateM Fault σ) where
  monadLift
    | .ok a => pure a
    | .error e => throw e

end Ndr
