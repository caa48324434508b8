import Ndr.Proofs.Assembly.Entry
import Ndr.Proofs.Assembly.Spelling

/-!
The grammar of what an assembler lays down: lists of opcodes, each with its operands, and the
sections of a vector, in which such lists stand. It says which types the opcodes spell and what the
words refer to, and which bytes are read as bytes and which as words. What a struct is, it does not
say: it may be defined again until it is laid down.
-/

namespace Ndr

/-- A type none of whose parts is a bare opcode. -/
inductive TypeSpec.OpcodeFree : TypeSpec → Prop where
  | intro {t : TypeSpec} (opcode : ∀ op, t ≠ .opcode op) (parts : ∀ s ∈ t.parts, s.OpcodeFree) :
      t.OpcodeFree

theorem TypeSpec.OpcodeFree.part {s t : TypeSpec} (h : t.OpcodeFree) (hs : s ∈ t.parts) :
    s.OpcodeFree := by
  obtain ⟨-, hparts⟩ := h
  exact hparts s hs

theorem TypeSpec.OpcodeFree.ne {t : TypeSpec} (h : t.OpcodeFree) (op : Opcode) :
    t ≠ .opcode op := by
  obtain ⟨hop, -⟩ := h
  exact hop op

/-- A struct whose fields have no bare opcodes. -/
def StructSpec.OpcodeFree (s : StructSpec) : Prop := ∀ t ∈ s.fields, t.OpcodeFree

/-! ### Records of a fixed form -/

def Bound.entries (b : Bound) : List Entry :=
  [.byte (b.kind ||| b.flags), .byte b.fieldType, .byte b.operator, .byte filler,
    .word b.value.toNat]

def BoundPair.entries (p : BoundPair) : List Entry := p.lower.entries ++ p.upper.entries

def Assembler.ArmRecord.entries (label : UInt32) (arm : ArmRecord) : List Entry :=
  [.word label.toNat, .byte arm.kind, .byte arm.props, .byte filler, .byte filler,
    .word arm.stream, .word 0]

namespace Entries

open Assembler

/-- The end of a list of opcodes. -/
abbrev eol : Entry := .byte Opcode.endOfList.toByte

/-- The records of the dimensions of an array. -/
def ofPairs (pairs : List BoundPair) : List Entry := pairs.flatMap BoundPair.entries

/-- The records of the arms of a union, the default last. -/
def ofArms (arms : List (UInt32 × ArmRecord)) : List Entry :=
  arms.flatMap fun p => p.2.entries p.1

/-- The parameters of a list, each an index with the opcodes of its type. -/
def ofParameters (ps : List (UInt32 × List Entry)) : List Entry :=
  ps.flatMap fun p => .word p.1.toNat :: (p.2 ++ [eol])

section

variable {order : ByteOrder} {es : List Entry}

theorem bound_ofEntries (b : Bound) :
    (Record.ofEntries order es).bound b = .ofEntries order (es ++ b.entries) := by
  simp [Record.bound, Bound.entries]

theorem boundPairs_ofEntries (pairs : List BoundPair) :
    pairs.foldl Record.boundPair (Record.ofEntries order es)
      = .ofEntries order (es ++ ofPairs pairs) := by
  induction pairs generalizing es with
  | nil => simp [ofPairs]
  | cons p pairs ih =>
    rw [List.foldl_cons, Record.boundPair, bound_ofEntries, bound_ofEntries, ih]
    simp [ofPairs, BoundPair.entries]

theorem writeArms_ofEntries (arms : List (UInt32 × ArmRecord)) :
    writeArms arms (Record.ofEntries order es) = .ofEntries order (es ++ ofArms arms) := by
  induction arms generalizing es with
  | nil => simp [writeArms, ofArms]
  | cons p arms ih =>
    obtain ⟨label, arm⟩ := p
    have hfirst : arm.write label (Record.ofEntries order es)
        = .ofEntries order (es ++ arm.entries label) := by
      simp [ArmRecord.write, ArmRecord.entries]
    show writeArms arms (arm.write label (Record.ofEntries order es)) = _
    rw [hfirst, ih]
    simp [ofArms]

end

/-! ### Opcodes -/

/-- What an assembler lays down as one record, with the type that it spells. -/
inductive Kind where
  | stream (t : TypeSpec)
  | array (s : ArraySpec)
  | union (u : UnionSpec)
  | struct (s : StructSpec)
  | parameters (ps : List (UInt32 × TypeSpec))

/-- What is left to spell: types, and the ends of the nested structs that are open. -/
inductive Item where
  | type (t : TypeSpec)
  | close

/-- A type is spelled by one opcode without operands. -/
inductive Bare : TypeSpec → Opcode → Prop where
  | scalar (kind : Scalar) : Bare (.scalar kind) (.scalar kind)
  | ignore : Bare .ignore .ignore
  | context (direction : ContextDirection) : Bare (.context direction) (.context direction)
  | align (boundary : Boundary) : Bare (.align boundary.toNat) (.align boundary)
  | deletedNodes : Bare .deletedNodes .deletedNodes
  | void : Bare .void .void

/-- The opcode that begins a type, its operands, and what of the type is left to spell behind them,
where `K` holds of the offsets of what the operands refer to. -/
inductive Operands (K : Kind → Nat → Prop) : TypeSpec → Opcode → List Entry → List Item → Prop where
  | bare {t : TypeSpec} {op : Opcode} (h : Bare t op) : Operands K t op [] []
  | range {kind : Scalar} {lower upper : UInt32} : Operands K (.range kind lower upper) .range
      [.word lower.toNat, .word upper.toNat] [.type (.scalar kind)]
  | freeRep {routine : UInt32} {t : TypeSpec} :
      Operands K (.freeRep routine t) .freeRep [.word routine.toNat] [.type t]
  | beginNested {s : StructSpec} {align : UInt8} {layout : Nat} : Operands K (.nested s) .beginNested
      [.byte align, .word layout] (s.fields.map .type ++ [.close])
  | struct {kind : StructKind} {props : UInt8} {id : StructId} :
      Operands K (.struct id) (.struct kind) [.byte props, .reference id] []
  | mark {s : ArraySpec} {mark : Mark} : Operands K (.array s) (.mark mark) [] [.type (.array s)]
  | array {s : ArraySpec} {props dims : UInt8} {n : Nat} (h : K (.array s) n) :
      Operands K (.array s) (.array s.kind) [.byte props, .byte dims, .word n] []
  | encapsulatedUnion {u : UnionSpec} {props : UInt8} {n : Nat} (h : K (.union u) n) :
      Operands K (.union u) .encapsulatedUnion [.byte props, .word n] []
  | switchedUnion {u : UnionSpec} {props : UInt8} {field n : Nat} (h : K (.union u) n) :
      Operands K (.union u) .switchedUnion [.byte props, .word field, .word n] []
  | pointer {kind : PointerKind} {t : TypeSpec} {props : UInt8} {n : Nat} (h : K (.stream t) n) :
      Operands K (.pointer kind t) (.pointer kind) [.byte props, .word n] []
  | conversion {kind : ConversionKind} {routine : UInt32} {t : TypeSpec} {props : UInt8} {n : Nat}
      (h : K (.stream t) n) : Operands K (.converted kind routine t) (.conversion kind)
        [.byte props, .word routine.toNat, .word n] []
  | pipe {t : TypeSpec} {props : UInt8} {n : Nat} (h : K (.stream t) n) :
      Operands K (.pipe t) .pipe [.byte props, .word n] []

/-- A list of opcodes, short of its end, and what they spell. -/
inductive Code (K : Kind → Nat → Prop) : List Item → List Entry → Prop where
  | nil : Code K [] []
  | close {items : List Item} {es : List Entry} (rest : Code K items es) :
      Code K (.close :: items) (.byte Opcode.endNested.toByte :: es)
  | cons {t : TypeSpec} {op : Opcode} {more items : List Item} {operands es : List Entry}
      (first : Operands K t op operands more) (rest : Code K (more ++ items) es) :
      Code K (.type t :: items) (.byte op.toByte :: (operands ++ es))

/-- An arm leads to the stream of one of some types, or nowhere. -/
def ArmLeads (K : Kind → Nat → Prop) (ts : List TypeSpec) (arm : ArmRecord) : Prop :=
  arm.kind = Opcode.void.toByte ∨ arm.kind = Opcode.noArm.toByte ∨ ∃ t ∈ ts, K (.stream t) arm.stream

/-- The limits of an array that travel. -/
def limitsOf (s : ArraySpec) : List BoundPair := if s.kind.isVarying then s.limits else []

/-- The entries of one record. -/
inductive Forms (K : Kind → Nat → Prop) : Kind → List Entry → Prop where
  | stream {t : TypeSpec} {code : List Entry} (hcode : Code K [.type t] code) :
      Forms K (.stream t) (code ++ [eol])
  | array {s : ArraySpec} {dims a b c : UInt8} {code : List Entry}
      (hpairs : s.bounds.length = dims.toNat)
      (hlimits : s.kind.isVarying → s.limits.length = dims.toNat)
      (hcode : Code K [.type s.element] code) :
      Forms K (.array s) (.byte dims :: .byte a :: .byte b :: .byte c ::
        (ofPairs s.bounds ++ (ofPairs (limitsOf s) ++ (code ++ [eol]))))
  | union {u : UnionSpec} {op : Opcode} {flags align a : UInt8} {n : Nat}
      {arms : List (UInt32 × ArmRecord)} (hn : arms.length = n + 1)
      (harms : ∀ p ∈ arms, ArmLeads K u.armTypes p.2) :
      Forms K (.union u) (.byte op.toByte :: .byte flags :: .byte align :: .byte a :: .word n ::
        ofArms arms)
  | struct {s : StructSpec} {align props a b : UInt8} {layout : Nat} {operand : Entry}
      {code : List Entry} (hoperand : (∃ v, operand = .word v) ∨ ∃ id, operand = .tail id)
      (hcode : Code K (s.fields.map .type) code) :
      Forms K (.struct s) (.byte align :: .byte props :: .byte a :: .byte b :: .word layout ::
        operand :: (code ++ [eol]))
  | parameters {ps : List (UInt32 × TypeSpec)} {qs : List (UInt32 × List Entry)}
      (hqs : List.Forall₂ (fun p q => Code K [.type p.2] q.2) ps qs) :
      Forms K (.parameters ps) (.word qs.length :: ofParameters qs)

/-! #### More to refer to -/

section

variable {K K' : Kind → Nat → Prop} {es es' : List Entry} {items items' : List Item}

theorem Operands.mono (hK : ∀ k n, K k n → K' k n) {t : TypeSpec} {op : Opcode}
    (h : Operands K t op es items) : Operands K' t op es items := by
  cases h with
  | bare h => exact .bare h
  | range => exact .range
  | freeRep => exact .freeRep
  | beginNested => exact .beginNested
  | struct => exact .struct
  | mark => exact .mark
  | array h => exact .array (hK _ _ h)
  | encapsulatedUnion h => exact .encapsulatedUnion (hK _ _ h)
  | switchedUnion h => exact .switchedUnion (hK _ _ h)
  | pointer h => exact .pointer (hK _ _ h)
  | conversion h => exact .conversion (hK _ _ h)
  | pipe h => exact .pipe (hK _ _ h)

theorem Code.mono (hK : ∀ k n, K k n → K' k n) (h : Code K items es) : Code K' items es := by
  induction h with
  | nil => exact .nil
  | close _ ih => exact .close ih
  | cons first _ ih => exact .cons (first.mono hK) ih

theorem Code.append (h : Code K items es) (h' : Code K items' es') :
    Code K (items ++ items') (es ++ es') := by
  induction h with
  | nil => exact h'
  | close _ ih => exact .close ih
  | @cons t op more items operands rest first _ ih =>
    rw [List.append_assoc] at ih
    rw [List.cons_append, List.cons_append, List.append_assoc]
    exact .cons first ih

/-- A type that is spelled by one opcode with its operands. -/
theorem Code.single {t : TypeSpec} {op : Opcode} (h : Operands K t op es []) :
    Code K [.type t] (.byte op.toByte :: es) := by
  have := Code.cons h .nil
  rwa [List.append_nil] at this

theorem ArmLeads.mono (hK : ∀ k n, K k n → K' k n) {ts : List TypeSpec} {arm : ArmRecord}
    (h : ArmLeads K ts arm) : ArmLeads K' ts arm :=
  h.imp id (Or.imp id fun ⟨t, ht, hn⟩ => ⟨t, ht, hK _ _ hn⟩)

theorem Forms.mono (hK : ∀ k n, K k n → K' k n) {kind : Kind} (h : Forms K kind es) :
    Forms K' kind es := by
  cases h with
  | stream h => exact .stream (h.mono hK)
  | array hpairs hlimits h => exact .array hpairs hlimits (h.mono hK)
  | union hn harms => exact .union hn fun p hp => (harms p hp).mono hK
  | struct hoperand h => exact .struct hoperand (h.mono hK)
  | parameters hqs => exact .parameters (hqs.imp fun _ _ h => h.mono hK)

/-! #### What is filled in -/

/-- Only the definition of a struct has a word for the array at its end. -/
theorem Code.tail?_eq_none (h : Code K items es) : ∀ e ∈ es, e.tail? = none := by
  induction h with
  | nil => exact fun _ h => absurd h List.not_mem_nil
  | close _ ih => exact List.forall_mem_cons.2 ⟨rfl, ih⟩
  | cons first _ ih =>
    refine List.forall_mem_cons.2 ⟨rfl, List.forall_mem_append.2 ⟨?_, ih⟩⟩
    cases first <;> simp [Entry.tail?]

theorem tails_eq_nil {position : Nat} (h : ∀ e ∈ es, e.tail? = none) : tails position es = [] := by
  induction es generalizing position with
  | nil => rfl
  | cons e es ih =>
    rw [List.forall_mem_cons] at h
    simp only [tails, spots, List.filterMap_cons, h.1, Option.map_none]
    exact ih h.2

theorem tail?_ofPairs (pairs : List BoundPair) : ∀ e ∈ ofPairs pairs, e.tail? = none := by
  intro e he
  obtain ⟨p, -, he⟩ := List.mem_flatMap.1 he
  simp only [BoundPair.entries, Bound.entries, List.mem_append, List.mem_cons, List.not_mem_nil,
    or_false] at he
  rcases he with (rfl | rfl | rfl | rfl | rfl) | (rfl | rfl | rfl | rfl | rfl) <;> rfl

theorem tail?_ofArms (arms : List (UInt32 × ArmRecord)) : ∀ e ∈ ofArms arms, e.tail? = none := by
  intro e he
  obtain ⟨p, -, he⟩ := List.mem_flatMap.1 he
  simp only [ArmRecord.entries, List.mem_cons, List.not_mem_nil, or_false] at he
  rcases he with rfl | rfl | rfl | rfl | rfl | rfl | rfl <;> rfl

theorem Forms.tails_eq_nil {kind : Kind} {position : Nat} (h : Forms K kind es)
    (hkind : ∀ s, kind ≠ .struct s) : tails position es = [] := by
  refine Entries.tails_eq_nil ?_
  cases h with
  | stream h => simpa [Entry.tail?, or_imp, forall_and] using h.tail?_eq_none
  | @array s _ _ _ _ _ _ _ h =>
    have h1 := tail?_ofPairs s.bounds
    have h2 := tail?_ofPairs (limitsOf s)
    have h3 := h.tail?_eq_none
    simp only [List.forall_mem_cons, List.forall_mem_append]
    exact ⟨rfl, rfl, rfl, rfl, h1, h2, h3, rfl, fun _ h => absurd h List.not_mem_nil⟩
  | @union _ _ _ _ _ _ arms =>
    simp only [List.forall_mem_cons]
    exact ⟨rfl, rfl, rfl, rfl, rfl, tail?_ofArms arms⟩
  | struct => exact absurd rfl (hkind _)
  | @parameters ps qs hqs =>
    refine List.forall_mem_cons.2 ⟨rfl, fun e he => ?_⟩
    obtain ⟨q, hq, he⟩ := List.mem_flatMap.1 he
    rcases List.mem_cons.1 he with rfl | he
    · rfl
    · rcases List.mem_append.1 he with he | he
      · obtain ⟨p, -, hcode⟩ := exists_of_forall₂ hqs.flip hq
        exact hcode.tail?_eq_none e he
      · rw [List.mem_singleton.1 he]
        rfl

end

end Entries

end Ndr
