import Ndr.Proofs.Lockstep.Operation
import Ndr.Proofs.Lockstep.Tail
import Ndr.Proofs.Lockstep.Union
import Ndr.Proofs.Lockstep.Walk

/-!
Aggregates without pointers: structs, arrays, strings and unions that a machine has written are read
back as they were.
-/

namespace Ndr

open Lockstep

/-- Whether a type can hold the extents that travel ahead of the struct that ends with it. -/
def Descriptor.isOpen (d : Descriptor) : Bool :=
  match d.form with
  | .array kind .. => kind.isConformant
  | .struct kind .. => kind ≠ .fixed
  | _ => false

/-- The definition of a union. -/
def TypeForm.unionAt? : TypeForm → Option Nat
  | .encapsulatedUnion _ definition | .switchedUnion _ _ definition => some definition
  | _ => none

/-! ### What is sent -/

/-- The types and values that are sent for some parameters, each with the scope in which its bounds are
looked up, and how deep descriptors may open within it. The end of a conformant struct opens
with the struct. -/
inductive Sent (env : Marshal.Env) (list : List Parameter) (params : List Value) :
    Nat → Frame → Descriptor → Value → Prop where
  | parameter {p : Parameter} {v : Value} (hp : p ∈ list) (hv : params[p.index]? = some v) :
      Sent env list params env.config.maxNesting (.ofParameters env.heap list params)
        p.descriptor v
  | field {room k slot definition : Nat} {F : Frame} {d f : Descriptor} {slots : List Value}
      {kind : StructKind} {props : UInt8} {s : StructDefinition} {scope : Scope} {v : Value}
      (h : Sent env list params (room + 1) F d (.struct slots))
      (hd : d.form = .struct kind props definition)
      (hs : env.vector.structDefinition definition = .ok s)
      (hscope : Marshal.scopeOf env s.layout s.fields slots = .ok scope)
      (hf : (s.fields.filter Descriptor.isField)[k]? = some f)
      (hk : env.interface.layout.slot s.layout k = .ok slot) (hv : slots[slot]? = some v) :
      Sent env list params
        (if kind ≠ .fixed ∧ k + 1 = (s.fields.filter Descriptor.isField).length ∧ f.isOpen
          then room + 1 else room) (.ofStruct hscope) f v
  | nestedField {room align layout k slot : Nat} {F : Frame} {d f : Descriptor}
      {slots : List Value} {fields : List Descriptor} {scope : Scope} {v : Value}
      (h : Sent env list params (room + 1) F d (.struct slots))
      (hd : d.form = .nested align layout fields)
      (hscope : Marshal.scopeOf env layout fields slots = .ok scope)
      (hf : (fields.filter Descriptor.isField)[k]? = some f)
      (hk : env.interface.layout.slot layout k = .ok slot) (hv : slots[slot]? = some v) :
      Sent env list params room (.ofStruct hscope) f v
  | element {room dims definition k : Nat} {F : Frame} {d : Descriptor} {elements : List Value}
      {kind : ArrayKind} {props : UInt8} {a : ArrayDefinition} {shape : Shape} {v : Value}
      (h : Sent env list params (room + 1) F d (.array elements))
      (hd : d.form = .array kind props dims definition) (hstring : d.modifiers.isString = false)
      (ha : env.vector.arrayDefinition definition kind.isVarying = .ok a)
      (hshape : Marshal.shapeOf a kind false elements F.scope = .ok shape)
      (hk : k ∈ shape.indices) (hv : elements[k]? = some v) :
      Sent env list params room F a.element v
  | arm {room definition offset : Nat} {F : Frame} {d e : Descriptor} {switch : Int64}
      {u : UnionDefinition} {found : Option Arm} {v : Value}
      (h : Sent env list params (room + 1) F d (.union switch v))
      (hd : d.form.unionAt? = some definition)
      (hu : env.vector.unionDefinition definition = .ok u)
      (harm : env.vector.findArm u switch.toInt = .ok found)
      (hfound : found.bind Arm.stream? = some offset) (he : env.vector.stream offset = .ok e) :
      Sent env list params room F e v

/-! ### Types -/

/-- The limits of a string: its text is sent from the first element on. -/
def Dimension.OfText (dim : Dimension) : Prop :=
  ∃ l, dim.limits = some l ∧ l.lower.kind = .fixed ∧ l.lower.constant = 0 ∧ l.upper.kind = .string

/-- The types of aggregates in a scope: scalars without a range, structs whose fields take all their
slots, arrays whose bounds are found in time, strings, unions, and markers. -/
def Descriptor.IsAggregate (i : Interface) (F : Frame) (d : Descriptor) : Prop :=
  match d.form with
  | .scalar _ => d.modifiers.range = none
  | .struct _ _ definition => ∀ s, i.vector.structDefinition definition = .ok s →
      i.layout.Covers s.layout (s.fields.countP Descriptor.isField)
  | .nested _ layout fields => i.layout.Covers layout (fields.countP Descriptor.isField)
  | .array kind _ _ definition => ∀ a, i.vector.arrayDefinition definition kind.isVarying = .ok a →
      (∀ dim ∈ a.dimensions, DimensionHolds F dim) ∧ (d.modifiers.isString →
        (∀ dim ∈ a.dimensions, dim.OfText) ∧ a.element.modifiers.range = none)
  | .encapsulatedUnion .. => True
  | .switchedUnion _ field _ => F.readable field ∧ field < 2 ^ 32
  | .align _ => True
  | _ => False

/-! ### Values -/

/-- What is asked of the elements of an array that is to be read back: there are as many as its extents
say, or no terminator among the characters of a string; no more than a reader takes or fills in;
and zeros where they are not sent. A run of bytes that is a part of its array is read byte by
byte, so it does not stand at the innermost level. -/
structure ArrayFaithful (env : Unmarshal.Env) (room : Nat) (isString : Bool) (a : ArrayDefinition)
    (shape : Shape) (elements : List Value) : Prop where
  total : ∃ total, shape.total = .ok total ∧ total ≤ env.config.maxElements
  text : isString → ∀ v ∈ elements, v.isTerminator = false
  length : isString = false → shape.total = .ok elements.length
  part : isString = false → shape.isFull = false → PartHolds env a.element shape elements
  bytes : isString = false → shape.isFull = false → a.element.byteElement?.isSome → room ≠ 1

/-- What is asked of a union that is to be read back: one of two values of a boolean switch, and void
where no arm is found that holds anything. -/
structure UnionFaithful (env : Marshal.Env) (u : UnionDefinition) (switch : Int) (v : Value) :
    Prop where
  boolean : u.switch = .boolean → switch = 0 ∨ switch = 1
  arm : ∀ found, env.vector.findArm u switch = .ok found → found.bind Arm.stream? = none → v = .void

/-- What is asked of the values that are sent. -/
structure Faithful (env : Marshal.Env) (env' : Unmarshal.Env) (list : List Parameter)
    (params : List Value) : Prop where
  marker : ∀ {room F d v}, Sent env list params room F d v → d.isField = false → v = .void
  array : ∀ {room F d elements kind props dims definition a shape},
    Sent env list params room F d (.array elements) →
    d.form = .array kind props dims definition →
    env.vector.arrayDefinition definition kind.isVarying = .ok a →
    Marshal.shapeOf a kind d.modifiers.isString elements F.scope = .ok shape →
    ArrayFaithful env' room d.modifiers.isString a shape elements
  union : ∀ {room F d switch v definition u},
    Sent env list params room F d (.union switch v) → d.form.unionAt? = some definition →
    env.vector.unionDefinition definition = .ok u → UnionFaithful env u switch.toInt v

namespace Lockstep

/-- What travels: what is sent, the terminators of strings, and markers. -/
def Travels (env : Marshal.Env) (list : List Parameter) (params : List Value) (room : Nat)
    (d : Descriptor) (v : Value) (F : Frame) : Prop :=
  Sent env list params room F d v ∨
    (d.modifiers.range = none ∧ ∃ kind, d.form = .scalar kind) ∨ d.isField = false ∧ v = .void

section

variable {env : Marshal.Env} {list : List Parameter} {params : List Value} {T : Terms} {N : Naming}
  {room : Nat} {F : Frame} {d : Descriptor} {v : Value} {side : Side} {previous : NodeTable}
  (htypes : ∀ {room F d v}, Sent env list params room F d v → d.IsAggregate env.interface F)
  (hvalues : Faithful env (env.receiver side previous) list params)

include htypes hvalues

/-- An array that is sent is as it takes to read it back. -/
theorem arrayValueHolds_of_sent (h : Sent env list params (room + 1) F d v) {kind : ArrayKind}
    {props : UInt8} {dims definition : Nat} (hd : d.form = .array kind props dims definition) :
    ArrayValueHolds env (env.receiver side previous) (Travels env list params room) room F
      d.modifiers kind definition v := by
  rintro a elements shape ha rfl hshape
  have htype := htypes h
  simp only [Descriptor.IsAggregate, hd] at htype
  obtain ⟨hdims, htext⟩ := htype a ha
  have hv := hvalues.array h hd ha hshape
  refine ⟨hdims, hv.total, ?_⟩
  cases hstring : d.modifiers.isString with
  | true =>
    obtain ⟨hlimits, hrange⟩ := htext hstring
    exact ⟨hlimits, hv.text hstring, fun kind hk v _ =>
      .inr (.inl ⟨hrange, kind, (characterKind_eq_ok hk).2.1⟩)⟩
  | false =>
    rw [hstring] at hshape
    exact ⟨hv.length hstring, fun k hk v hkv => .inl (.element h hd hstring ha hshape hk hkv),
      fun hfull => ⟨hv.part hstring hfull, fun hbyte =>
        Nat.pos_of_ne_zero fun h0 => hv.bytes hstring hfull hbyte (by rw [h0])⟩⟩

omit htypes in
/-- A union that is sent is as it takes to read it back. -/
theorem unionHolds_of_sent (h : Sent env list params (room + 1) F d v) {definition : Nat}
    (hd : d.form.unionAt? = some definition) :
    UnionHolds env (Travels env list params room) F definition v := by
  rintro u switch arm hu rfl
  obtain ⟨hswitch, harm⟩ := hvalues.union h hd hu
  refine ⟨hswitch, fun found hfound => ?_⟩
  unfold ArmHolds
  cases hstream : found.bind Arm.stream? with
  | none => exact harm found hfound hstream
  | some offset => exact fun e he => .inl (.arm h hd hu hfound hstream he)

omit htypes hvalues in
/-- What is asked of the fields of a struct whose extents do not travel. -/
theorem fieldsHold_of_sent {slots : List Value} (h : Sent env list params (room + 1) F d (.struct slots))
    {props : UInt8} {definition : Nat} (hd : d.form = .struct .fixed props definition)
    {s : StructDefinition} (hs : env.vector.structDefinition definition = .ok s) {scope : Scope}
    (hscope : Marshal.scopeOf env s.layout s.fields slots = .ok scope) :
    FieldsHold env (Travels env list params room) (Travels env list params room) s.layout slots
      (.ofStruct hscope) 0 s.fields := by
  refine fieldsHold_of_forall (fun k f w hf hw => .inl ?_) fun f _ hf => .inr (.inr ⟨hf, rfl⟩)
  obtain ⟨slot, hk, hslot⟩ := Marshal.slotValue_eq_ok.1 hw
  rw [Nat.zero_add] at hk
  have hsent := Sent.field h hd hs hscope hf hk hslot
  rwa [if_neg (by simp)] at hsent

omit htypes hvalues in
/-- The fields of a struct that ends with an array: all but the last are ahead of it, and the last is
the end. -/
theorem fieldsHold_of_last {slots : List Value} {L : Descriptor → Value → Frame → Prop}
    (h : Sent env list params (room + 1) F d (.struct slots)) {kind : StructKind} {props : UInt8}
    {definition : Nat} (hkind : kind ≠ .fixed) (hd : d.form = .struct kind props definition)
    {s : StructDefinition} (hs : env.vector.structDefinition definition = .ok s) {scope : Scope}
    (hscope : Marshal.scopeOf env s.layout s.fields slots = .ok scope) {f : Descriptor} {held : Value}
    (hlast : (s.fields.filter Descriptor.isField).getLast? = some f)
    (hheld : Marshal.slotValue env s.layout slots ((s.fields.filter Descriptor.isField).length - 1)
      = .ok held) (hopen : f.isOpen)
    (hL : Sent env list params (room + 1) (.ofStruct hscope) f held → L f held (.ofStruct hscope)) :
    FieldsHold env (Travels env list params room) L s.layout slots (.ofStruct hscope) 0 s.fields := by
  refine fieldsHold_of_split (fun k g w hg hw => ?_) fun f _ hf => .inr (.inr ⟨hf, rfl⟩)
  rw [Nat.zero_add] at hw
  obtain ⟨slot, hk, hslot⟩ := Marshal.slotValue_eq_ok.1 hw
  have hsent := Sent.field h hd hs hscope hg hk hslot
  refine ⟨fun hlt => .inl ?_, fun hend => ?_⟩
  · rwa [if_neg fun hall => Nat.ne_of_lt hlt hall.2.1] at hsent
  · rw [← hend, Nat.add_sub_cancel] at hheld
    rw [List.getLast?_eq_getElem?, ← hend, Nat.add_sub_cancel] at hlast
    obtain rfl := Option.some.inj (hlast.symm.trans hg)
    obtain rfl := Except.ok.inj (hheld.symm.trans hw)
    rw [if_pos ⟨hkind, hend, hopen⟩] at hsent
    exact hL hsent

/-- What is asked of the fields of a struct that ends with a conformant array of this shape. -/
theorem fieldsHold_of_trails {trailing levels : Nat} {v1 : Bool} {shape : Shape}
    {s : StructDefinition} {slots : List Value} {scope : Scope}
    (ht : Marshal.Trails env trailing v1 shape levels s slots scope)
    (h : Sent env list params (room + 1) F d (.struct slots)) {kind : StructKind} {props : UInt8}
    {definition : Nat} (hkind : kind ≠ .fixed) (hd : d.form = .struct kind props definition)
    (hs : env.vector.structDefinition definition = .ok s)
    (hscope : Marshal.scopeOf env s.layout s.fields slots = .ok scope) :
    FieldsHold env (Travels env list params room)
      (TailHolds env (env.receiver side previous) (Travels env list params room) room shape levels)
      s.layout slots (.ofStruct hscope) 0 s.fields := by
  induction ht generalizing F d kind props definition with
  | @array levels dims props' s slots scope f held akind a elements hlast hform hconf hheld hparts
      hshape hv1 =>
    refine fieldsHold_of_last h hkind hd hs hscope hlast hheld
      (by simpa [Descriptor.isOpen, hform] using hconf) fun hsent => ?_
    unfold TailHolds
    simp only [hform, hconf, if_true]
    refine ⟨arrayValueHolds_of_sent htypes hvalues hsent hform, fun a' elements' hparts' => ?_⟩
    obtain ⟨rfl, rfl⟩ := Prod.mk.inj (Except.ok.inj (hparts.symm.trans hparts'))
    exact hshape
  | @struct levels inner props' s s' slots slots' scope scope' f held kind' hlast hform hkind' hheld
      hparts ht ih =>
    refine fieldsHold_of_last h hkind hd hs hscope hlast hheld
      (by simpa [Descriptor.isOpen, hform] using hkind') fun hsent => ?_
    obtain ⟨hs', rfl, hscope'⟩ := Marshal.structParts_eq_ok hparts
    unfold TailHolds
    simp only [hform, if_neg hkind']
    intro s'' hs'' slots'' scope'' hslots hscope''
    obtain rfl := Except.ok.inj (hs'.symm.trans hs'')
    obtain rfl := Value.struct.inj hslots
    obtain rfl := Except.ok.inj (hscope'.symm.trans hscope'')
    have htype := htypes hsent
    simp only [Descriptor.IsAggregate, hform] at htype
    exact ⟨htype _ hs', ih hsent hkind' hform hs' hscope'⟩

variable (side previous) in
/-- Aggregates that are written are read back, however deep their types may nest. -/
theorem lockedWalks_aggregate (room : Nat) :
    LockedWalks env T N (fun d v F => Travels env list params room d v F) (Marshal.walk env room)
      (Unmarshal.walk (env.receiver side previous) room) := by
  induction room with
  | zero => exact lockedWalks_zero
  | succ room ih =>
    refine lockedWalks_succ fun {d v F G x y} hP hm => ?_
    obtain ⟨offset, modifiers, form⟩ := d
    rcases hP with hsent | ⟨hrange, kind, hform⟩ | ⟨hmarker, rfl⟩
    · have htype := htypes hsent
      cases form with
      | scalar kind => exact locked_scalar (checkRange_of_none htype)
      | struct kind props definition => 
        by_cases hkind : kind = .fixed
        · subst hkind
          refine locked_putStruct_fixed side previous ih fun s hs slots scope hv hscope => ?_
          subst hv
          exact ⟨htype s hs, fieldsHold_of_sent hsent rfl hs hscope⟩
        · refine locked_putStruct_open side previous ih hkind
            fun s slots scope trailing v1 shape hscope hs hv htrails => ?_
          subst hv
          exact ⟨htype s hs, fieldsHold_of_trails htypes hvalues htrails hsent hkind rfl hs hscope⟩
      | nested align layout fields =>
        refine locked_putNested side previous ih fun slots scope hv hscope => ?_
        subst hv
        refine ⟨htype, fieldsHold_of_forall (fun k f w hf hw => .inl ?_)
          fun f _ hf => .inr (.inr ⟨hf, rfl⟩)⟩
        obtain ⟨slot, hk, hslot⟩ := Marshal.slotValue_eq_ok.1 hw
        rw [Nat.zero_add] at hk
        exact .nestedField hsent rfl hscope hf hk hslot
      | array kind props dims definition =>
        exact locked_putArray side previous ih hm none (fun _ hs => nomatch hs)
          (arrayValueHolds_of_sent htypes hvalues hsent rfl)
      | encapsulatedUnion props definition =>
        exact locked_putUnion side previous ih hm (fun _ hk => nomatch hk)
          (unionHolds_of_sent hvalues hsent rfl)
      | switchedUnion props field definition =>
        exact locked_putUnion side previous ih hm (fun _ hk => Option.some.inj hk ▸ htype)
          (unionHolds_of_sent hvalues hsent rfl)
      | align boundary =>
        obtain rfl := hvalues.marker hsent rfl
        exact locked_align boundary.toNat
      | pointer | ignore | converted | pipe | context | deletedNodes | void | unhosted =>
        exact htype.elim
    · obtain rfl : form = .scalar kind := hform
      exact locked_scalar (checkRange_of_none hrange)
    · cases form with
      | align boundary => exact locked_align boundary.toNat
      | _ => exact absurd hmarker (by simp [Descriptor.isField])

omit htypes hvalues in
/-- No pointer is written under the type of an aggregate. -/
theorem ne_pointer_of_written {i : Interface} {x : Site Scope} {s t : Marshal.State} {a : Unit}
    (e : Marshal.walk env room d v x s = .ok a t) (hd : d.IsAggregate i F) (hfield : d.isField)
    (c : CellId) : v ≠ .pointer (some c) := by
  rintro rfl
  cases room with
  | zero => exact throw_ne_ok e
  | succ room =>
    obtain ⟨_, s1, h1, -⟩ := bind_eq_ok.1 e
    obtain ⟨offset, modifiers, form⟩ := d
    cases form with
    | scalar kind => exact absurd e (walk_scalar_ne_ok rfl (by cases kind <;> rfl) _ _ _)
    | struct kind props definition =>
      obtain ⟨⟨s, slots, scope⟩, _, h2, -⟩ := bind_eq_ok.1 h1
      obtain ⟨-, hstruct, -⟩ := Marshal.structParts_eq_ok (lift_eq_ok.1 h2).1
      exact absurd hstruct (by simp)
    | nested align layout fields =>
      obtain ⟨slots, _, h2, -⟩ := bind_eq_ok.1 h1
      exact absurd (Marshal.structSlots_eq_ok (lift_eq_ok.1 h2).1) (by simp)
    | array kind props dims definition =>
      obtain ⟨⟨a, elements⟩, _, h2, -⟩ := bind_eq_ok.1 h1
      exact absurd (Marshal.arrayParts_eq_ok (lift_eq_ok.1 h2).1).2.2 (by simp)
    | encapsulatedUnion | switchedUnion =>
      obtain ⟨u, _, -, h3⟩ := bind_eq_ok.1 h1
      exact throw_ne_ok h3
    | align boundary => exact absurd hfield (by simp [Descriptor.isField])
    | pointer | ignore | converted | pipe | context | deletedNodes | void | unhosted => exact hd

end

end Lockstep

/-! ### Machines -/

/-- What was read of aggregates: the values of the list are those that were written, the others are
the reader's, and nothing was allocated. -/
structure AggregateArrived (list : List Parameter) (params params' : List Value) (before : Heap)
    (tail : List UInt8) (out : Outcome Source (List Value)) : Prop where
  values : ∃ ws, out.result = .ok ws ∧ ws.length = params.length ∧
    (∀ p ∈ list, ws[p.index]? = params[p.index]?) ∧
    ∀ i, (∀ p ∈ list, p.index ≠ i) → ws[i]? = params'[i]?
  unread : out.transport.unread = tail
  cells : out.surroundings.heap.cells.size = before.cells.size

section

variable {m m' : Machine} {world world' : Surroundings} {offset n : Nat}
  {params params' : List Value} {sink : Sink} {list : List Parameter}

/-- The parameters of a list that was written give integers to their scope, or none, but no cells. -/
theorem readable_ofParameters (hlist : m.interface.vector.parameters offset = .ok list)
    (e : (m.marshal world offset params sink).result = .ok n)
    (htypes : ∀ p ∈ list, ∃ F, p.descriptor.IsAggregate m.interface F)
    (hmarker : ∀ p ∈ list, ∀ v, params[p.index]? = some v → p.descriptor.isField = false → v = .void)
    {k : Nat} (hk : ∃ p ∈ list, p.index = k) :
    (Frame.ofParameters world.heap list params).readable k := by
  refine ⟨hk, fun c hc => ?_⟩
  obtain ⟨p, hp, rfl⟩ := hk
  obtain ⟨F, htype⟩ := htypes p hp
  cases hfield : p.descriptor.isField with
  | false => exact absurd (hmarker p hp _ hc hfield) (by simp)
  | true =>
    obtain ⟨t, hput, -⟩ := marshal_eq_ok e
    obtain ⟨list', s1, h1, e1⟩ := bind_eq_ok.1 hput
    obtain ⟨hlist', -⟩ := lift_eq_ok.1 h1
    obtain rfl := Except.ok.inj (hlist.symm.trans hlist')
    refine forM_ne_ok hp (fun s b t hwrite => ?_) _ _ _ e1
    simp only [hc] at hwrite
    obtain ⟨_, s2, h2, -⟩ := bind_eq_ok.1 hwrite
    exact ne_pointer_of_written h2 htype hfield c rfl

/-- **Aggregates that a machine has written, its partner reads.** The types that are sent may be any
scalars without a range, structs, arrays, strings and unions without pointers. -/
theorem aggregate_arrived (hm : m.Matches m') (hc : m.config.check = .ok ())
    (hlist : m.interface.vector.parameters offset = .ok list)
    (hnodup : (list.map Parameter.index).Nodup) (hlen : params'.length = params.length)
    (hlimit : world'.heap.limit = none)
    (htypes : ∀ room F d v, Sent (m.writing world) list params room F d v →
      d.IsAggregate m.interface F)
    (hvalues : Faithful (m.writing world) ((m.writing world).receiver m'.side m'.nodes) list params)
    (e : (m.marshal world offset params sink).result = .ok n) :
    ∃ wire, wire.length = n ∧
      (m.marshal world offset params sink).transport.message = sink.message ++ wire ∧
      ∀ source tail, source.bytes = wire ++ tail → AggregateArrived list params params'
        world'.heap tail (m'.unmarshal world' offset params' source) := by
  let T : Terms :=
    { value := fun d v F => Travels (m.writing world) list params m.config.maxNesting d v F
      cell := fun _ => False }
  have hT : ∀ p ∈ list, ∀ v, params[p.index]? = some v →
      ParameterHolds T (.ofParameters world.heap list params) p.descriptor v := by
    intro p hp v hv
    have hsent : Sent (m.writing world) list params _ _ _ v := .parameter hp hv
    have htype := htypes _ _ _ _ hsent
    unfold Descriptor.IsAggregate at htype
    refine ⟨fun props element h => ?_, fun direction h => ?_, .inl hsent⟩
    · rw [h] at htype
      exact htype
    · rw [h] at htype
      exact htype
  obtain ⟨wire, N, hn, hmessage, hbase, hnumbered, harrived⟩ := arrived (T := T) hm hc hlist hnodup
    hlen (fun _ _ => hlimit) e (fun N => lockedWalks_aggregate m'.side m'.nodes (htypes _ _ _ _) hvalues _) hT
  refine ⟨wire, hn, hmessage, fun source tail hsource => ?_⟩
  obtain ⟨⟨ws, hws, hwlen, hcopies, hothers⟩, hunread, hsize, hreached, -⟩ :=
    harrived source tail hsource
  refine ⟨⟨ws, hws, by rw [hwlen, hlen], fun p hp => ?_, hothers⟩, hunread, ?_⟩
  · obtain ⟨v, w, hv, hw, hcopy⟩ := hcopies p hp
    -- no cell is known, so the copy is the value itself
    rw [hv, hw, hcopy.eq, Value.rename_eq_self fun c hc => (hreached c (hcopy.knows c hc)).elim]
  · have hnone : N.table.assigned = 0 := by
      by_contra hpos
      obtain ⟨c, hc⟩ := Option.isSome_iff_exists.1 ((hnumbered.range 1).2 ⟨Nat.one_pos, by omega⟩)
      exact hreached c ⟨1, hnumbered.cellOf?_iff.1 hc⟩
    rw [hsize, hbase, hnone, Nat.add_zero]

end

end Ndr
