import Ndr.Proofs.Aggregate
import Ndr.Proofs.Assembly.Reference

/-!
Aggregates of assembled types: what a machine writes of structs, arrays, strings and unions along a
parameter list that was assembled, its partner reads.
-/

namespace Ndr

open Lockstep

/-! ### Types of aggregates -/

theorem Bound.fits_ofConstant (v : Int32) : (ofConstant v).Fits :=
  ⟨show BoundKind.fixed < 16 by decide, show (0 : UInt8) &&& _ = 0 by decide⟩

theorem Bound.fits_ofString (characterSize : UInt8) : (ofString characterSize).Fits :=
  ⟨show BoundKind.string < 16 by decide, show (0 : UInt8) &&& _ = 0 by decide⟩

/-- The bounds of an array, and those of the part of it that is sent. -/
def ArraySpec.allBounds (s : ArraySpec) : List Bound :=
  (s.bounds ++ s.limits).flatMap fun p => [p.lower, p.upper]

theorem ArraySpec.mem_allBounds {s : ArraySpec} {p : BoundPair} (h : p ∈ s.bounds ++ s.limits) :
    p.lower ∈ s.allBounds ∧ p.upper ∈ s.allBounds :=
  ⟨List.mem_flatMap.2 ⟨p, h, by simp⟩, List.mem_flatMap.2 ⟨p, h, by simp⟩⟩

/-- An array, but no string, that can be read ahead of the fields that its bounds name: it is known
where it begins, and no bound asks for its field early. -/
structure ArraySpec.Relaxed (s : ArraySpec) : Prop where
  string : s.string = false
  lower : ∀ p ∈ s.bounds, p.lower.kind = .fixed
  fits : ∀ b ∈ s.allBounds, b.Fits
  early : ∀ b ∈ s.allBounds, b.hasFlag BoundFlag.early = false

/-- The types of aggregates: scalars without a range, structs, arrays, strings and unions, none with
pointers, and markers. -/
inductive TypeSpec.IsAggregate : TypeSpec → Prop where
  | scalar (kind : Scalar) : IsAggregate (.scalar kind)
  | struct (id : StructId) : IsAggregate (.struct id)
  | nested {s : StructSpec} (hslots : s.Permutes) (hfields : ∀ t ∈ s.fields, t.IsAggregate) :
      IsAggregate (.nested s)
  | array {s : ArraySpec} (hs : s.Relaxed) (helement : s.element.IsAggregate) :
      IsAggregate (.array s)
  | string (character : Scalar) : IsAggregate (.array (.ofString character))
  | v1String (n : UInt32) (character : Scalar) : IsAggregate (.array (.ofV1String n character))
  | union {u : UnionSpec} (harms : ∀ t ∈ u.armTypes, t ≠ .void → t.IsAggregate) :
      IsAggregate (.union u)
  | align (boundary : Nat) : IsAggregate (.align boundary)

theorem TypeSpec.plain_of_leaf {t : TypeSpec} (hop : ∀ op, t ≠ .opcode op)
    (hfree : ∀ routine inner, t ≠ .freeRep routine inner) (harray : ∀ s, t ≠ .array s)
    (hparts : t.parts = []) : t.Plain :=
  .intro hop (fun _ _ h => absurd h (hfree _ _)) (fun _ h => absurd h (harray _)) (by simp [hparts])

theorem TypeSpec.IsAggregate.plain {t : TypeSpec} (h : t.IsAggregate) : t.Plain := by
  have hscalar : ∀ kind, (TypeSpec.scalar kind).Plain := fun _ =>
    plain_of_leaf (by simp) (by simp) (by simp) rfl
  induction h with
  | scalar kind => exact hscalar kind
  | struct | align => exact plain_of_leaf (by simp) (by simp) (by simp) rfl
  | nested _ _ ih => exact .intro (by simp) (by simp) (by simp) (by simpa [parts] using ih)
  | array hs _ ih =>
    refine .intro (by simp) (by simp) ?_ (by simpa [parts] using ih)
    rintro _ ⟨⟩ p hp
    obtain ⟨hlower, hupper⟩ := ArraySpec.mem_allBounds hp
    exact ⟨hs.fits _ hlower, hs.fits _ hupper⟩
  | string character =>
    refine .intro (by simp) (by simp) ?_ (by simpa [parts, ArraySpec.ofString] using hscalar _)
    rintro _ ⟨⟩ p hp
    simp only [ArraySpec.ofString, List.cons_append, List.nil_append, List.mem_cons,
      List.not_mem_nil, or_false, or_self] at hp
    exact hp ▸ ⟨Bound.fits_ofConstant _, Bound.fits_ofString _⟩
  | v1String n character =>
    refine .intro (by simp) (by simp) ?_ (by simpa [parts, ArraySpec.ofV1String] using hscalar _)
    rintro _ ⟨⟩ p hp
    simp only [ArraySpec.ofV1String, List.cons_append, List.nil_append, List.mem_cons,
      List.not_mem_nil, or_false] at hp
    rcases hp with rfl | rfl
    · exact ⟨Bound.fits_ofConstant _, Bound.fits_ofConstant _⟩
    · exact ⟨Bound.fits_ofConstant _, Bound.fits_ofString _⟩
  | @union u _ ih =>
    refine .intro (by simp) (by simp) (by simp) fun t ht => ?_
    by_cases hvoid : t = .void
    · subst hvoid
      exact plain_of_leaf (by simp) (by simp) (by simp) rfl
    · exact ih t ht hvoid

/-- A type names a field of the scope that it is met in: as a bound that is checked, or as what
selects an arm. -/
inductive TypeSpec.Names : TypeSpec → Nat → Prop where
  | bound {s : ArraySpec} {b : Bound} (hb : b ∈ s.allBounds) (hc : b.isChecked) :
      Names (.array s) b.field
  | switch {u : UnionSpec} {field : UInt32} (h : u.switchField = some field) :
      Names (.union u) field.toNat
  | element {s : ArraySpec} {k : Nat} (h : s.element.Names k) : Names (.array s) k
  | arm {u : UnionSpec} {t : TypeSpec} {k : Nat} (ht : t ∈ u.armTypes) (h : t.Names k) :
      Names (.union u) k

/-! ### Dimensions -/

theorem ArraySpec.mem_dimensions {s : ArraySpec} {dim : Dimension} (h : dim ∈ s.dimensions) :
    dim.bounds ∈ s.bounds ∧ ∀ l, dim.limits = some l → l ∈ s.limits := by
  unfold dimensions TypeVector.dimensionsOf at h
  split at h
  · obtain ⟨p, hp, rfl⟩ := List.mem_map.1 h
    exact ⟨hp, fun l hl => absurd hl (by simp)⟩
  · rename_i limits hlimits
    obtain ⟨⟨p, q⟩, hpq, rfl⟩ := List.mem_map.1 h
    obtain ⟨hp, hq⟩ := List.of_mem_zip hpq
    have hlimits : limits = s.limits := by
      split at hlimits
      · exact (Option.some.inj hlimits).symm
      · exact absurd hlimits (by simp)
    exact ⟨hp, fun l hl => Option.some.inj hl ▸ hlimits ▸ hq⟩

/-- The dimensions of a relaxed array, where the fields that its bounds name are read. -/
theorem ArraySpec.Relaxed.dimensionHolds {s : ArraySpec} (h : s.Relaxed) {F : Frame}
    (hnames : ∀ k, (TypeSpec.array s).Names k → F.readable k) {dim : Dimension}
    (hdim : dim ∈ s.dimensions) : DimensionHolds F dim := by
  have hbound : ∀ b ∈ s.allBounds, BoundHolds F b := fun b hb hc =>
    ⟨h.early b hb, hnames _ (.bound hb hc)⟩
  obtain ⟨hbounds, hlimits⟩ := mem_dimensions hdim
  refine ⟨h.lower _ hbounds, hbound _ (mem_allBounds (List.mem_append_left _ hbounds)).2,
    fun l hl => ?_⟩
  obtain ⟨hlower, hupper⟩ := mem_allBounds (List.mem_append_right _ (hlimits l hl))
  exact ⟨hbound _ hlower, hbound _ hupper⟩

/-- A dimension whose text tells how many characters are sent. -/
theorem dimensionHolds_ofText {F : Frame} {p : BoundPair} {size : UInt8}
    (hlower : p.lower.kind = .fixed) (hupper : ¬p.upper.isChecked) :
    DimensionHolds F ⟨p, some ⟨.ofConstant 0, .ofString size⟩⟩ ∧
      Dimension.OfText ⟨p, some ⟨.ofConstant 0, .ofString size⟩⟩ := by
  refine ⟨⟨hlower, fun hc => absurd hc hupper, ?_⟩, _, rfl, rfl, rfl, rfl⟩
  rintro _ ⟨⟩
  exact ⟨fun hc => absurd hc (by simp [Bound.isChecked, Bound.ofConstant]),
    fun hc => absurd hc (not_isChecked_of_string rfl)⟩

theorem ArraySpec.isString_modify (s : ArraySpec) : (s.modify {}).isString = s.string := by
  unfold modify Assembler.markOf
  cases s.string <;> cases s.v1 <;> rfl

/-! ### Arms -/

namespace TypeVector

variable {tv : TypeVector} {arm : Arm}

/-- A case that is found is one of those that are recorded. -/
theorem findCase_eq_ok {kind : Scalar} {switch : Int} {n offset : Nat}
    (h : tv.findCase kind switch n offset = .ok (some arm)) :
    ∃ k < n, tv.armAt (offset + k * armWidth) = .ok arm := by
  induction n generalizing offset with
  | zero => exact absurd h (by simp [findCase])
  | succ n ih =>
    obtain ⟨first, hfirst, h⟩ := Except.bind_eq_ok.1 h
    split at h
    · obtain rfl := Option.some.inj (Except.pure_eq_ok.1 h)
      exact ⟨0, Nat.zero_lt_succ n, by simpa using hfirst⟩
    · obtain ⟨k, hk, harm⟩ := ih h
      refine ⟨k + 1, Nat.succ_lt_succ hk, ?_⟩
      rwa [Nat.succ_mul, Nat.add_comm (k * armWidth), ← Nat.add_assoc]

/-- An arm that is found is one of those that are recorded, or the default behind them. -/
theorem findArm_eq_ok {u : UnionDefinition} {switch : Int}
    (h : tv.findArm u switch = .ok (some arm)) :
    ∃ k ≤ u.armCount, tv.armAt (u.armsAt + k * armWidth) = .ok arm := by
  obtain ⟨found, hfound, h⟩ := Except.bind_eq_ok.1 h
  cases found with
  | some first =>
    obtain rfl := Option.some.inj (Except.pure_eq_ok.1 h)
    obtain ⟨k, hk, harm⟩ := findCase_eq_ok hfound
    exact ⟨k, Nat.le_of_lt hk, harm⟩
  | none =>
    obtain ⟨last, hlast, h⟩ := Except.bind_eq_ok.1 h
    refine ⟨u.armCount, Nat.le_refl _, ?_⟩
    have h := Except.pure_eq_ok.1 h
    split at h
    · exact absurd h (by simp)
    · exact Option.some.inj h ▸ hlast

end TypeVector

namespace Assembler

section

variable {i : Interface} {a b : Assembler} {ts : List TypeSpec} {t : TypeSpec} {d e : Descriptor}
  {m : Modifiers}

theorem spells_of_arm {t : Option TypeSpec} {offset : Nat} (h : SpellsArm i a t (.stream offset))
    (he : i.vector.stream offset = .ok e) : ∃ u, t = some u ∧ u ≠ .void ∧ Spells i a {} u e := by
  cases h with
  | stream hvoid hstream hspells =>
    obtain rfl := Except.ok.inj (he.symm.trans hstream)
    exact ⟨_, rfl, hvoid, hspells⟩

theorem union_spelled {u : UnionSpec} {definition : Nat} (h : Spells i a m (.union u) d)
    (hd : d.form.unionAt? = some definition) : SpellsUnion i a u definition := by
  cases h with
  | encapsulated _ hunion | switched _ hunion => exact Option.some.inj hd ▸ hunion

/-- An arm that is selected is spelled. -/
theorem arm_spelled {u : UnionSpec} {definition offset : Nat} {switch : Int} {d : UnionDefinition}
    {found : Option Arm} (h : SpellsUnion i a u definition)
    (hd : i.vector.unionDefinition definition = .ok d)
    (harm : i.vector.findArm d switch = .ok found) (hfound : found.bind Arm.stream? = some offset)
    (he : i.vector.stream offset = .ok e) : ∃ t ∈ u.armTypes, t ≠ .void ∧ Spells i a {} t e := by
  obtain ⟨arm, rfl, hstream⟩ := Option.bind_eq_some_iff.1 hfound
  obtain ⟨k, hk, hat⟩ := TypeVector.findArm_eq_ok harm
  obtain ⟨-, hdefinition, ⟨-, -, hcount⟩, hats, -, harms, hdefault⟩ := h
  obtain rfl := Except.ok.inj (hd.symm.trans hdefinition)
  rw [hcount] at hk
  obtain rfl := Except.ok.inj (hat.symm.trans (hats k hk))
  have hbody := Arm.stream?_eq_some.1 hstream
  unfold UnionSpec.armTypes
  rcases Nat.lt_or_eq_of_le hk with hlt | rfl
  · have hget := List.getElem?_eq_getElem hlt
    have harm := harms k _ _ hget
    rw [hbody] at harm
    obtain ⟨t, ht, hvoid, hspells⟩ := spells_of_arm harm he
    refine ⟨t, List.mem_append_left _ (List.mem_filterMap.2 ⟨_, List.mem_of_getElem? hget, ht⟩), hvoid,
      hspells⟩
  · rw [hbody] at hdefault
    cases hd : u.default with
    | missing | empty =>
      rw [hd] at hdefault
      cases hdefault
    | arm t =>
      rw [hd] at hdefault
      cases hdefault with
      | arm harm =>
        obtain ⟨_, ht, hvoid, hspells⟩ := spells_of_arm harm he
        obtain rfl := Option.some.inj ht
        exact ⟨t, List.mem_append_right _ (List.mem_singleton_self t), hvoid, hspells⟩

/-! ### Descriptors that are sent -/

/-- The elements of an array that is an aggregate are spelled, and are aggregates. -/
theorem element_spelled {kind : ArrayKind} {props : UInt8} {dims definition : Nat}
    {x : ArrayDefinition} (ht : t.IsAggregate) (h : Spells i a {} t d)
    (hd : d.form = .array kind props dims definition)
    (hx : i.vector.arrayDefinition definition kind.isVarying = .ok x) :
    ∃ s, t = .array s ∧ s.element.IsAggregate ∧ Spells i a {} s.element x.element := by
  have harray : ∀ {s : ArraySpec}, Spells i a {} (.array s) d → Spells i a {} s.element x.element := by
    rintro s (_ | _)
    rename_i hdefinition hspells
    obtain ⟨rfl, -, -, rfl⟩ := TypeForm.array.inj hd
    obtain rfl := Except.ok.inj (hx.symm.trans hdefinition)
    exact hspells
  cases ht with
  | array _ helement => exact ⟨_, rfl, helement, harray h⟩
  | string character => exact ⟨_, rfl, .scalar character, harray h⟩
  | v1String n character => exact ⟨_, rfl, .scalar character, harray h⟩
  | _ => cases h <;> cases hd

section

variable {F : Frame} {routines : List Routine} (hspec : ∀ id, a.spec? id = b.spec? id)
  (hs : Settled i a a) (hg : b.Throughout TypeSpec.IsAggregate ts)

include hspec hs hg

omit hspec hs hg in
/-- A descriptor that spells a string is one of an aggregate. -/
theorem isAggregate_of_string {s : ArraySpec} {character : Scalar}
    (helement : s.element = .scalar character)
    (hdims : ∀ dim ∈ s.dimensions, DimensionHolds F dim ∧ dim.OfText)
    (h : Spells i a {} (.array s) d) : d.IsAggregate { i with routines } F := by
  cases h with
  | array hdefinition hspells =>
    intro d' hd'
    obtain rfl := Except.ok.inj (hd'.symm.trans hdefinition)
    refine ⟨fun dim hdim => (hdims dim hdim).1, fun _ => ⟨fun dim hdim => (hdims dim hdim).2, ?_⟩⟩
    rw [helement] at hspells
    cases hspells
    rfl

/-- A descriptor that spells the type of an aggregate is one of an aggregate, where the fields that
the type names are read. -/
theorem isAggregate_of_spells (h : Spells i a {} t d) (ht : b.Within TypeSpec.IsAggregate ts t)
    (hnames : ∀ k, t.Names k → F.readable k) : d.IsAggregate { i with routines } F := by
  cases htype : ht.type with
  | scalar =>
    cases h
    rfl
  | struct id =>
    cases h with
    | struct _ _ hoffset =>
      exact fun d' hd' => hg.covers (fun _ => TypeSpec.IsAggregate.plain) hspec hs
        (ht.refers id (.struct id)) hoffset hd'
  | nested hperm hfields =>
    cases h with
    | nested hlays hall =>
      show Layout.Covers _ _ _
      rw [countP_isField hall fun t ht => (hfields t ht).plain]
      exact hlays.covers hperm
  | array hrelaxed =>
    cases h with
    | array hdefinition =>
      intro d' hd'
      obtain rfl := Except.ok.inj (hd'.symm.trans hdefinition)
      refine ⟨fun dim => hrelaxed.dimensionHolds hnames, fun hstring => ?_⟩
      rw [ArraySpec.isString_modify, hrelaxed.string] at hstring
      exact absurd hstring (by simp)
  | string character =>
    refine isAggregate_of_string rfl (fun dim hdim => ?_) h
    obtain rfl := List.mem_singleton.1 hdim
    exact dimensionHolds_ofText rfl (not_isChecked_of_string rfl)
  | v1String n character =>
    refine isAggregate_of_string rfl (fun dim hdim => ?_) h
    obtain rfl := List.mem_singleton.1 hdim
    exact dimensionHolds_ofText rfl (by simp [Bound.isChecked, BoundPair.ofLength, Bound.ofConstant])
  | union =>
    cases h with
    | encapsulated => exact trivial
    | @switched _ _ _ _ _ field hfield =>
      exact ⟨hnames _ (.switch hfield), field.toNat_lt⟩
  | align =>
    cases h
    exact trivial

omit hg in
/-- What is sent along an assembled parameter list is of the types that were asked for, and the
fields that these name are read. -/
theorem spelled_of_sent {ps : List (UInt32 × TypeSpec)} {list : List Parameter}
    {params : List Value} {env : Marshal.Env} {room : Nat} {v : Value}
    (hlist : List.Forall₂ (SpellsParameter i a) ps list)
    (hg : b.Throughout TypeSpec.IsAggregate (ps.map Prod.snd))
    (henv : env.interface = { i with routines })
    (hnames : ∀ q ∈ ps, ∀ k, q.2.Names k → (Frame.ofParameters env.heap list params).readable k)
    (h : Sent env list params room F d v) :
    ∃ t, Spells i a {} t d ∧ b.Within TypeSpec.IsAggregate (ps.map Prod.snd) t ∧
      ∀ k, t.Names k → F.readable k := by
  have hvector : env.vector = i.vector := by rw [Marshal.Env.vector, henv]
  have hlayout : env.interface.layout = i.layout := by rw [henv]
  induction h with
  | parameter hp =>
    obtain ⟨q, hq, -, hspells⟩ := parameter_spelled hlist hp
    exact ⟨q.2, hspells, hg.root (List.mem_map_of_mem hq), hnames q hq⟩
  | field _ hd hdef _ hf hk _ ih =>
    obtain ⟨t, hspells, hin, -⟩ := ih
    rw [hvector] at hdef
    rw [hlayout] at hk
    cases htype : hin.type with
    | struct id =>
      cases hspells with
      | struct _ _ hoffset =>
        obtain ⟨-, -, rfl⟩ := TypeForm.struct.inj hd
        obtain ⟨_, t, _, -, -, -, -, hspells, hin⟩ := hg.field_spelled
          (fun _ => TypeSpec.IsAggregate.plain) hspec hs (hin.refers id (.struct id)) hoffset hdef hf hk
        exact ⟨t, hspells, hin, fun _ _ => trivial⟩
    | _ => cases hspells <;> cases hd
  | nestedField _ hd _ hf hk _ ih =>
    obtain ⟨t, hspells, hin, -⟩ := ih
    rw [hlayout] at hk
    cases htype : hin.type with
    | nested _ hfields =>
      cases hspells with
      | nested hlays hall =>
        obtain ⟨-, rfl, rfl⟩ := TypeForm.nested.inj hd
        obtain ⟨t, _, -, -, -, hmem, hspells⟩ := field_spelled hall
          (fun t ht => (hfields t ht).plain) hlays hf hk
        exact ⟨t, hspells, hin.part hmem (hfields t hmem), fun _ _ => trivial⟩
    | _ => cases hspells <;> cases hd
  | element _ hd _ ha _ _ _ ih =>
    obtain ⟨t, hspells, hin, hnames⟩ := ih
    rw [hvector] at ha
    obtain ⟨s, rfl, helement, hspells⟩ := element_spelled hin.type hspells hd ha
    exact ⟨_, hspells, hin.part (List.mem_singleton_self _) helement,
      fun k hk => hnames k (.element hk)⟩
  | arm _ hd hu harm hfound he ih =>
    obtain ⟨t, hspells, hin, hnames⟩ := ih
    rw [hvector] at hu harm he
    cases htype : hin.type with
    | @union u harms =>
      obtain ⟨t, ht, hvoid, hspells⟩ := arm_spelled (union_spelled hspells hd) hu harm hfound he
      exact ⟨t, hspells, hin.part ht (harms t ht hvoid), fun k hk => hnames k (.arm ht hk)⟩
    | _ =>
      cases hspells
      cases hd

end

end

/-! ### Round trips -/

/-- What was read of aggregates: the values of the parameters that were asked for are those that were
written, the others are the reader's, nothing is left to read, and nothing was allocated. -/
structure AggregateRead (ps : List (UInt32 × TypeSpec)) (params params' : List Value)
    (before : Heap) (out : Outcome Source (List Value)) : Prop where
  values : ∃ ws, out.result = .ok ws ∧ ws.length = params.length ∧
    (∀ q ∈ ps, ws[q.1.toNat]? = params[q.1.toNat]?) ∧
    ∀ k, (∀ q ∈ ps, q.1.toNat ≠ k) → ws[k]? = params'[k]?
  unread : out.transport.unread = []
  cells : out.surroundings.heap.cells.size = before.cells.size

section

variable {i : Interface} {b : Assembler} {ps : List (UInt32 × TypeSpec)} {list : List Parameter}
  {params params' : List Value}

/-- **Aggregates that were written along an assembled parameter list are read back.** The types may be
any scalars without a range, structs, arrays, strings and unions, none with pointers, and markers. -/
theorem aggregate_read {log : List (Nat × Request)} {routines : List Routine} {m m' : Machine}
    {world world' : Surroundings} {offset n : Nat} {sink : Sink} (hb : Assembled b log)
    (he : Interface.ofAssembler b = .ok i) (hi : i.Small) (hps : (offset, .parameters ps) ∈ log)
    (hindices : (ps.map Prod.fst).Nodup)
    (hg : b.Throughout TypeSpec.IsAggregate (ps.map Prod.snd))
    (hnames : ∀ q ∈ ps, ∀ k, q.2.Names k → ∃ p ∈ ps, p.1.toNat = k)
    (hm : m.interface = { i with routines }) (hm' : m.Matches m') (hc : m.config.check = .ok ())
    (hlen : params'.length = params.length) (hlimit : world'.heap.limit = none)
    (hlist : i.vector.parameters offset = .ok list)
    (hvalues : Faithful (m.writing world) ((m.writing world).receiver m'.side m'.nodes) list params)
    (e : (m.marshal world offset params sink).result = .ok n) :
    ∃ wire, wire.length = n ∧
      (m.marshal world offset params sink).transport.message = sink.message ++ wire ∧
      ∀ source, source.bytes = wire →
        AggregateRead ps params params' world'.heap (m'.unmarshal world' offset params' source) := by
  obtain ⟨a, hspec, hsettled, hread⟩ := settled_of_ofAssembler hb he hi
  obtain ⟨list', hlist', hspelled⟩ := hread _ hps fun p hp =>
    (hg.types p.2 (List.mem_map_of_mem hp)).plain
  obtain rfl := Except.ok.inj (hlist.symm.trans hlist')
  have hlist : m.interface.vector.parameters offset = .ok list := by rw [hm]; exact hlist
  have hlisted : ∀ q ∈ ps, ∃ p ∈ list, p.index = q.1.toNat := fun q hq =>
    let ⟨p, hp, h⟩ := exists_of_forall₂ hspelled hq
    ⟨p, hp, h.1⟩
  have hreadable : ∀ q ∈ ps, ∀ k, q.2.Names k →
      (Frame.ofParameters world.heap list params).readable k := by
    intro q hq k hk
    obtain ⟨q', hq', rfl⟩ := hnames q hq k hk
    refine readable_ofParameters hlist e (fun p hp => ?_)
      (fun p hp v hv => hvalues.marker (.parameter hp hv)) (hlisted q' hq')
    obtain ⟨q, hq, -, hspells⟩ := parameter_spelled hspelled hp
    refine ⟨⟨#[], fun _ => True, fun k v h => absurd h (by simp [Scope.get?])⟩, ?_⟩
    rw [hm]
    exact isAggregate_of_spells hspec hsettled hg hspells (hg.root (List.mem_map_of_mem hq))
      fun _ _ => trivial
  have htypes : ∀ room F d v, Sent (m.writing world) list params room F d v →
      d.IsAggregate m.interface F := by
    intro room F d v h
    obtain ⟨t, hspells, hin, hnames⟩ := spelled_of_sent hspec hsettled hspelled hg hm hreadable h
    rw [hm]
    exact isAggregate_of_spells hspec hsettled hg hspells hin hnames
  obtain ⟨wire, hn, hmessage, harrived⟩ := aggregate_arrived hm' hc hlist
    (nodup_index hspelled hindices) hlen hlimit htypes hvalues e
  refine ⟨wire, hn, hmessage, fun source hsource => ?_⟩
  obtain ⟨⟨ws, hws, hwlen, hsame, hothers⟩, hunread, hcells⟩ :=
    harrived source [] (by rw [hsource, List.append_nil])
  refine ⟨⟨ws, hws, hwlen, fun q hq => ?_, fun k hk => hothers k fun p hp => ?_⟩, hunread, hcells⟩
  · obtain ⟨p, hp, h⟩ := hlisted q hq
    exact h ▸ hsame p hp
  · obtain ⟨q, hq, h, -⟩ := parameter_spelled hspelled hp
    exact h ▸ hk q hq

end

/-! ### A counted array -/

/-- The parameters of a counted array: how many elements there are, and the array. -/
def countedParameters : List (UInt32 × TypeSpec) :=
  [(0, .scalar .long), (1, .array (.conformant 0 (.scalar .short)))]

/-- Two elements and their count. -/
def countedValues : List Value := [.long 2, .array [.short 5, .short 7]]

/-- An assembler that was asked for the parameters of a counted array. -/
def ofCounted : Assembler :=
  match parameters countedParameters (new .little 0) with
  | .ok _ b | .error _ b => b

theorem relaxed_conformant (size : UInt32) (element : TypeSpec) :
    (ArraySpec.conformant size element).Relaxed := by
  have hbounds : ∀ b ∈ (ArraySpec.conformant size element).allBounds,
      b = .ofConstant 0 ∨ b = .ofField .sizeIs size := by
    simp [ArraySpec.allBounds, ArraySpec.conformant]
  refine ⟨rfl, fun p hp => List.mem_singleton.1 hp ▸ rfl, fun b hb => ?_, fun b hb => ?_⟩
  · rcases hbounds b hb with rfl | rfl
    · exact Bound.fits_ofConstant 0
    · exact ⟨show BoundKind.sizeIs < 16 by decide, show (0 : UInt8) &&& _ = 0 by decide⟩
  · rcases hbounds b hb with rfl | rfl <;> simp [Bound.hasFlag, Bound.ofConstant, Bound.ofField]

theorem relaxed_fixed (n : UInt32) (element : TypeSpec) : (ArraySpec.fixed n element).Relaxed := by
  have hbounds : ∀ b ∈ (ArraySpec.fixed n element).allBounds,
      b = .ofConstant 0 ∨ b = .ofConstant (n.toInt32 - 1) := by
    simp [ArraySpec.allBounds, ArraySpec.fixed, BoundPair.ofLength]
  refine ⟨rfl, fun p hp => List.mem_singleton.1 hp ▸ rfl, fun b hb => ?_, fun b hb => ?_⟩
  · rcases hbounds b hb with rfl | rfl <;> exact Bound.fits_ofConstant _
  · rcases hbounds b hb with rfl | rfl <;> simp [Bound.hasFlag, Bound.ofConstant]

theorem throughout_ofCounted :
    ofCounted.Throughout TypeSpec.IsAggregate (countedParameters.map Prod.snd) := by
  refine ⟨?_, fun id s _ hs => ?_⟩
  · simp only [countedParameters, List.map_cons, List.map_nil, List.mem_cons, List.not_mem_nil,
      or_false, forall_eq_or_imp, forall_eq]
    exact ⟨.scalar .long, .array (relaxed_conformant 0 _) (.scalar .short)⟩
  · have hsize : ofCounted.structs.size = 0 := rfl
    rw [spec?, Array.getElem?_eq_none (by omega)] at hs
    exact absurd hs (by simp)

/-- The only field that is named is the count. -/
theorem names_counted {q : UInt32 × TypeSpec} (hq : q ∈ countedParameters) {k : Nat}
    (h : q.2.Names k) : k = 0 := by
  simp only [countedParameters, List.mem_cons, List.not_mem_nil, or_false] at hq
  rcases hq with rfl | rfl
  · cases h
  · cases h with
    | bound hb hc =>
      simp only [ArraySpec.allBounds, ArraySpec.conformant, List.append_nil, List.flatMap_cons,
        List.flatMap_nil, List.mem_cons, List.not_mem_nil, or_false] at hb
      rcases hb with rfl | rfl
      · exact absurd hc (by simp [Bound.isChecked, Bound.ofConstant])
      · rfl
    | element h => cases h

section

variable {i : Interface} {a : Assembler} {list : List Parameter} {env : Marshal.Env}
  {env' : Unmarshal.Env}

/-- What is sent of a counted array. -/
theorem sent_counted (hlist : List.Forall₂ (SpellsParameter i a) countedParameters list)
    (henv : env.interface = i) {room : Nat} {F : Frame} {d : Descriptor} {v : Value}
    (h : Sent env list countedValues room F d v) :
    Spells i a {} (.scalar .long) d ∧ v = .long 2 ∨
      Spells i a {} (.array (.conformant 0 (.scalar .short))) d ∧
        v = .array [.short 5, .short 7] ∧ F = .ofParameters env.heap list countedValues ∨
      Spells i a {} (.scalar .short) d ∧ ∃ n, v = .short n := by
  induction h with
  | parameter hp hv =>
    obtain ⟨q, hq, hindex, hspells⟩ := parameter_spelled hlist hp
    simp only [countedParameters, List.mem_cons, List.not_mem_nil, or_false] at hq
    rcases hq with rfl | rfl
    · rw [hindex] at hv
      exact .inl ⟨hspells, (Option.some.inj hv).symm⟩
    · rw [hindex] at hv
      exact .inr (.inl ⟨hspells, (Option.some.inj hv).symm, rfl⟩)
  | element _ hd _ ha _ _ hv ih =>
    rcases ih with ⟨-, h⟩ | ⟨hspells, h, -⟩ | ⟨-, n, h⟩
    · exact absurd h (by simp)
    · obtain rfl := Value.array.inj h
      rw [Marshal.Env.vector, henv] at ha
      obtain ⟨s, hs, -, hspells⟩ := element_spelled
        (.array (relaxed_conformant 0 _) (.scalar .short)) hspells hd ha
      obtain rfl := TypeSpec.array.inj hs
      refine .inr (.inr ⟨hspells, ?_⟩)
      have := List.mem_of_getElem? hv
      simp only [List.mem_cons, List.not_mem_nil, or_false] at this
      rcases this with rfl | rfl <;> exact ⟨_, rfl⟩
    · exact absurd h (by simp)
  | field _ _ _ _ _ _ _ ih | nestedField _ _ _ _ _ _ ih | arm _ _ _ _ _ _ ih =>
    rcases ih with ⟨-, h⟩ | ⟨-, h, -⟩ | ⟨-, n, h⟩ <;> exact absurd h (by simp)

/-- A counted array is as it takes to read it back. -/
theorem faithful_counted (hlist : List.Forall₂ (SpellsParameter i a) countedParameters list)
    (henv : env.interface = i) (hmax : 2 ≤ env'.config.maxElements) :
    Faithful env env' list countedValues := by
  refine ⟨fun h hfield => ?_, fun h hd ha hshape => ?_, fun h _ _ => ?_⟩
  · rcases sent_counted hlist henv h with ⟨hspells, -⟩ | ⟨hspells, -⟩ | ⟨hspells, -⟩ <;>
      · cases hspells
        exact absurd hfield (by simp [Descriptor.isField])
  · rcases sent_counted hlist henv h with ⟨-, hv⟩ | ⟨hspells, hv, rfl⟩ | ⟨-, n, hv⟩
    · exact absurd hv (by simp)
    · obtain rfl := Value.array.inj hv
      cases hspells with
      | @array _ _ definition _ _ e hdefinition _ =>
        obtain ⟨rfl, -, -, rfl⟩ := TypeForm.array.inj hd
        rw [Marshal.Env.vector, henv] at ha
        obtain rfl := Except.ok.inj (ha.symm.trans hdefinition)
        have hshape' : Marshal.shapeOf ⟨definition, (ArraySpec.conformant 0 (.scalar .short)).dimensions,
            e⟩ .conformant false [.short 5, .short 7]
            (Frame.ofParameters env.heap list countedValues).scope = .ok [⟨2, 0, 2⟩] := rfl
        obtain rfl := Except.ok.inj (hshape'.symm.trans hshape)
        exact ⟨⟨2, rfl, hmax⟩, fun h => absurd h Bool.false_ne_true, fun _ => rfl,
          fun _ h => absurd h (by decide), fun _ h => absurd h (by decide)⟩
    · exact absurd hv (by simp)
  · rcases sent_counted hlist henv h with ⟨-, h⟩ | ⟨-, h, -⟩ | ⟨-, n, h⟩ <;> exact absurd h (by simp)

end

theorem aggregate_read_counted : ∃ i : Interface,
    let m : Machine := { interface := i }
    Assembled ofCounted [(36, .parameters countedParameters)] ∧
      Interface.ofAssembler ofCounted = .ok i ∧ i.Small ∧
      ofCounted.Throughout TypeSpec.IsAggregate (countedParameters.map Prod.snd) ∧
      (m.marshal {} 36 countedValues .reliable).result = .ok 12 ∧
      ∃ wire, wire.length = 12 ∧
        (m.marshal {} 36 countedValues .reliable).transport.message = Sink.reliable.message ++ wire ∧
        ∀ source, source.bytes = wire → AggregateRead countedParameters countedValues [.void, .void]
          {} (m.unmarshal {} 36 [.void, .void] source) := by
  have hrun : (match Interface.ofAssembler ofCounted with
      | .ok i => (Machine.marshal { interface := i } {} 36 countedValues .reliable).result
      | .error e => .error e) = .ok 12 := by decide +kernel
  have hsmall : (match Interface.ofAssembler ofCounted with
      | .ok i => decide (i.vector.size < 2 ^ 32) && decide (i.layout.entries.size < 2 ^ 32)
      | .error _ => false) = true := by decide +kernel
  have hc : ({} : Config).check = .ok () := by decide +kernel
  have hmax : 2 ≤ ({} : Config).maxElements := by decide
  have hlen : [Value.void, .void].length = countedValues.length := rfl
  have hlimit : ({} : Surroundings).heap.limit = none := rfl
  have hassembled : Assembled ofCounted [(36, .parameters countedParameters)] :=
    .parameters (.new .little 0) rfl
  cases he : Interface.ofAssembler ofCounted with
  | error => simp [he] at hrun
  | ok i =>
    simp only [he, Bool.and_eq_true, decide_eq_true_eq] at hrun hsmall
    refine ⟨i, hassembled, rfl, ⟨hsmall.1, hsmall.2⟩, throughout_ofCounted, hrun, ?_⟩
    obtain ⟨a, -, -, hread⟩ := settled_of_ofAssembler hassembled he ⟨hsmall.1, hsmall.2⟩
    obtain ⟨list, hlist, hspelled⟩ := hread _ List.mem_cons_self fun p hp =>
      (throughout_ofCounted.types p.2 (List.mem_map_of_mem hp)).plain
    refine aggregate_read hassembled he ⟨hsmall.1, hsmall.2⟩ List.mem_cons_self (by decide)
      throughout_ofCounted (fun q hq k hk => ⟨_, List.mem_cons_self, (names_counted hq hk).symm⟩) rfl
      ⟨rfl, rfl, rfl⟩ hc hlen hlimit hlist ?_ hrun
    exact faithful_counted hspelled rfl hmax

/-- The parameters of an array of two elements. -/
def pairParameters : List (UInt32 × TypeSpec) := [(0, .array (.fixed 2 (.scalar .long)))]

/-- An assembler that was asked for the parameters of an array of two elements. -/
def ofPair : Assembler :=
  match parameters pairParameters (new .little 0) with
  | .ok _ b | .error _ b => b

theorem throughout_ofPair :
    ofPair.Throughout TypeSpec.IsAggregate (pairParameters.map Prod.snd) := by
  refine ⟨fun t ht => List.mem_singleton.1 ht ▸ .array (relaxed_fixed 2 _) (.scalar .long),
    fun id s _ hs => ?_⟩
  have hsize : ofPair.structs.size = 0 := rfl
  rw [spec?, Array.getElem?_eq_none (by omega)] at hs
  exact absurd hs (by simp)

/-- How many elements an array may have is asked of what is read alone: an array of two elements is
written by a machine that takes no more than one. -/
theorem array_refused : ∃ i : Interface,
    let m : Machine := { interface := i, config := { maxElements := 1 } }
    let params := [Value.array [.long 1, .long 2]]
    Assembled ofPair [(36, .parameters pairParameters)] ∧ Interface.ofAssembler ofPair = .ok i ∧
      i.Small ∧ ofPair.Throughout TypeSpec.IsAggregate (pairParameters.map Prod.snd) ∧
      m.config.check = .ok () ∧ (m.marshal {} 36 params .reliable).result = .ok 8 ∧
      (m.marshal {} 36 params .reliable).transport.message = [1, 0, 0, 0, 2, 0, 0, 0] ∧
      ¬AggregateRead pairParameters params [.void] {}
        (m.unmarshal {} 36 [.void] (.ofBytes [1, 0, 0, 0, 2, 0, 0, 0])) := by
  have hassembled : Assembled ofPair [(36, .parameters pairParameters)] :=
    .parameters (.new .little 0) rfl
  have hrun : (match Interface.ofAssembler ofPair with
      | .ok i =>
        let o := Machine.marshal { interface := i, config := { maxElements := 1 } } {} 36
          [.array [.long 1, .long 2]] .reliable
        (o.result, o.transport.message)
      | .error e => (.error e, [])) = (.ok 8, [1, 0, 0, 0, 2, 0, 0, 0]) := by decide +kernel
  have hrefused : (match Interface.ofAssembler ofPair with
      | .ok i => Routine.succeeded (Machine.unmarshal { interface := i, config := { maxElements := 1 } }
          {} 36 [.void] (.ofBytes [1, 0, 0, 0, 2, 0, 0, 0])).result
      | .error _ => true) = false := by decide +kernel
  have hsmall : (match Interface.ofAssembler ofPair with
      | .ok i => decide (i.vector.size < 2 ^ 32) && decide (i.layout.entries.size < 2 ^ 32)
      | .error _ => false) = true := by decide +kernel
  have hc : ({ maxElements := 1 } : Config).check = .ok () := by decide +kernel
  cases he : Interface.ofAssembler ofPair with
  | error => simp [he] at hsmall
  | ok i =>
    simp only [he, Bool.and_eq_true, decide_eq_true_eq, Prod.mk.injEq] at hrun hrefused hsmall
    refine ⟨i, hassembled, rfl, ⟨hsmall.1, hsmall.2⟩, throughout_ofPair, hc, hrun.1, hrun.2, fun h => ?_⟩
    obtain ⟨ws, hws, -⟩ := h.values
    rw [hws] at hrefused
    exact absurd hrefused (by simp [Routine.succeeded])

end Assembler

end Ndr
