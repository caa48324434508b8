import Mathlib.Tactic.Choose
import Ndr.Proofs.Unmarshal.Cells

/-!
The types of what is read: which values can come from a descriptor, given the pointers that were
read, and what every walk does to the heap. A new cell is filled from the pointee of the first
pointer that leads to it, or put off to be filled from it.
-/

namespace Ndr

/-! ### Equal types -/

mutual

/-- A type without the places where it was spelled. Two types are structurally equal where these
are equal. -/
def Descriptor.plain : Descriptor → Descriptor
  | ⟨_, modifiers, form⟩ => ⟨0, modifiers, form.plain⟩

def TypeForm.plain : TypeForm → TypeForm
  | .nested align layout fields => .nested align layout (plainAll fields)
  | form => form

def plainAll : List Descriptor → List Descriptor
  | [] => []
  | d :: ds => d.plain :: plainAll ds

end

theorem Descriptor.form_of_plain {d e : Descriptor} {kind : Scalar} (h : e.plain = d.plain)
    (hd : d.form = .scalar kind) : e.form = .scalar kind := by
  obtain ⟨o, m, form⟩ := e
  obtain ⟨o', m', form'⟩ := d
  obtain rfl : form' = .scalar kind := hd
  cases form <;> simp_all [Descriptor.plain, TypeForm.plain]

namespace Unmarshal

/-! ### Values of a type -/

/-- The first pointer that was read among those to a cell; pointers are given newest first. -/
def firstTo (ps : List Sighting) (c : CellId) : Option Sighting :=
  ps.reverse.find? fun p => p.cell == c

/-- The field of a struct that the slot `k` takes its value from. -/
def IsField (env : Env) (layout : Nat) (fields : List Descriptor) (k : Nat) (d : Descriptor) :
    Prop :=
  ∃ i : Nat, (fields.filter Descriptor.isField)[i]? = some d ∧
    env.interface.layout.slot layout i = .ok k

section Types

variable (env : Env) (ps : List Sighting)

/-- A value that can come from a descriptor when the pointers `ps` were read. The slots of a
struct come from its fields; a pointer that is not null is one of `ps`, with the pointee of the
descriptor. What a conversion makes can be anything. -/
inductive ReadAs : Descriptor → Value → Prop
  | scalar {o m kind v} : (kind.word? v).isSome → ReadAs ⟨o, m, .scalar kind⟩ v
  | struct {o m kind props definition s slots} (pick : Nat → Descriptor) :
    env.vector.structDefinition definition = .ok s →
    (∀ (k : Nat) v, slots[k]? = some v → v = .void ∨ IsField env s.layout s.fields k (pick k)) →
    (∀ (k : Nat) v, slots[k]? = some v → v ≠ .void → ReadAs (pick k) v) →
    ReadAs ⟨o, m, .struct kind props definition⟩ (.struct slots)
  | nested {o m align layout fields slots} (pick : Nat → Descriptor) :
    (∀ (k : Nat) v, slots[k]? = some v → v = .void ∨ IsField env layout fields k (pick k)) →
    (∀ (k : Nat) v, slots[k]? = some v → v ≠ .void → ReadAs (pick k) v) →
    ReadAs ⟨o, m, .nested align layout fields⟩ (.struct slots)
  | array {o m kind props dims definition d elements} :
    env.vector.arrayDefinition definition kind.isVarying = .ok d →
    (∀ v ∈ elements, zeroValue env d.element ≠ .ok v → ReadAs d.element v) →
    ReadAs ⟨o, m, .array kind props dims definition⟩ (.array elements)
  | emptyArm {o m form switch} :
    (∃ props definition, form = .encapsulatedUnion props definition) ∨
      (∃ props field definition, form = .switchedUnion props field definition) →
    ReadAs ⟨o, m, form⟩ (.union switch .void)
  | arm {o m form definition u switch a offset d v} :
    (∃ props, form = .encapsulatedUnion props definition) ∨
      (∃ props field, form = .switchedUnion props field definition) →
    env.vector.unionDefinition definition = .ok u → env.vector.findArm u switch = .ok (some a) →
    a.body = .stream offset → env.vector.stream offset = .ok d → ReadAs d v →
    ReadAs ⟨o, m, form⟩ (.union (Int64.ofInt switch) v)
  | null {o m kind props pointee} : kind ≠ .ref →
    ReadAs ⟨o, m, .pointer kind props pointee⟩ (.pointer none)
  | pointer {o m kind props pointee} {p : Sighting} : p ∈ ps → p.pointee = pointee →
    (p.id = none ↔ kind = .ref) →
    ReadAs ⟨o, m, .pointer kind props pointee⟩ (.pointer (some p.cell))
  | ignore {o m} : ReadAs ⟨o, m, .ignore⟩ (.pointer none)
  | converted {o m kind props routine wire v} : ReadAs ⟨o, m, .converted kind props routine wire⟩ v
  | pipe {o m props element h} : ReadAs ⟨o, m, .pipe props element⟩ (.pipe h)
  | context {o m direction h} : ReadAs ⟨o, m, .context direction⟩ (.context h)
  | align {o m boundary} : ReadAs ⟨o, m, .align boundary⟩ .void
  | deletedNodes {o m} {ids : List UInt32} : ReadAs ⟨o, m, .deletedNodes⟩ (.array (ids.map .ulong))
  | void {o m} : ReadAs ⟨o, m, .void⟩ .void

/-- Slots of a struct that each hold nothing yet, or a value that can come from a field. -/
def Slotted (layout : Nat) (fields : List Descriptor) (slots : List Value) : Prop :=
  ∀ (k : Nat) v, slots[k]? = some v →
    v = .void ∨ ∃ d, IsField env layout fields k d ∧ ReadAs env ps d v

/-- A value of the pointee of the first pointer to a cell. -/
def Fits (c : CellId) (v : Value) : Prop :=
  ∃ p d, firstTo ps c = some p ∧ env.vector.stream p.pointee = .ok d ∧ ReadAs env ps d v

end Types

theorem ReadAs.of_pointer {env : Env} {ps : List Sighting} {d : Descriptor} {kind : PointerKind}
    {props : UInt8} {pointee : Nat} {c : CellId} (h : ReadAs env ps d (.pointer (some c)))
    (hd : d.form = .pointer kind props pointee) : ∃ p ∈ ps, p.pointee = pointee ∧ p.cell = c := by
  generalize hv : Value.pointer (some c) = v at h
  cases h <;> simp_all
  rename_i p hp hpointee hid
  exact ⟨p, hp, hpointee, rfl⟩

theorem ReadAs.of_scalar {env : Env} {ps : List Sighting} {d : Descriptor} {kind : Scalar}
    {v : Value} (h : ReadAs env ps d v) (hd : d.form = .scalar kind) : (kind.word? v).isSome := by
  cases h <;> simp_all

section Slots

variable {env : Env} {ps : List Sighting} {layout : Nat} {fields : List Descriptor}
  {slots : List Value}

theorem Slotted.exists_pick (h : Slotted env ps layout fields slots) :
    ∃ pick : Nat → Descriptor,
      (∀ (k : Nat) v, slots[k]? = some v → v = .void ∨ IsField env layout fields k (pick k)) ∧
      ∀ (k : Nat) v, slots[k]? = some v → v ≠ .void → ReadAs env ps (pick k) v := by
  have hk : ∀ k : Nat, ∃ d, ∀ v, slots[k]? = some v →
      v = .void ∨ IsField env layout fields k d ∧ ReadAs env ps d v := by
    intro k
    cases hv : slots[k]? with
    | none => exact ⟨default, fun v h => absurd h (by simp)⟩
    | some w =>
      rcases h k w hv with hw | ⟨d, hd, hr⟩
      · exact ⟨default, fun v h => .inl (Option.some.inj h ▸ hw)⟩
      · exact ⟨d, fun v h => .inr ⟨hd, Option.some.inj h ▸ hr⟩⟩
  choose pick hpick using hk
  refine ⟨pick, fun k v h => (hpick k v h).imp_right And.left, fun k v h hv => ?_⟩
  exact ((hpick k v h).resolve_left hv).2

end Slots

/-! ### What reading does to the cells -/

/-- The pointers that were read and the node table of a state, where cells are made from `base`
on. Pointers to one cell carry one id, which the table has, and only one pointer without an id
leads to a cell. What was put off is filled from the pointee of the first pointer. -/
structure Tracked (base : Nat) (s : State) : Prop where
  range : ∀ p ∈ s.sightings, base ≤ p.cell ∧ p.cell < s.heap.cells.size
  first : ∀ p ∈ s.sightings, ∃ q, firstTo s.sightings p.cell = some q ∧ q.id = p.id ∧
    (p.id = none → q = p)
  known : ∀ p ∈ s.sightings, ∀ id, p.id = some id → s.nodes.cellOf? id = some p.cell
  node : ∀ id c, s.nodes.cellOf? id = some c → ∃ p ∈ s.sightings, p.id = some id ∧ p.cell = c
  seen : ∀ c, base ≤ c → c < s.heap.cells.size → ∃ p ∈ s.sightings, p.cell = c
  size : base ≤ s.heap.cells.size
  deferred : ∀ d ∈ s.deferred, ∃ q, firstTo s.sightings d.cell = some q ∧ q.pointee = d.pointee

section Steps

variable {ps : List Sighting} {s t : State} {base : Nat}

theorem firstTo_of_suffix {qs : List Sighting} {c : CellId} {p : Sighting} (h : qs <:+ ps)
    (hp : firstTo qs c = some p) : firstTo ps c = some p := by
  obtain ⟨new, rfl⟩ := h
  simp only [firstTo, List.reverse_append, List.find?_append] at hp ⊢
  rw [hp]
  rfl

theorem firstTo_cons (p : Sighting) (c : CellId) :
    firstTo (p :: ps) c = (firstTo ps c).or (if p.cell = c then some p else none) := by
  simp [firstTo, List.find?_append, List.find?_singleton]

/-- A change of neither the heap, the pointers that were read nor what is put off. -/
theorem Tracked.of_eq (h : Tracked base s) (hh : t.heap = s.heap) (hn : t.nodes = s.nodes)
    (hp : t.sightings = s.sightings) (hd : t.deferred = s.deferred) : Tracked base t where
  range := by rw [hp, hh]; exact h.range
  first := by rw [hp]; exact h.first
  known := by rw [hp, hn]; exact h.known
  node := by rw [hp, hn]; exact h.node
  seen := by rw [hp, hh]; exact h.seen
  size := by rw [hh]; exact h.size
  deferred := by rw [hp, hd]; exact h.deferred

end Steps

/-! ### Actions -/

/-- An action that reads: where all the pointers read in the end are `ps`, it keeps track of
them, fills no cell but new ones, and gives only results of which `Q` holds. -/
structure Reads {α : Type} (env : Env) (base : Nat) (ps : List Sighting) (Q : α → Prop)
    (x : Unmarshalling α) : Prop where
  grows : ∀ {s a t}, x s = .ok a t → s.sightings <:+ t.sightings
  step : ∀ {s a t}, Tracked base s → x s = .ok a t → t.sightings <:+ ps →
    Tracked base t ∧ Step (Fits env ps) None s t ∧ Q a

namespace Reads

variable {α β : Type} {env : Env} {base : Nat} {ps : List Sighting} {P : α → Prop} {Q : β → Prop}

theorem pure {a : α} (h : P a) : Reads env base ps P (pure a) where
  grows e := by
    obtain ⟨rfl, rfl⟩ := pure_eq_ok.1 e
    exact List.suffix_rfl
  step hs e _ := by
    obtain ⟨rfl, rfl⟩ := pure_eq_ok.1 e
    exact ⟨hs, .of_eq rfl rfl, h⟩

theorem throw (e : Fault) : Reads env base ps P (throw e) where
  grows h := absurd h throw_ne_ok
  step _ h := absurd h throw_ne_ok

theorem mono {P' : α → Prop} {x : Unmarshalling α} (h : Reads env base ps P x)
    (hP : ∀ a, P a → P' a) : Reads env base ps P' x where
  grows := h.grows
  step hs e hp :=
    have ⟨ht, hstep, ha⟩ := h.step hs e hp
    ⟨ht, hstep, hP _ ha⟩

/-- What is known of the first result comes as a premise of what is asked of the last: the
pointers that the second action reads are needed to know it. -/
theorem bind {x : Unmarshalling α} {f : α → Unmarshalling β} (hx : Reads env base ps P x)
    (hf : ∀ a, Reads env base ps (fun b => P a → Q b) (f a)) : Reads env base ps Q (x >>= f) where
  grows e := by
    obtain ⟨a, u, h1, h2⟩ := bind_eq_ok.1 e
    exact (hx.grows h1).trans ((hf a).grows h2)
  step hs e hp := by
    obtain ⟨a, u, h1, h2⟩ := bind_eq_ok.1 e
    obtain ⟨hu, hstep, ha⟩ := hx.step hs h1 (((hf a).grows h2).trans hp)
    obtain ⟨ht, hstep', hb⟩ := (hf a).step hu h2 hp
    exact ⟨ht, hstep.trans_none hstep', hb ha⟩

/-- The result of the first action does not matter. -/
theorem andThen {x : Unmarshalling α} {f : α → Unmarshalling β} (hx : Reads env base ps P x)
    (hf : ∀ a, Reads env base ps Q (f a)) : Reads env base ps Q (x >>= f) :=
  hx.bind fun a => (hf a).mono fun _ h _ => h

/-- An action that changes neither the heap, the node table, the pointers that were read nor what
is put off. -/
theorem quiet {x : Unmarshalling α} (h : ∀ {s a t}, x s = .ok a t → (t.heap = s.heap ∧
    t.nodes = s.nodes ∧ t.sightings = s.sightings ∧ t.deferred = s.deferred) ∧ P a) :
    Reads env base ps P x where
  grows e := by
    exact (h e).1.2.2.1 ▸ List.suffix_rfl
  step hs e _ := by
    obtain ⟨⟨h1, h2, h3, h4⟩, ha⟩ := h e
    exact ⟨hs.of_eq h1 h2 h3 h4, .of_eq h1 h4, ha⟩

theorem weaken {x : Unmarshalling α} (h : Reads env base ps P x) :
    Reads env base ps (fun _ => True) x := h.mono fun _ _ => trivial

theorem get : Reads env base ps (fun _ => True) (get : Unmarshalling State) := .quiet fun e => by
  obtain ⟨-, rfl⟩ := get_eq_ok.1 e
  exact ⟨⟨rfl, rfl, rfl, rfl⟩, trivial⟩

theorem lift (x : Except Fault α) : Reads env base ps (fun a => x = .ok a) (liftM x) :=
  .quiet fun e => by
    obtain ⟨hx, rfl⟩ := lift_eq_ok.1 e
    exact ⟨⟨rfl, rfl, rfl, rfl⟩, hx⟩

theorem fetch (x : Fetch α) :
    Reads env base ps (fun a => ∃ r r', x r = .ok a r') (fetch x) := .quiet fun e => by
  obtain ⟨r, hx, rfl⟩ := onPart_eq_ok.1 e
  exact ⟨⟨rfl, rfl, rfl, rfl⟩, _, r, hx⟩

theorem onPipe (h : PipeHandle) (x : EStateM Fault Pipe α) :
    Reads env base ps (fun _ => True) (onPipe h x) := .quiet fun e => by
  obtain ⟨r, -, rfl⟩ := onPart_eq_ok.1 e
  exact ⟨⟨rfl, rfl, rfl, rfl⟩, trivial⟩

theorem modify {f : State → State} (hf : ∀ s, (f s).heap = s.heap ∧ (f s).nodes = s.nodes ∧
    (f s).sightings = s.sightings ∧ (f s).deferred = s.deferred) :
    Reads env base ps (fun _ => True) (modify f) := .quiet fun e => by
  rw [← modify_eq_ok.1 e]
  exact ⟨hf _, trivial⟩

theorem ite {c : Prop} [Decidable c] {x y : Unmarshalling α} (hx : Reads env base ps P x)
    (hy : Reads env base ps P y) : Reads env base ps P (if c then x else y) := by
  split
  · exact hx
  · exact hy

theorem check {c : Prop} [Decidable c] {e : Fault} {f : PUnit → Unmarshalling α}
    (h : Reads env base ps P (f ⟨⟩)) :
    Reads env base ps P (if c then MonadExcept.throw e >>= f else f ⟨⟩) :=
  ite (Reads.andThen (P := fun _ => False) (Reads.throw e) fun _ => h) h

/-! #### Repeated steps -/

theorem forM {f : α → Unmarshalling PUnit} (h : ∀ a, Reads env base ps (fun _ => True) (f a))
    (l : List α) : Reads env base ps (fun _ => True) (l.forM f) := by
  induction l with
  | nil => exact .pure trivial
  | cons a l ih => exact (h a).andThen fun _ => ih

theorem repeatM {x : Unmarshalling α} (h : Reads env base ps P x) (n : Nat) :
    Reads env base ps (fun l => ∀ a ∈ l, P a) (repeatM n x) := by
  induction n with
  | zero => exact .pure (by simp)
  | succ n ih =>
    rw [repeatM_succ]
    refine h.bind fun a => ?_
    rw [map_eq_pure_bind]
    refine ih.bind fun l => .pure ?_
    intro hl ha b hb
    rcases List.mem_cons.1 hb with rfl | hb
    · exact ha
    · exact hl b hb

end Reads

end Unmarshal

end Ndr
