import Ndr.Proofs.Assembly.Code
import Ndr.Proofs.Assembly.Finish

/-!
Drafts: all that an assembler holds but its byte order. A draft in either order is an assembler, and
the actions of assemblers take drafts to drafts, to the same result or the same fault in either order.
-/

namespace Ndr

open Entries

/-! ### Drafts -/

/-- A record of a kind stands at an offset behind the header. -/
structure Entries.Stands (es : List Entry) (K : Kind → Nat → Prop) (kind : Kind) (n : Nat) : Prop
    where
  aligned : n % 4 = 0
  split : ∃ before record after, es = before ++ (record ++ after) ∧
    Entries.stop TypeVector.headerSize before = n ∧ Forms K kind record

/-- What an assembler holds, whatever its byte order. -/
structure Draft where
  flags : UInt32
  /-- What is behind the header. -/
  entries : List Entry
  layout : Array UInt32
  structs : Array StructEntry
  pending : List StructId
  /-- The records that were laid down, by kind and offset. -/
  records : Kind → Nat → Prop
  kept : ∀ kind n, records kind n → Stands entries records kind n
  offsets : ∀ (id : StructId) (n : Nat), (structs[id]?).bind StructEntry.offset = some n →
    ∃ s, records (.struct s) n
  free : ∀ (id : StructId) (s : StructSpec), (structs[id]?).bind StructEntry.spec = some s → s.OpcodeFree

theorem Entries.Stands.mono {es : List Entry} {K K' : Kind → Nat → Prop} {kind : Kind} {n : Nat}
    (h : Stands es K kind n) (hK : ∀ k m, K k m → K' k m) (more : List Entry) :
    Stands (es ++ more) K' kind n := by
  obtain ⟨haligned, before, record, after, rfl, hn, hforms⟩ := h
  exact ⟨haligned, before, record, after ++ more, by simp only [List.append_assoc], hn,
    hforms.mono hK⟩

namespace Draft

variable {d d' d'' : Draft} {order : ByteOrder} {es : List Entry} {kind : Kind} {id : StructId}

/-- The assembler that holds a draft in some byte order. -/
def inked (d : Draft) (order : ByteOrder) : Assembler where
  order
  flags := d.flags
  bytes := (Assembler.new order d.flags).bytes
    ++ (Entries.ink order TypeVector.headerSize d.entries).toArray
  layout := d.layout
  structs := d.structs
  pending := d.pending
  references := Entries.references TypeVector.headerSize d.entries
  trailingReferences := Entries.tails TypeVector.headerSize d.entries

/-- The type of a struct, once it is defined. -/
def spec? (d : Draft) (id : StructId) : Option StructSpec := d.structs[id]?.bind (·.spec)

/-- The offset of a struct, once it is laid down. -/
def offset? (d : Draft) (id : StructId) : Option Nat := d.structs[id]?.bind (·.offset)

/-- Where the vector ends. -/
def size (d : Draft) : Nat := Entries.stop TypeVector.headerSize d.entries

/-- Where the next record goes. -/
def next (d : Draft) : Nat := d.size + padding d.size 4

theorem size_inked (d : Draft) (order : ByteOrder) : (d.inked order).bytes.size = d.size := by
  rw [inked, Array.size_append, Assembler.size_new, List.size_toArray, Entries.length_ink]
  rfl

theorem next_mod (d : Draft) : d.next % 4 = 0 :=
  Nat.mod_eq_zero_of_dvd (dvd_add_padding (by decide))

/-- `d'` is `d` later on. -/
structure Grows (d d' : Draft) : Prop where
  flags : d'.flags = d.flags
  entries : d.entries <+: d'.entries
  records : ∀ kind n, d.records kind n → d'.records kind n

theorem Grows.refl (d : Draft) : d.Grows d := ⟨rfl, List.prefix_rfl, fun _ _ h => h⟩

theorem Grows.trans (h : d.Grows d') (h' : d'.Grows d'') : d.Grows d'' :=
  ⟨h'.flags.trans h.flags, h.entries.trans h'.entries, fun k n hn => h'.records k n (h.records k n hn)⟩

/-! ### Records -/

/-- A draft with one more record. -/
def append (d : Draft) (kind : Kind) (es : List Entry) (h : Forms d.records kind es) : Draft :=
  { d with
    entries := d.entries ++ (.gap :: es)
    records := fun k n => d.records k n ∨ (k = kind ∧ n = d.next)
    kept := by
      rintro k n (hn | ⟨rfl, rfl⟩)
      · exact (d.kept k n hn).mono (fun _ _ => .inl) _
      · refine ⟨d.next_mod, d.entries ++ [.gap], es, [], by simp, ?_, h.mono fun _ _ => .inl⟩
        rw [Entries.stop_append]
        rfl
    offsets := fun id n hn => (d.offsets id n hn).imp fun _ => .inl }

theorem grows_append (h : Forms d.records kind es) : d.Grows (d.append kind es h) :=
  ⟨rfl, List.prefix_append _ _, fun _ _ => .inl⟩

theorem records_append (h : Forms d.records kind es) : (d.append kind es h).records kind d.next :=
  .inr ⟨rfl, rfl⟩

/-- A record behind a draft in some order, but for the words for arrays at the ends of structs. -/
theorem inked_append (h : Forms d.records kind es) :
    (d.append kind es h).inked order =
      { ((d.inked order).append (.ofEntries order es)).1 with
        trailingReferences := (d.inked order).trailingReferences ++ Entries.tails d.next es } := by
  have hgap : ∀ position, Entry.stop position .gap = position + padding position 4 := fun _ => rfl
  have hsize : (fill (d.inked order).bytes).size = d.next := by
    rw [Record.size_fill, size_inked]
    rfl
  have hzero : ∀ n, n % 4 = 0 → Entries.ink order n es = Entries.ink order 0 es := fun n hn => by
    rw [← Entries.ink_add hn 0 es, Nat.add_zero]
  have hreferences := Entries.references_add d.next_mod 0 es
  rw [Nat.add_zero] at hreferences
  have hbytes : ((d.append kind es h).inked order).bytes
      = fill (d.inked order).bytes ++ (Record.ofEntries order es).bytes := by
    have hrecord : Entries.ink order d.size (.gap :: es) =
        List.replicate (padding d.size 4) filler ++ Entries.ink order 0 es := by
      rw [← hzero _ d.next_mod]
      simp [Entries.ink, Entry.start, Entry.ink, next, hgap]
    rw [fill, size_inked]
    show _ ++ (Entries.ink order _ (d.entries ++ (.gap :: es))).toArray = _
    rw [Entries.ink_append, ← size, hrecord]
    simp only [Record.ofEntries, inked, Array.append_assoc, ← List.append_toArray,
      List.toArray_replicate]
    rfl
  have hplaces : ((d.append kind es h).inked order).references
      = (d.inked order).references ++ (Record.ofEntries order es).references.map
        fun p => (d.next + p.1, p.2) := by
    show Entries.references _ (d.entries ++ (.gap :: es)) = _
    rw [Entries.references_append]
    exact congrArg (_ ++ ·) hreferences
  have htails : ((d.append kind es h).inked order).trailingReferences
      = (d.inked order).trailingReferences ++ Entries.tails d.next es := Entries.tails_append
  rw [Assembler.append, hsize, ← hbytes, ← hplaces, ← htails]
  rfl

/-- A draft with more layouts of structs. -/
def withLayout (d : Draft) (layout : Array UInt32) : Draft := { d with layout }

theorem grows_withLayout (layout : Array UInt32) : d.Grows (d.withLayout layout) :=
  ⟨rfl, List.prefix_rfl, fun _ _ h => h⟩

/-! ### Structs -/

/-- A draft that knows other things of its structs. -/
def withStructs (d : Draft) (structs : Array StructEntry) (pending : List StructId)
    (hoffsets : ∀ (id : StructId) (n : Nat), (structs[id]?).bind StructEntry.offset = some n →
      ∃ s, d.records (.struct s) n)
    (hfree : ∀ (id : StructId) (s : StructSpec), (structs[id]?).bind StructEntry.spec = some s → s.OpcodeFree) : Draft :=
  { d with structs, pending, offsets := hoffsets, free := hfree }

/-- A draft in which a struct will be laid down. -/
def queue (d : Draft) (id : StructId) : Draft :=
  d.withStructs ((d.inked .little).queue id).structs ((d.inked .little).queue id).pending
    (fun j n hn => by
      change ((d.inked .little).queue id).offset? j = some n at hn
      rw [Assembler.offset?_eq_known, Assembler.known_queue, ← Assembler.offset?_eq_known] at hn
      exact d.offsets j n hn)
    (fun j s hs => by
      change ((d.inked .little).queue id).spec? j = some s at hs
      rw [Assembler.spec?_eq_known, Assembler.known_queue, ← Assembler.spec?_eq_known] at hs
      exact d.free j s hs)

theorem grows_queue : d.Grows (d.queue id) := ⟨rfl, List.prefix_rfl, fun _ _ h => h⟩

theorem inked_queue : (d.queue id).inked order = (d.inked order).queue id := by
  have h : ∀ {a b : Assembler}, b.structs = a.structs → b.pending = a.pending →
      b.queue id = { b with structs := (a.queue id).structs, pending := (a.queue id).pending } := by
    intro a b hs hp
    unfold Assembler.queue
    rw [hs]
    split
    · split
      · rw [← hs, ← hp]
      · rw [hp]
    · rw [← hs, ← hp]
  exact (h (b := d.inked order) (a := d.inked .little) rfl rfl).symm

end Draft

/-! ### Actions on drafts -/

section

variable {α β : Type}

/-- An action that does the same to a draft in either order: it fails with the same fault, or gives
results of which `P` holds, with the draft it leaves. -/
inductive Draws (d : Draft) (x : ByteOrder → Assemble α) (P : (ByteOrder → α) → Draft → Prop) :
    Prop where
  | ok {v : ByteOrder → α} {d' : Draft} (grows : d.Grows d') (holds : P v d')
      (run : ∀ order, x order (d.inked order) = .ok (v order) (d'.inked order))
  | error {e : Fault} {d' : Draft} (grows : d.Grows d')
      (run : ∀ order, x order (d.inked order) = .error e (d'.inked order))

namespace Draws

variable {d d' : Draft} {x : ByteOrder → Assemble α} {f : ByteOrder → α → Assemble β}
  {P P' : (ByteOrder → α) → Draft → Prop} {Q : (ByteOrder → β) → Draft → Prop}

theorem pure {v : ByteOrder → α} (h : P v d) : Draws d (fun order => pure (v order)) P :=
  .ok (.refl d) h fun _ => rfl

theorem mono (h : Draws d x P) (hP : ∀ v d', d.Grows d' → P v d' → P' v d') : Draws d x P' := by
  cases h with
  | ok grows holds run => exact .ok grows (hP _ _ grows holds) run
  | error grows run => exact .error grows run

theorem bind (h : Draws d x P)
    (hf : ∀ v d', d.Grows d' → P v d' → Draws d' (fun order => f order (v order)) Q) :
    Draws d (fun order => x order >>= f order) Q := by
  cases h with
  | @ok v d' grows holds run =>
    cases hf v d' grows holds with
    | ok grows' holds' run' =>
      exact .ok (grows.trans grows') holds' fun order => (bind_of_ok (run order) _).trans (run' order)
    | error grows' run' =>
      exact .error (grows.trans grows') fun order => (bind_of_ok (run order) _).trans (run' order)
  | error grows run => exact .error grows fun order => bind_of_error (run order) _

/-- What an action does tells more of the draft that it leaves. -/
theorem also (h : Draws d x P) (hP : ∀ v d', (∀ order, x order (d.inked order) = .ok (v order) (d'.inked order)) →
    P' v d') : Draws d x fun v d' => P v d' ∧ P' v d' := by
  cases h with
  | ok grows holds run => exact .ok grows ⟨holds, hP _ _ run⟩ run
  | error grows run => exact .error grows run

/-- An action that depends on the draft it starts with. -/
theorem see {f : ByteOrder → Assembler → Assemble α}
    (h : Draws d (fun order => f order (d.inked order)) P) :
    Draws d (fun order => get >>= f order) P := by
  cases h with
  | ok grows holds run => exact .ok grows holds run
  | error grows run => exact .error grows run

/-- A check that goes the same way in either order. -/
theorem lift {x : ByteOrder → Except Fault α} {y : Except Fault α} (h : ∀ order, x order = y)
    (hf : ∀ a, y = .ok a → Draws d (fun order => f order a) Q) :
    Draws d (fun order => liftM (x order) >>= f order) Q := by
  cases y with
  | ok a =>
    have hok : ∀ order, (liftM (x order) : Assemble α) (d.inked order) = .ok a (d.inked order) :=
      fun order => by rw [h]; rfl
    exact bind (P := fun v d' => v = (fun _ => a) ∧ d' = d) (.ok (.refl d) ⟨rfl, rfl⟩ hok)
      fun v d' _ hv => by
        obtain ⟨rfl, rfl⟩ := hv
        exact hf a rfl
  | error e =>
    have herror : ∀ order, (liftM (x order) : Assemble α) (d.inked order)
        = .error e (d.inked order) := fun order => by rw [h]; rfl
    exact .error (.refl d) fun order => bind_of_error (herror order) _

/-- The assembler is replaced. -/
theorem replace {y : ByteOrder → Assembler} (d' : Draft) (hg : d.Grows d')
    (hy : ∀ order, d'.inked order = y order) :
    Draws d (fun order => (set (y order) : Assemble PUnit)) fun _ c => c = d' :=
  .ok (v := fun _ => ⟨⟩) hg rfl fun order => by rw [hy]; rfl

theorem modified {y : Assembler → Assembler} (d' : Draft) (hg : d.Grows d')
    (hy : ∀ order, d'.inked order = y (d.inked order)) :
    Draws d (fun _ => (modify y : Assemble PUnit)) fun _ c => c = d' :=
  .ok (v := fun _ => ⟨⟩) hg rfl fun order => by rw [hy]; rfl

end Draws

end

end Ndr
