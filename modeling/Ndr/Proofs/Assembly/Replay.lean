import Ndr.Proofs.Assembly.Decoding
import Ndr.Proofs.Likeness
import Ndr.Proofs.Assembly.Vector
import Mathlib.Logic.Relation

/-!
The byte order of a vector is immaterial. Calls that are made of an assembler in either order are
answered alike, what they lay down is finished alike, and all that is read from the two vectors is the
same: no operation tells the interfaces apart.
-/

namespace Ndr

namespace Assembler

/-! ### Calls -/

/-- Where a request is laid down. -/
def Request.make : Request → Assemble Nat
  | .parameters ps => Assembler.parameters ps
  | .stream t => Assembler.stream t

/-- A call of an assembler. -/
inductive Call where
  | declare
  | define (id : StructId) (s : StructSpec)
  | add (s : StructSpec)
  | request (r : Request)

/-- What a call gives: the id of a new struct, the offset of what was laid down, or nothing. -/
def Call.make : Call → Assemble (Option Nat)
  | .declare => modifyGet fun a => (some a.structs.size, a.declare)
  | .define id s => modifyGet fun a => (none, a.define id s)
  | .add s => modifyGet fun a => (some a.structs.size, a.declare.define a.structs.size s)
  | .request r => return some (← r.make)

def Request.OpcodeFree : Request → Prop
  | .parameters ps => ∀ p ∈ ps, p.2.OpcodeFree
  | .stream t => t.OpcodeFree

/-- A call without bare opcodes. -/
def Call.OpcodeFree : Call → Prop
  | .declare => True
  | .define _ s | .add s => s.OpcodeFree
  | .request r => r.OpcodeFree

/-- The answer to a call. The assembler stays as the call left it, also when the call failed. -/
def Call.answer (c : Call) (a : Assembler) : Except Fault (Option Nat) × Assembler :=
  match c.make a with
  | .ok n b => (.ok n, b)
  | .error e b => (.error e, b)

/-- The answers to calls that are made one after the other. -/
def replay : List Call → Assembler → List (Except Fault (Option Nat)) × Assembler
  | [], a => ([], a)
  | c :: calls, a =>
    let rest := replay calls (c.answer a).2
    ((c.answer a).1 :: rest.1, rest.2)

end Assembler

open Assembler Entries

/-! ### Calls on drafts -/

namespace Draft

variable {d : Draft} {order : ByteOrder}

/-- The draft of an assembler that was not asked for anything. -/
def blank (flags : UInt32) : Draft where
  flags
  entries := []
  layout := #[]
  structs := #[]
  pending := []
  records _ _ := False
  kept _ _ := False.elim
  offsets _ _ h := absurd h (by simp)
  free _ _ h := absurd h (by simp)

theorem inked_blank (flags : UInt32) : (blank flags).inked order = .new order flags := by
  simp [inked, blank, Entries.ink, Entries.references, Entries.tails, Entries.spots, Assembler.new]

/-- A draft with one more struct. -/
def declare (d : Draft) : Draft :=
  d.withStructs (d.inked .little).declare.structs d.pending
    (fun id n hn => d.offsets id n ((getElem?_declare_bind (b := d.inked .little) rfl).symm.trans hn))
    (fun id s hs => d.free id s ((getElem?_declare_bind (b := d.inked .little) rfl).symm.trans hs))

/-- A draft that knows the type of a struct. -/
def define (d : Draft) (id : StructId) (s : StructSpec) (hs : s.OpcodeFree) : Draft :=
  d.withStructs ((d.inked .little).define id s).structs d.pending
    (fun j n hn => d.offsets j n ((getElem?_modify_bind (b := d.inked .little)
      (F := fun e => { e with spec := some s }) fun _ => fun _ => rfl).symm.trans hn))
    (fun j t ht => by
      rcases eq_or_ne id j with rfl | hj
      · rw [Assembler.define, Array.getElem?_modify, if_pos rfl, Option.bind_map,
          Option.bind_eq_some_iff] at ht
        obtain ⟨e, -, ht⟩ := ht
        exact Option.some.inj ht ▸ hs
      · exact d.free j t ((spec?_define_of_ne (b := d.inked .little) hj).symm.trans ht))

end Draft

/-- The kind of the record that is laid down for a request. -/
def Assembler.Request.kind : Request → Kind
  | .parameters ps => .parameters ps
  | .stream t => .stream t

namespace Draws

variable {d : Draft}

theorem make_request {r : Request} (hr : r.OpcodeFree) : Draws d (fun _ => r.make) (Gives r.kind) := by
  cases r with
  | parameters ps => exact parameters hr
  | stream t => exact stream hr

/-- A call that changes what is known of structs. -/
theorem told (answer : Option Nat) {y : Assembler → Option Nat × Assembler} (d' : Draft)
    (hg : d.Grows d') (hy : ∀ order, y (d.inked order) = (answer, d'.inked order)) :
    Draws d (fun _ => (modifyGet y : Assemble (Option Nat))) fun v _ => v = fun _ => answer :=
  .ok (v := fun _ => answer) hg rfl fun order => modifyGet_eq_ok.2 (hy order)

/-- A call does the same in either order; where it lays something down, its record is kept. -/
theorem make {c : Call} (hc : c.OpcodeFree) : Draws d (fun _ => c.make) fun v d' =>
    ∃ answer, v = (fun _ => answer) ∧
      ∀ r n, c = .request r → answer = some n → d'.records r.kind n := by
  cases c with
  | declare =>
    refine (told (some d.structs.size) d.declare Draft.grows_withStructs fun _ => rfl).mono ?_
    rintro _ _ - rfl
    exact ⟨_, rfl, by simp⟩
  | define id s =>
    refine (told none (d.define id s hc) Draft.grows_withStructs fun _ => rfl).mono ?_
    rintro _ _ - rfl
    exact ⟨_, rfl, by simp⟩
  | add s =>
    have hg : d.Grows (d.declare.define d.structs.size s hc) :=
      Draft.grows_withStructs.trans Draft.grows_withStructs
    refine (told (some d.structs.size) _ hg fun _ => rfl).mono ?_
    rintro _ _ - rfl
    exact ⟨_, rfl, by simp⟩
  | request r =>
    refine (make_request hc).bind ?_
    rintro _ d' - ⟨n, rfl, hn⟩
    refine pure ⟨some n, rfl, fun r' n' hr hn' => ?_⟩
    obtain rfl := Call.request.inj hr
    obtain rfl := Option.some.inj hn'
    exact hn

end Draws

/-- **Calls are answered alike in either order**, and whatever they lay down is kept. -/
theorem Draft.replay_alike {calls : List Call} (hfree : ∀ c ∈ calls, c.OpcodeFree) (d : Draft) :
    ∃ answers d', d.Grows d' ∧ (∀ order, replay calls (d.inked order) = (answers, d'.inked order)) ∧
      ∀ r n, (Call.request r, .ok (some n)) ∈ calls.zip answers → d'.records r.kind n := by
  induction calls generalizing d with
  | nil => exact ⟨[], d, .refl d, fun _ => rfl, by simp⟩
  | cons c calls ih =>
    obtain ⟨hc, hfree⟩ := List.forall_mem_cons.1 hfree
    have hanswer : ∃ answer d', d.Grows d' ∧ (∀ order, c.answer (d.inked order) = (answer, d'.inked order)) ∧
        ∀ r n, c = .request r → answer = .ok (some n) → d'.records r.kind n := by
      cases Draws.make (d := d) hc with
      | ok hg holds run =>
        obtain ⟨answer, rfl, hanswer⟩ := holds
        refine ⟨.ok answer, _, hg, fun order => ?_, fun r n hr hn => hanswer r n hr (Except.ok.inj hn)⟩
        rw [Call.answer, run]
      | error hg run =>
        exact ⟨.error _, _, hg, fun order => by rw [Call.answer, run], by simp⟩
    obtain ⟨answer, d₁, hg₁, hanswer, hrecord⟩ := hanswer
    obtain ⟨answers, d₂, hg₂, hanswers, hrecords⟩ := ih hfree d₁
    refine ⟨answer :: answers, d₂, hg₁.trans hg₂, fun order => ?_, fun r n h => ?_⟩
    · rw [replay, hanswer, hanswers]
    · rcases List.mem_cons.1 h with h | h
      · obtain ⟨hc, hn⟩ := Prod.mk.inj h
        exact hg₂.records _ _ (hrecord r n hc.symm hn.symm)
      · exact hrecords r n h

/-! ### Vectors -/

/-- The vectors of a draft that is finished hold its records. -/
theorem Draft.Finished.decodes {d : Draft} {bytes : ByteOrder → Array UInt8} (h : d.Finished bytes)
    (hsize : d.size < 2 ^ 32) :
    TypeVector.Decodes (vector bytes) (fun id n => d.offset? id = some n) d.records := by
  refine ⟨fun order => (h.size order).trans (h.size .little).symm, fun kind n hn => ?_,
    fun kind n hn => ?_, d.offsets⟩
  all_goals obtain ⟨haligned, before, record, after, he, rfl, hforms⟩ := d.kept kind n hn
  · refine Nat.lt_of_le_of_lt ?_ hsize
    rw [Draft.size, he, Entries.stop_append]
    exact Entries.le_stop _ _
  · refine ⟨haligned, record, after, hforms, fun s hs => h.entries s ?_⟩
    rw [he, Entries.spots_append]
    exact List.mem_append_right _ hs

/-- The types that are met where something was laid down for a request: those of its parameters, or its
own, and all that they lead to. -/
inductive Assembler.Request.Meets (tv : TypeVector) (n : Nat) : Request → Descriptor → Prop where
  | parameters {ps : List (UInt32 × TypeSpec)} {list : List Parameter} {d : Descriptor}
      (read : tv.parameters n = .ok list) (reached : tv.Reached list d) : Meets tv n (.parameters ps) d
  | stream {t : TypeSpec} {d e : Descriptor} (read : tv.stream n = .ok d)
      (leads : Relation.ReflTransGen tv.Leads d e) : Meets tv n (.stream t) e

/-- Two vectors say the same about a parameter list and about all that it leads to. -/
def TypeVector.SameList (tv tv' : TypeVector) (offset : Nat) : Prop :=
  tv'.parameters offset = tv.parameters offset ∧
    ∀ list d, tv.parameters offset = .ok list → tv.Reached list d → tv.Same tv' d

/-- Two vectors say the same about a stream and about all that it leads to. -/
def TypeVector.SameStream (tv tv' : TypeVector) (offset : Nat) : Prop :=
  tv'.stream offset = tv.stream offset ∧
    ∀ d e, tv.stream offset = .ok d → Relation.ReflTransGen tv.Leads d e → tv.Same tv' e

namespace TypeVector.Decodes

variable {V : ByteOrder → TypeVector} {T : StructId → Nat → Prop} {K : Kind → Nat → Prop}
  (hV : Decodes V T K) {n : Nat}

include hV

/-- Every type that is met is known. -/
theorem known_of_meets {r : Assembler.Request} {order : ByteOrder} {d : Descriptor} (hn : K r.kind n)
    (h : r.Meets (V order) n d) : ∃ t, d.Known T K t := by
  cases h with
  | parameters read reached =>
    obtain ⟨result, hresult, hknown⟩ := parameters_alike hV hn
    induction reached with
    | parameter hp =>
      obtain ⟨t, -, ht⟩ := hknown _ ((hresult order).symm.trans read) _ hp
      exact ⟨t.2, ht⟩
    | step _ hleads ih => exact closed_known hV order ih hleads
  | stream read leads =>
    induction leads with
    | refl => exact ⟨_, stream_known hV hn read⟩
    | tail _ hleads ih => exact closed_known hV order ih hleads

theorem sameList {ps : List (UInt32 × TypeSpec)} (hn : K (.parameters ps) n) :
    (V .little).SameList (V .big) n := by
  obtain ⟨r, hr, -⟩ := parameters_alike hV hn
  refine ⟨(hr .big).trans (hr .little).symm, fun list d hlist hd => ?_⟩
  obtain ⟨t, ht⟩ := hV.known_of_meets (r := .parameters ps) hn (.parameters hlist hd)
  exact same_of_known hV ht

theorem sameStream {t : TypeSpec} (hn : K (.stream t) n) : (V .little).SameStream (V .big) n := by
  obtain ⟨r, hr, -⟩ := stream_alike hV hn
  refine ⟨(hr .big).trans (hr .little).symm, fun d e hd he => ?_⟩
  obtain ⟨u, hu⟩ := hV.known_of_meets (r := .stream t) hn (.stream hd he)
  exact same_of_known hV hu

end TypeVector.Decodes

/-! ### Machines -/

/-- A machine for another interface, with the same routines. -/
def Machine.along (m : Machine) (i : Interface) : Machine :=
  { m with interface := { i with routines := m.interface.routines } }

def Outcome.along {τ α : Type} (o : Outcome τ α) (i : Interface) : Outcome τ α :=
  { o with machine := o.machine.along i }

namespace Unmarshal

variable {M : Nat → Prop}

/-- Ids of deleted nodes are read without a look at the interface. -/
theorem holds_getDeleted (env : Env) : Holds (Defers M fun _ => True) (getDeleted env) := by
  have hcount : Holds (Defers M fun _ => True) (getCount env) := holds_fetch_of_frame Defers.frame _
  have hnode : Holds (Defers M fun _ => True) (getDeletedNode env) := by
    refine hcount.bind fun id _ => ?_
    dsimp only
    split
    · exact .throw _
    · exact Keeps.bind (Keeps.modify fun _ hs => ⟨hs.deferred, trivial⟩) fun _ _ => .pure trivial
  exact hcount.bind fun n _ => (Keeps.lift _).bind fun _ _ => (hnode.repeatM n).bind fun _ _ =>
    .pure trivial

end Unmarshal

namespace Machine

variable {i j : Interface} {offset : Nat}

/-- Nothing that is written tells the interfaces apart. -/
theorem marshal_along (h : i.vector.SameList j.vector offset) (hsize : j.vector.size = i.vector.size)
    (hlayout : j.layout = i.layout) (m : Machine) (world : Surroundings) (params : List Value)
    (sink : Sink) : (m.along j).marshal world offset params sink
      = ((m.along i).marshal world offset params sink).along j := by
  let env (k : Interface) : Marshal.Env := { (m.along k).startOperation, world with }
  have htwin : (env i).Twin (env j) :=
    ⟨j.vector, m.representation.integers, m.deleted, by simp [env, along, startOperation, hlayout]⟩
  have hput := Marshal.putParameters_alike (env i) (env j) h.1 rfl
    (fun list hlist => ⟨htwin, hsize, fun hd => h.2 list _ hlist hd⟩) (fun _ _ _ _ _ => rfl) params
    (s := { world with writer := .new sink m.config }) rfl
  unfold marshal
  dsimp only [env, startOperation, along] at hput ⊢
  rw [← hput]
  split
  · rfl
  · split
    all_goals rfl

/-- Nothing that is read tells the interfaces apart. -/
theorem unmarshal_along (h : i.vector.SameList j.vector offset) (hsize : j.vector.size = i.vector.size)
    (hlayout : j.layout = i.layout) (m : Machine) (world : Surroundings) (params : List Value)
    (source : Source) : (m.along j).unmarshal world offset params source
      = ((m.along i).unmarshal world offset params source).along j := by
  let env (k : Interface) : Unmarshal.Env := { (m.along k).startOperation with }
  have htwin : (env i).Twin (env j) :=
    ⟨j.vector, m.nodes, by simp [env, along, startOperation, hlayout]⟩
  have hget := (Unmarshal.getParameters_alike (env i) (env j) (D := fun _ => True) h.1
    (fun list hlist => ⟨htwin, hsize, fun hd => h.2 list _ hlist hd⟩)
    (fun _ _ _ _ _ _ => .self (Unmarshal.holds_getDeleted _)) params
    (s := { world with reader := { source } }) rfl trivial).1
  unfold unmarshal
  dsimp only [env, startOperation, along] at hget ⊢
  rw [← hget]
  split
  all_goals rfl

end Machine

/-! ### Immateriality -/

namespace Assembler

/-- What was laid down for a request is the same in two interfaces. For a parameter list no operation
tells them apart. -/
def Request.SameIn (i j : Interface) (n : Nat) : Request → Prop
  | .stream _ => i.vector.SameStream j.vector n
  | .parameters _ => i.vector.SameList j.vector n ∧
      ∀ (m : Machine) (world : Surroundings) (params : List Value),
        (∀ sink, (m.along j).marshal world n params sink
          = ((m.along i).marshal world n params sink).along j) ∧
        ∀ source, (m.along j).unmarshal world n params source
          = ((m.along i).unmarshal world n params source).along j

theorem sameIn_parameters {i j : Interface} {n : Nat} {ps : List (UInt32 × TypeSpec)}
    (h : i.vector.SameList j.vector n) (hsize : j.vector.size = i.vector.size)
    (hlayout : j.layout = i.layout) : (Request.parameters ps).SameIn i j n :=
  ⟨h, fun m world params => ⟨Machine.marshal_along h hsize hlayout m world params,
    Machine.unmarshal_along h hsize hlayout m world params⟩⟩

/-- **The byte order of a vector is immaterial.** Calls without bare opcodes, whether they fail or not,
are answered alike by assemblers in either order. The assemblers are finished to vectors of one length
and to the same layouts, or with the same fault. At the offsets that were given out all that is read
from the two vectors is the same, and operations do the same over the two interfaces. -/
theorem order_immaterial (flags : UInt32) (calls : List Call) (hfree : ∀ c ∈ calls, c.OpcodeFree) :
    let little := replay calls (.new .little flags)
    let big := replay calls (.new .big flags)
    big.1 = little.1 ∧
      (big.2.finish.map fun r => (r.1.size, r.2)) = (little.2.finish.map fun r => (r.1.size, r.2)) ∧
      ((Interface.ofAssembler big.2).map fun i => (i.vector.size, i.layout))
        = ((Interface.ofAssembler little.2).map fun i => (i.vector.size, i.layout)) ∧
      ∀ i j, Interface.ofAssembler little.2 = .ok i → Interface.ofAssembler big.2 = .ok j →
        i.vector.size < 2 ^ 32 →
          ∀ r n, (Call.request r, .ok (some n)) ∈ calls.zip little.1 → r.SameIn i j n := by
  obtain ⟨answers, d, -, hreplay, hrecords⟩ := Draft.replay_alike hfree (Draft.blank flags)
  simp only [Draft.inked_blank] at hreplay
  dsimp only
  rw [hreplay, hreplay]
  have hfinish : ((d.inked .big).finish.map fun r => (r.1.size, r.2))
      = ((d.inked .little).finish.map fun r => (r.1.size, r.2)) := by
    rcases d.finish_alike with ⟨e, h⟩ | ⟨c, bytes, -, hbytes, h⟩
    · rw [h, h]
    · rw [h, h]
      show Except.ok ((bytes .big).size, _) = .ok ((bytes .little).size, _)
      rw [hbytes.size, hbytes.size]
  refine ⟨rfl, hfinish, ?_⟩
  rcases d.ofAssembler_alike with ⟨e, h⟩ | ⟨c, bytes, hgrows, hbytes, h⟩
  · refine ⟨by rw [h, h], fun i j hi => ?_⟩
    rw [h] at hi
    exact absurd hi (by simp)
  have hsize : (bytes .big).size = (bytes .little).size := by rw [hbytes.size, hbytes.size]
  refine ⟨?_, fun i j hi hj hsmall r n hn => ?_⟩
  · rw [h, h]
    show Except.ok ((bytes .big).size, _) = .ok ((bytes .little).size, _)
    rw [hsize]
  rw [h] at hi hj
  obtain rfl := Except.ok.inj hi
  obtain rfl := Except.ok.inj hj
  have hdecodes := hbytes.decodes (Nat.lt_of_le_of_lt (Nat.le_of_eq (hbytes.size .little).symm) hsmall)
  have hrecord : c.records r.kind n := hgrows.records _ _ (hrecords r n hn)
  cases r with
  | stream t => exact hdecodes.sameStream hrecord
  | parameters ps => exact sameIn_parameters (hdecodes.sameList hrecord) hsize rfl

/-- A list by a pointer, before that a struct that was not declared, and behind it a pointer by
itself. -/
def listCalls : List Call :=
  [.declare, .request (.stream (.struct 1)),
    .define 0 ⟨[.scalar .long, .pointer .unique (.struct 0)], none⟩,
    .request (.parameters [(0, .pointer .unique (.struct 0))]),
    .request (.stream (.pointer .full (.scalar .double)))]

theorem opcodeFree_listCalls : ∀ c ∈ listCalls, c.OpcodeFree := by
  have hleaf : ∀ t : TypeSpec, (∀ op, t ≠ .opcode op) → t.parts = [] → t.OpcodeFree :=
    fun t ht hparts => .intro ht (by simp [hparts])
  have hstruct : ∀ id, (TypeSpec.struct id).OpcodeFree := fun id => hleaf _ (by simp) rfl
  have hscalar : ∀ kind, (TypeSpec.scalar kind).OpcodeFree := fun kind => hleaf _ (by simp) rfl
  have hpointer : ∀ kind t, t.OpcodeFree → (TypeSpec.pointer kind t).OpcodeFree := fun kind t ht =>
    .intro (by simp) (by simpa [TypeSpec.parts] using ht)
  simp only [listCalls, List.forall_mem_cons, Call.OpcodeFree, Request.OpcodeFree,
    StructSpec.OpcodeFree]
  exact ⟨trivial, hstruct 1, ⟨hscalar _, hpointer _ _ (hstruct 0), by simp⟩,
    ⟨hpointer _ _ (hstruct 0), by simp⟩, hpointer _ _ (hscalar _), by simp⟩

theorem order_immaterial_list : ∃ i j : Interface,
    (∀ c ∈ listCalls, c.OpcodeFree) ∧
      (replay listCalls (.new .little 0)).1
        = [.ok (some 0), .error (.invalidDescriptor 12 .structUndefined), .ok none, .ok (some 24),
          .ok (some 48)] ∧
      Interface.ofAssembler (replay listCalls (.new .little 0)).2 = .ok i ∧
      Interface.ofAssembler (replay listCalls (.new .big 0)).2 = .ok j ∧ i.vector.size < 2 ^ 32 ∧
      (replay listCalls (.new .big 0)).1 = (replay listCalls (.new .little 0)).1 ∧
      j.vector.size = i.vector.size ∧ j.vector.bytes ≠ i.vector.bytes ∧
      (Request.parameters [(0, .pointer .unique (.struct 0))]).SameIn i j 24 ∧
      (Request.stream (.pointer .full (.scalar .double))).SameIn i j 48 := by
  have hanswers : (replay listCalls (.new .little 0)).1
      = [.ok (some 0), .error (.invalidDescriptor 12 .structUndefined), .ok none, .ok (some 24),
        .ok (some 48)] := by decide +kernel
  have hsizes : ((Interface.ofAssembler (replay listCalls (.new .little 0)).2).map
      fun i => (i.vector.size, i.vector.bytes[0]?)) = .ok (93, some 8) := by decide +kernel
  have hbytes : ((Interface.ofAssembler (replay listCalls (.new .big 0)).2).map
      fun i => (i.vector.size, i.vector.bytes[0]?)) = .ok (93, some 0) := by decide +kernel
  obtain ⟨hsame, -, -, hread⟩ := order_immaterial 0 listCalls opcodeFree_listCalls
  cases hi : Interface.ofAssembler (replay listCalls (.new .little 0)).2 with
  | error e => exact absurd (hi ▸ hsizes) (by simp [Except.map])
  | ok i =>
    cases hj : Interface.ofAssembler (replay listCalls (.new .big 0)).2 with
    | error e => exact absurd (hj ▸ hbytes) (by simp [Except.map])
    | ok j =>
      obtain ⟨hi93, hi8⟩ := Prod.mk.inj (Except.ok.inj (hi ▸ hsizes))
      obtain ⟨hj93, hj0⟩ := Prod.mk.inj (Except.ok.inj (hj ▸ hbytes))
      have hsmall : i.vector.size < 2 ^ 32 := by
        rw [hi93]
        decide
      refine ⟨i, j, opcodeFree_listCalls, hanswers, rfl, rfl, hsmall, hsame, hj93.trans hi93.symm,
        fun h => ?_, hread i j hi hj hsmall _ _ ?_, hread i j hi hj hsmall _ _ ?_⟩
      · rw [h, hi8] at hj0
        exact absurd hj0 (by decide)
      all_goals
        rw [hanswers]
        simp [listCalls]

end Assembler

end Ndr
