import Ndr.Proofs.Assembly.Queue
import Ndr.Proofs.ByValue

/-!
Vectors in which no type contains itself. What a type of a finished vector contains is known to be read
of a part of the type that it was assembled from, or of a field of a struct that this includes; and
structs that were laid down include one another without cycles.
-/

namespace Ndr

open Entries

/-! ### Parts are smaller -/

theorem UnionSpec.sizeOf_armTypes {u : UnionSpec} {t : TypeSpec} (h : t ∈ u.armTypes) :
    sizeOf t < sizeOf u := by
  obtain ⟨switch, field, arms, default, optional⟩ := u
  simp only [UnionSpec.mk.sizeOf_spec]
  rcases List.mem_append.1 h with h | h
  · obtain ⟨⟨label, arm⟩, harm, rfl⟩ := List.mem_filterMap.1 h
    have := List.sizeOf_lt_of_mem harm
    simp at this
    omega
  · cases default with
    | arm s =>
      obtain rfl := List.mem_singleton.1 h
      simp only [DefaultArm.arm.sizeOf_spec]
      omega
    | _ => exact absurd h List.not_mem_nil

theorem TypeSpec.sizeOf_contents {s t : TypeSpec} (h : s ∈ t.contents) : sizeOf s < sizeOf t := by
  cases t with
  | nested struct =>
    obtain ⟨fields, slots⟩ := struct
    have : sizeOf s < sizeOf fields := List.sizeOf_lt_of_mem h
    simp only [TypeSpec.nested.sizeOf_spec, StructSpec.mk.sizeOf_spec]
    omega
  | array array =>
    obtain rfl := List.mem_singleton.1 h
    obtain ⟨kind, bounds, limits, element, string, v1⟩ := array
    simp only [TypeSpec.array.sizeOf_spec, ArraySpec.mk.sizeOf_spec]
    omega
  | union union =>
    have := UnionSpec.sizeOf_armTypes h
    simp only [TypeSpec.union.sizeOf_spec]
    omega
  | converted kind routine wire =>
    obtain rfl := List.mem_singleton.1 h
    simp only [TypeSpec.converted.sizeOf_spec]
    omega
  | freeRep routine inner =>
    obtain rfl := List.mem_singleton.1 h
    simp only [TypeSpec.freeRep.sizeOf_spec]
    omega
  | pipe element =>
    obtain rfl := List.mem_singleton.1 h
    simp only [TypeSpec.pipe.sizeOf_spec]
    omega
  | _ => exact absurd h (by simp [TypeSpec.contents, TypeSpec.parts])

/-! ### What is contained -/

namespace TypeVector

variable {V : ByteOrder → TypeVector} {T : StructId → Nat → Prop} {K : Kind → Nat → Prop}
  {a : Assembler} {t : TypeSpec} {d e : Descriptor} {order : ByteOrder}

/-- A descriptor is read of a part of a type that is among its contents, or of a field of a struct that
the type includes and that was laid down. -/
def KnownIn (a : Assembler) (T : StructId → Nat → Prop) (K : Kind → Nat → Prop) (t : TypeSpec)
    (e : Descriptor) : Prop :=
  ∃ u, e.Known T K u ∧ ((sizeOf u < sizeOf t ∧ ∀ id, u.Includes id → t.Includes id) ∨
    ∃ id n s, T id n ∧ t.Includes id ∧ a.spec? id = some s ∧ u ∈ s.fields)

theorem KnownIn.of_contents {u : TypeSpec} (h : e.Known T K u) (hu : u ∈ t.contents) :
    KnownIn a T K t e :=
  ⟨u, h, .inl ⟨TypeSpec.sizeOf_contents hu, fun _ hid => .part hu hid⟩⟩

variable (hV : Decodes V T K)
  (hsettled : ∀ id n, T id n → ∃ s, a.spec? id = some s ∧ K (.struct s) n)

include hV hsettled

/-- **What a type contains that is known is known in it.** -/
theorem knownIn_of_contains (h : d.Known T K t) (he : (V order).Contains d e) : KnownIn a T K t e := by
  have hform := he.form
  induction h with
  | leaf h => cases h <;> exact hform.elim
  | range h =>
    cases h with
    | leaf h =>
      cases h
      exact hform.elim
  | freeRep _ ih =>
    have hinner : ∀ {routine t id}, TypeSpec.Includes t id → (TypeSpec.freeRep routine t).Includes id :=
      fun h => .part List.mem_cons_self h
    obtain ⟨u, hu, (⟨hsize, hincludes⟩ | ⟨id, n, s, hn, hid, hs⟩)⟩ := ih he hform
    · refine ⟨u, hu, .inl ⟨hsize.trans (TypeSpec.sizeOf_contents List.mem_cons_self), ?_⟩⟩
      exact fun id hid => hinner (hincludes id hid)
    · exact ⟨u, hu, .inr ⟨id, n, s, hn, hinner hid, hs⟩⟩
  | @struct id _ n _ _ _ hn =>
    obtain ⟨definition, hdefinition, hmem⟩ := hform
    obtain ⟨s, hspec, hs⟩ := hsettled id n hn
    obtain ⟨u, hu, hknown⟩ := exists_of_forall₂ (fields_known hV hs hdefinition).flip hmem
    exact ⟨u, hknown, .inr ⟨id, n, s, hn, .struct id, hspec, hu⟩⟩
  | nested hlength h =>
    have hall := List.forall₂_iff_zip.2 ⟨hlength, fun h' => h _ _ h'⟩
    obtain ⟨u, hu, hknown⟩ := exists_of_forall₂ hall.flip hform
    exact .of_contents hknown hu
  | array hn =>
    obtain ⟨definition, hdefinition, rfl⟩ := hform
    exact .of_contents (element_known hV hn hdefinition) List.mem_cons_self
  | encapsulatedUnion hn | switchedUnion hn =>
    obtain ⟨u, hu, k, hk, arm, offset, harm, hbody, hstream⟩ := hform
    obtain ⟨t, ht, hknown⟩ := arm_known hV (arms_lead hV hn hu hk harm) hbody hstream
    exact .of_contents hknown ht
  | pointer => exact hform.elim
  | converted hn | pipe hn => exact .of_contents (stream_known hV hn hform) List.mem_cons_self

/-- Containment comes to an end below a type where it does below the structs that it includes. -/
theorem founded_of_structs {Q : StructId → Prop}
    (hQ : ∀ {id s u e}, Q id → a.spec? id = some s → u ∈ s.fields → e.Known T K u → (V order).Founded e)
    (hincludes : ∀ id n, t.Includes id → T id n → Q id) (h : d.Known T K t) : (V order).Founded d := by
  -- the parts of the type, as far as structs are not looked into
  induction hn : sizeOf t using Nat.strong_induction_on generalizing t d with
  | _ n ih =>
    refine .intro d fun e he => ?_
    obtain ⟨u, hu, (⟨hsize, hsub⟩ | ⟨id, m, s, hm, hid, hs, hmem⟩)⟩ :=
      knownIn_of_contains hV hsettled h he
    · exact ih (sizeOf u) (hn ▸ hsize) (fun id m hid => hincludes id m (hsub id hid)) hu rfl
    · exact hQ (hincludes id m hid hm) hs hmem hu

variable (hfounded : ∀ id n, T id n → a.Founded id)

include hfounded

/-- **Containment comes to an end below all types of a vector** where it does below the structs that are
laid down. -/
theorem founded_of_known (h : d.Known T K t) : (V order).Founded d := by
  have hfields : ∀ {id s u e}, a.Founded id → a.spec? id = some s → u ∈ s.fields → e.Known T K u →
      (V order).Founded e := by
    intro id s u e hid
    -- a struct after those that it includes
    induction hid generalizing s u e with
    | intro id _ ih =>
      intro hs hu he
      refine founded_of_structs hV hsettled (Q := a.Includes id)
        (fun hid hs hu he => ih _ hid hs hu he) (fun inner _ hinner _ => ?_) he
      exact ⟨s, hs, u, hu, hinner⟩
  exact founded_of_structs hV hsettled (Q := fun id => ∃ n, T id n)
    (fun ⟨n, hn⟩ hs hu he => hfields (hfounded _ n hn) hs hu he) (fun _ n _ hn => ⟨n, hn⟩) h

end TypeVector

/-! ### What is assembled -/

namespace Assembler

/-- The offset of a struct in the vector of an assembler that is finished. -/
def laid? (a : Assembler) (id : StructId) : Option Nat :=
  match emitPending a.structs.size a with
  | .ok _ b => b.offset? id
  | .error _ _ => none

/-- The types of a vector: those that were asked for and answered, the structs that were laid down, all
that they contain and what pointers in them lead to. -/
inductive Described (tv : TypeVector) (given : List (Call × Except Fault (Option Nat)))
    (laid : StructId → Option Nat) : Descriptor → Prop where
  | parameter {ps : List (UInt32 × TypeSpec)} {n : Nat} {list : List Parameter} {p : Parameter}
      (answered : (Call.request (.parameters ps), .ok (some n)) ∈ given)
      (read : tv.parameters n = .ok list) (mem : p ∈ list) : Described tv given laid p.descriptor
  | stream {t : TypeSpec} {n : Nat} {d : Descriptor}
      (answered : (Call.request (.stream t), .ok (some n)) ∈ given) (read : tv.stream n = .ok d) :
      Described tv given laid d
  | struct {id : StructId} {o n : Nat} {m : Modifiers} {kind : StructKind} {props : UInt8}
      (here : laid id = some n) : Described tv given laid ⟨o, m, .struct kind props n⟩
  | contained {d e : Descriptor} (outer : Described tv given laid d) (contains : tv.Contains d e) :
      Described tv given laid e
  | pointee {d e : Descriptor} {kind : PointerKind} {props : UInt8} {n : Nat}
      (outer : Described tv given laid d) (form : d.form = .pointer kind props n)
      (read : tv.stream n = .ok e) : Described tv given laid e

variable {tv : TypeVector} {given : List (Call × Except Fault (Option Nat))}
  {laid : StructId → Option Nat} {d : Descriptor}

/-- The parts of the types of a vector stand in it. -/
theorem Described.standsIn (h : Described tv given laid d) {e : Descriptor} (he : tv.Contains d e) :
    e.StandsIn tv := by
  -- a struct that was laid down is known by its offset, and does not stand in the vector itself
  have hd : d.StandsIn tv ∨ ∃ kind props n, d.form = .struct kind props n := by
    induction h generalizing e with
    | parameter _ read mem =>
      exact .inl (TypeVector.parameters_of_gives TypeVector.gives_readDescriptor_standsIn read _ mem)
    | stream _ read | pointee _ _ read =>
      exact .inl (TypeVector.stream_of_gives TypeVector.gives_readDescriptor_standsIn read)
    | struct => exact .inr ⟨_, _, _, rfl⟩
    | contained _ contains ih =>
      rcases ih contains with hd | ⟨kind, props, n, hform⟩
      · exact .inl (contains.standsIn hd)
      · have hfield := contains.form
        rw [hform] at hfield
        obtain ⟨s, hs, hmem⟩ := hfield
        exact .inl ((TypeVector.structDefinition_of_gives TypeVector.gives_readDescriptor_standsIn hs).2 _ hmem)
  rcases hd with hd | ⟨kind, props, n, hform⟩
  · exact he.standsIn hd
  · have hfield := he.form
    rw [hform] at hfield
    obtain ⟨s, hs, hmem⟩ := hfield
    exact (TypeVector.structDefinition_of_gives TypeVector.gives_readDescriptor_standsIn hs).2 e hmem

/-- The types of a vector are known. -/
theorem Described.known {V : ByteOrder → TypeVector} {K : Kind → Nat → Prop} {a : Assembler}
    {order : ByteOrder} (hV : TypeVector.Decodes V (fun id n => laid id = some n) K)
    (hsettled : ∀ id n, laid id = some n → ∃ s, a.spec? id = some s ∧ K (.struct s) n)
    (hgiven : ∀ r n, (Call.request r, .ok (some n)) ∈ given → K r.kind n)
    (h : Described (V order) given laid d) : ∃ t, d.Known (fun id n => laid id = some n) K t := by
  induction h with
  | parameter answered read mem =>
    obtain ⟨r, hr, hknown⟩ := TypeVector.parameters_alike hV (hgiven _ _ answered)
    obtain ⟨p, -, hp⟩ := hknown _ ((hr order).symm.trans read) _ mem
    exact ⟨p.2, hp⟩
  | stream answered read => exact ⟨_, TypeVector.stream_known hV (hgiven _ _ answered) read⟩
  | struct here => exact ⟨_, .struct here⟩
  | contained _ contains ih =>
    obtain ⟨t, ht⟩ := ih
    obtain ⟨u, hu, -⟩ := TypeVector.knownIn_of_contains hV hsettled ht contains
    exact ⟨u, hu⟩
  | pointee _ form read ih =>
    obtain ⟨t, ht⟩ := ih
    have hform := ht.form
    rw [form] at hform
    obtain ⟨u, hu⟩ := hform
    exact ⟨u, TypeVector.stream_known hV hu read⟩

/-- **No type that is assembled contains itself by value.** After any calls without bare opcodes the
structs that are queued are laid down in as many steps as there are structs. A request that mentions a
struct that leads by value into a cycle is refused, and so is the end of the assembly where such a
struct would be laid down. Where an assembler is finished, all structs that it awaits are laid down, and
none leads into a cycle; and in its vector, whose offsets have 32 bits, containment comes to an end below
every type, as does all that goes down it. -/
theorem containment_founded (order : ByteOrder) (flags : UInt32) (calls : List Call)
    (hfree : ∀ c ∈ calls, c.OpcodeFree) :
    let done := replay calls (.new order flags)
    let a := done.2
    (∀ more, a.structs.size ≤ more → emitPending more a = emitPending a.structs.size a) ∧
      (∀ r id, Request.Mentions r id → a.Circular id → ∃ e b, r.make a = .error e b) ∧
      (∀ id, a.Awaits id → a.Circular id → ∃ e, a.finish = .error e) ∧
      ∀ bytes layout, a.finish = .ok (bytes, layout) →
        (∀ id, a.Awaits id → ∃ n, a.laid? id = some n) ∧
        (∀ id n, a.laid? id = some n → a.Founded id) ∧
        let tv : TypeVector := { bytes, order, minor := TypeVector.minorVersion }
        (flags = 0 → Interface.ofAssembler a = .ok { vector := tv, layout }) ∧
        (tv.size < 2 ^ 32 → ∀ d, Described tv (calls.zip done.1) a.laid? d →
          tv.Founded d ∧ tv.EndsByValue d) := by
  obtain ⟨answers, d, hgrows, hreplay, hrecords⟩ := Draft.replay_alike hfree (Draft.blank flags)
  have hopen : ∀ order, (d.inked order).Open := fun order => by
    have := (Open.new order flags).replay calls
    rwa [← Draft.inked_blank, hreplay] at this
  simp only [Draft.inked_blank] at hreplay
  dsimp only
  rw [hreplay]
  refine ⟨fun more hmore => emitPending_eq (hopen order).bounded hmore,
    fun r id hid hc => request_refused hid hc, fun id hid hc => (hopen order).finish_refused hid hc,
    fun bytes layout hfinish => ?_⟩
  rcases d.finish_alike with ⟨e, h⟩ | ⟨c, image, hlays, hbytes, h⟩
  · exact absurd ((h order).symm.trans hfinish) (by simp)
  obtain ⟨rfl, rfl⟩ := Prod.mk.inj (Except.ok.inj ((h order).symm.trans hfinish))
  have hrun : emitPending (d.inked order).structs.size (d.inked order) = .ok ⟨⟩ (c.inked order) :=
    hlays.run order
  obtain ⟨hway, hnone, hspecs, -⟩ := (hopen order).underWay.emitPending (hopen order).bounded hrun
  have hlaid : (d.inked order).laid? = c.offset? := by
    funext id
    unfold laid?
    rw [hrun]
    rfl
  have hfounded : ∀ id n, c.offset? id = some n → (c.inked order).Founded id := fun id n hn =>
    hway.founded hn
  rw [hlaid]
  refine ⟨fun id hid => ?_, fun id n hn => (Founded.congr hspecs).1 (hfounded id n hn), fun hflags => ?_,
    fun hsize x hx => ?_⟩
  · rcases hway.waiting id ((hopen order).queued hrun hid) with hpending | hoffset
    · exact absurd hpending (by simp [hnone])
    · exact hoffset
  · have hzero : c.flags = 0 := (hlays.flags.trans hgrows.flags).trans hflags
    have hparse := parse_of_header (hbytes.header order) (hbytes.flags order)
    rw [if_neg (by simpa using hzero)] at hparse
    rw [Interface.ofAssembler, hfinish]
    show (TypeVector.parse _ >>= _) = _
    rw [hparse]
    rfl
  · have hdecodes := hbytes.decodes (Nat.lt_of_le_of_lt (Nat.le_of_eq (hbytes.size order).symm) hsize)
    have hsettled : c.Settled := hlays.settled fun id n hn =>
      absurd (((hopen order).offsets id).symm.trans hn) (by simp)
    have hstands := fun e => hx.standsIn (e := e)
    have hx : Described (Draft.vector image order) (calls.zip answers) c.offset? x := hx
    obtain ⟨t, ht⟩ := hx.known hdecodes (a := c.inked order) hsettled fun r n hn =>
      hlays.records _ _ (hrecords r n hn)
    have hends : (Draft.vector image order).Founded x :=
      TypeVector.founded_of_known hdecodes (a := c.inked order) hsettled hfounded ht
    exact ⟨hends, hends.endsByValue hstands⟩

/-- Two structs that contain each other, and are refused, until the second one only points to the
first. -/
def ringCalls : List Call :=
  [.declare, .declare, .define 0 ⟨[.scalar .long, .struct 1], none⟩, .define 1 ⟨[.struct 0], none⟩,
    .request (.stream (.struct 0)), .define 1 ⟨[.pointer .unique (.struct 0)], none⟩,
    .request (.parameters [(0, .struct 0)])]

theorem opcodeFree_ringCalls : ∀ c ∈ ringCalls, c.OpcodeFree := by
  have hleaf : ∀ t : TypeSpec, (∀ op, t ≠ .opcode op) → t.parts = [] → t.OpcodeFree :=
    fun t ht hparts => .intro ht (by simp [hparts])
  have hstruct : ∀ id, (TypeSpec.struct id).OpcodeFree := fun id => hleaf _ (by simp) rfl
  have hscalar : ∀ kind, (TypeSpec.scalar kind).OpcodeFree := fun kind => hleaf _ (by simp) rfl
  have hpointer : (TypeSpec.pointer .unique (.struct 0)).OpcodeFree :=
    .intro (by simp) (by simpa [TypeSpec.parts] using hstruct 0)
  simp only [ringCalls, List.forall_mem_cons, Call.OpcodeFree, Request.OpcodeFree,
    StructSpec.OpcodeFree]
  exact ⟨trivial, trivial, ⟨hscalar _, hstruct 1, by simp⟩, ⟨hstruct 0, by simp⟩, hstruct 0,
    ⟨hpointer, by simp⟩, ⟨hstruct 0, by simp⟩, by simp⟩

/-- The first struct contains the second again. -/
def closedRing : List Call := ringCalls ++ [.define 1 ⟨[.struct 0], none⟩]

theorem containment_founded_ring :
    (∀ c ∈ ringCalls, c.OpcodeFree) ∧ (∀ c ∈ closedRing, c.OpcodeFree) ∧
      (replay ringCalls (.new .little 0)).1
        = [.ok (some 0), .ok (some 1), .ok none, .ok none, .error (.invalidDescriptor 12 .containsItself),
          .ok none, .ok (some 12)] ∧
      (∃ (bytes : Array UInt8) (layout : Layout),
        (replay ringCalls (.new .little 0)).2.finish = .ok (bytes, layout) ∧ bytes.size = 89 ∧
        (replay ringCalls (.new .little 0)).2.laid? 1 = some 68 ∧
        ({ bytes, order := .little, minor := TypeVector.minorVersion } : TypeVector).Founded
          ⟨0, {}, .struct .fixed 0 68⟩) ∧
      ∃ e, (replay closedRing (.new .little 0)).2.finish = .error e := by
  have hclosed : ∀ c ∈ closedRing, c.OpcodeFree := by
    refine List.forall_mem_append.2 ⟨opcodeFree_ringCalls, ?_⟩
    simp only [List.forall_mem_singleton, Call.OpcodeFree, StructSpec.OpcodeFree]
    exact .intro (by simp) (by simp [TypeSpec.parts])
  have hanswers : (replay ringCalls (.new .little 0)).1
      = [.ok (some 0), .ok (some 1), .ok none, .ok none, .error (.invalidDescriptor 12 .containsItself),
        .ok none, .ok (some 12)] := by decide +kernel
  have hsize : ((replay ringCalls (.new .little 0)).2.finish.map fun r => r.1.size) = .ok 89 := by
    decide +kernel
  have hlaid : (replay ringCalls (.new .little 0)).2.laid? 1 = some 68 := by decide +kernel
  refine ⟨opcodeFree_ringCalls, hclosed, hanswers, ?_, ?_⟩
  · obtain ⟨-, -, -, hdone⟩ := containment_founded .little 0 ringCalls opcodeFree_ringCalls
    cases hfinish : (replay ringCalls (.new .little 0)).2.finish with
    | error e => exact absurd (hfinish ▸ hsize) (by simp [Except.map])
    | ok done =>
      obtain ⟨bytes, layout⟩ := done
      have hbytes : bytes.size = 89 := Except.ok.inj (hfinish ▸ hsize)
      obtain ⟨-, -, -, htypes⟩ := hdone bytes layout hfinish
      refine ⟨bytes, layout, rfl, hbytes, hlaid, (htypes ?_ _ (.struct hlaid)).1⟩
      show bytes.size < 2 ^ 32
      rw [hbytes]
      decide
  · obtain ⟨-, -, hrefused, -⟩ := containment_founded .little 0 closedRing hclosed
    have hqueued : ((replay closedRing (.new .little 0)).2.structs[0]?.map (·.queued)) = some true := by
      decide +kernel
    obtain ⟨e, he, hq⟩ := Option.map_eq_some_iff.1 hqueued
    have hfirst : (replay closedRing (.new .little 0)).2.Includes 0 1 :=
      ⟨⟨[.scalar .long, .struct 1], none⟩, rfl, .struct 1, by simp, .struct 1⟩
    have hsecond : (replay closedRing (.new .little 0)).2.Includes 1 0 :=
      ⟨⟨[.struct 0], none⟩, rfl, .struct 0, by simp, .struct 0⟩
    exact hrefused 0 (.queued ⟨e, he, hq⟩) ⟨0, .refl, .tail (.single hfirst) hsecond⟩

end Assembler

end Ndr
