import Ndr.Pipe.Script
import Ndr.Proofs.Assembly.Graph
import Ndr.Proofs.Delivery

/-!
Assembled pipes: a parameter list of pipes and records, as it was asked for from an assembler, is one whose
pipes deliver.
-/

namespace Ndr

/-! ### Types of records -/

/-- The types of records: scalars without a range, structs, and markers. -/
inductive TypeSpec.IsRecord : TypeSpec → Prop where
  | scalar (kind : Scalar) : IsRecord (.scalar kind)
  | struct (id : StructId) : IsRecord (.struct id)
  | nested {s : StructSpec} (hslots : s.Permutes) (hfields : ∀ t ∈ s.fields, t.IsRecord) :
      IsRecord (.nested s)
  | align (boundary : Nat) : IsRecord (.align boundary)

theorem TypeSpec.IsRecord.isGraph {t : TypeSpec} (h : t.IsRecord) : t.IsGraph := by
  induction h with
  | scalar kind => exact .scalar kind
  | struct id => exact .struct id
  | nested hslots _ ih => exact .nested hslots ih
  | align boundary => exact .align boundary

/-- What a parameter carries: the elements of a pipe, or the value itself. -/
def TypeSpec.carried : TypeSpec → TypeSpec
  | .pipe element => element
  | t => t

namespace Assembler

section

variable {i : Interface} {a b : Assembler} {ps : List (UInt32 × TypeSpec)} {ts : List TypeSpec}
  {routines : List Routine} {d : Descriptor}

theorem Throughout.isGraph (h : b.Throughout TypeSpec.IsRecord ts) : b.Throughout TypeSpec.IsGraph ts where
  types t ht := (h.types t ht).isGraph
  structs id s hr hs := ⟨(h.structs id s hr hs).1, fun t ht => ((h.structs id s hr hs).2 t ht).isGraph⟩

/-- A descriptor of a record that some types lead to. -/
def SpellsRecord (i : Interface) (a b : Assembler) (ts : List TypeSpec) (d : Descriptor) : Prop :=
  ∃ t, Spells i a {} t d ∧ b.Within TypeSpec.IsRecord ts t

/-- Records that are assembled are records through and through. -/
theorem ofRecords_spellsRecord (hspec : ∀ id, a.spec? id = b.spec? id) (hs : Settled i a a)
    (hts : b.Throughout TypeSpec.IsRecord ts) :
    ({ i with routines } : Interface).OfRecords (SpellsRecord i a b ts) where
  record := by
    rintro d ⟨t, hspells, hin⟩
    have hgraph : d.IsGraph { i with routines } := isGraph_of_spells hspec hs hts.isGraph hspells
      ⟨hin.type.isGraph, hin.refers⟩
    obtain ⟨htype, -⟩ := hin
    unfold Descriptor.IsGraph at hgraph
    unfold Descriptor.IsRecord
    cases htype <;> cases hspells <;> exact hgraph
  embedded := by
    rintro d e ⟨t, hspells, hin⟩ hembeds
    obtain ⟨htype, hrefers⟩ := hin
    cases hembeds with
    | field form found mem =>
      cases htype with
      | struct id =>
        cases hspells with
        | struct _ _ hoffset =>
          obtain ⟨-, -, rfl⟩ := TypeForm.struct.inj form
          have hr := hrefers id (.struct id)
          obtain ⟨s, d', hs', hd'⟩ := definedAs_of_offset hspec hs hoffset fun s hs t ht =>
            (hts.field hr hs ht).type.isGraph.plain
          obtain rfl := Except.ok.inj (found.symm.trans hd'.read)
          obtain ⟨t, ht, hspells⟩ := exists_of_forall₂ hd'.fields.flip mem
          exact ⟨t, hspells, hts.field hr hs' ht⟩
      | scalar | nested | align =>
        cases hspells
        cases form
    | nestedField form mem =>
      cases htype with
      | nested _ hfields =>
        cases hspells with
        | nested _ hall =>
          obtain ⟨-, -, rfl⟩ := TypeForm.nested.inj form
          obtain ⟨t, ht, hspells⟩ := exists_of_forall₂ hall.flip mem
          exact ⟨t, hspells, hfields t ht, fun id hid => hrefers id (.part ht hid)⟩
      | scalar | struct | align =>
        cases hspells
        cases form
    | element form | piped form =>
      cases htype <;> cases hspells <;> cases form
    | arm form =>
      rcases form with ⟨_, form⟩ | ⟨_, _, form⟩ <;> cases htype <;> cases hspells <;> cases form

/-- A parameter that is a pipe of records, or a record, as it was assembled. -/
theorem conveys_of_spells (hts : b.Throughout TypeSpec.IsRecord ts) {t : TypeSpec}
    (hmem : t.carried ∈ ts) (hmarker : t.carried.isMarker = false) (h : Spells i a {} t d) :
    ({ i with routines } : Interface).Conveys (SpellsRecord i a b ts) d ∧
      (d.IsPipe ↔ ∃ element, t = .pipe element) := by
  have hin := hts.root hmem
  have hfield : ∀ {e}, Spells i a {} t.carried e → e.isField := fun he => by
    rw [isField_of_plain he hin.type.isGraph.plain, hmarker]
    rfl
  by_cases hpipe : ∃ element, t = .pipe element
  · obtain ⟨element, rfl⟩ := hpipe
    cases h with
    | pipe hstream hd =>
      exact ⟨.pipe rfl hstream ⟨element, hd, hin⟩ (hfield hd), fun _ => ⟨element, rfl⟩,
        fun _ => ⟨_, _, rfl⟩⟩
  · have hcarried : t.carried = t := by
      unfold TypeSpec.carried
      split
      · exact absurd ⟨_, rfl⟩ hpipe
      · rfl
    rw [hcarried] at hin hfield
    refine ⟨.record ⟨t, h, hin⟩ (hfield h), fun ⟨props, n, hform⟩ => ?_, fun h => absurd h hpipe⟩
    obtain ⟨htype, -⟩ := hin
    cases htype <;> cases h <;> cases hform

/-- A parameter list of pipes and records, as it was assembled. -/
theorem conveys_of_assembled (routines : List Routine) {log : List (Nat × Request)} {offset : Nat}
    (hb : Assembled b log)
    (he : Interface.ofAssembler b = .ok i) (hi : i.Small) (hps : (offset, .parameters ps) ∈ log)
    (hrecords : b.Throughout TypeSpec.IsRecord (ps.map fun p => p.2.carried))
    (hmarkers : ∀ p ∈ ps, p.2.carried.isMarker = false) :
    ∃ D list, ({ i with routines } : Interface).OfRecords D ∧ i.vector.parameters offset = .ok list ∧
      (∀ p ∈ list, ({ i with routines } : Interface).Conveys D p.descriptor) ∧
      List.Forall₂ (fun p q => q.index = p.1.toNat ∧
        (q.descriptor.IsPipe ↔ ∃ element, p.2 = .pipe element)) ps list := by
  obtain ⟨a, hspec, hsettled, hread⟩ := settled_of_ofAssembler hb he hi
  have hcarried : ∀ p ∈ ps, p.2.carried.IsRecord := fun p hp =>
    hrecords.types _ (List.mem_map_of_mem (f := fun p => p.2.carried) hp)
  have hplain : ∀ p ∈ ps, p.2.Plain := by
    intro p hp
    have h := (hcarried p hp).isGraph.plain
    unfold TypeSpec.carried at h
    split at h
    · rename_i element heq
      rw [heq]
      exact .intro (by simp) (by simp) (by simp) (by simpa [TypeSpec.parts] using h)
    · exact h
  obtain ⟨list, hlist, hspelled⟩ := hread _ hps hplain
  have hconveys : ∀ p ∈ ps, ∀ q, SpellsParameter i a p q →
      ({ i with routines } : Interface).Conveys (SpellsRecord i a b _) q.descriptor ∧
        (q.descriptor.IsPipe ↔ ∃ element, p.2 = .pipe element) := fun p hp q hq =>
    conveys_of_spells hrecords (List.mem_map_of_mem (f := fun p => p.2.carried) hp) (hmarkers p hp) hq.2
  refine ⟨_, list, ofRecords_spellsRecord hspec hsettled hrecords, hlist, fun q hq => ?_, ?_⟩
  · obtain ⟨p, hp, hpq⟩ := parameter_spelled hspelled hq
    exact (hconveys p hp q hpq).1
  · have hall : List.Forall₂ (fun p q => p ∈ ps ∧ SpellsParameter i a p q) ps list :=
      (List.forall₂_and_left _ _).2 ⟨fun _ hp => hp, hspelled⟩
    exact hall.imp fun p q h => ⟨h.2.1, (hconveys p h.1 q h.2).2⟩

end

end Assembler

/-! ### Machines -/

namespace Machine

open Lockstep

/-- What a machine has read of a list of pipes and records: its pipes took all that was handed over to
those of its partner, which are left as in `ps`, and the other parameters of the list have the values
that were written for them. -/
structure Delivered (list : List Parameter) (params params' : List Value) (ps : Array Pipe)
    (tail : List UInt8) (out : Outcome Source (List Value)) : Prop where
  values : ∃ ws, out.result = .ok ws ∧ ws.length = params'.length ∧
    (∀ p ∈ list, ∃ w, ws[p.index]? = some w ∧ Conveyed params params' p w) ∧
    ∀ i, (∀ p ∈ list, p.index ≠ i) → ws[i]? = params'[i]?
  pipes : ∀ p ∈ list, p.descriptor.IsPipe →
    PipesAt Pipe.Delivers params params' ps out.surroundings.pipes p.index
  unread : out.transport.unread = tail

/-- The pipes that an operation leaves behind are those of its walk. -/
theorem pipes_marshal {m : Machine} {world : Surroundings} {offset : Nat} {params : List Value}
    {sink : Sink} {t : Marshal.State} (e : Marshal.putParameters (m.writing world) offset params
      { world with writer := .new sink m.config } = .ok () t) :
    (m.marshal world offset params sink).surroundings.pipes = t.pipes := by
  have e : Marshal.putParameters { m.startOperation, world with } offset params
      { world with writer := .new sink m.startOperation.config } = .ok () t := e
  unfold Machine.marshal
  simp only [e]
  split <;> rfl

/-- **Pipes deliver.** What a machine has written of pipes and records, its partner reads, where no piece
is larger than a reader takes. -/
theorem pipes_delivered {m m' : Machine} {world world' : Surroundings} {offset : Nat}
    {params params' : List Value} {sink : Sink} {n : Nat} {list : List Parameter}
    {D : Descriptor → Prop} (hm : m.Matches m') (hc : m.config.check = .ok ())
    (hD : m.interface.OfRecords D) (hlist : m.interface.vector.parameters offset = .ok list)
    (hconveys : ∀ p ∈ list, m.interface.Conveys D p.descriptor)
    (hnodup : (list.map Parameter.index).Nodup) (hlen : params'.length = params.length)
    (honce : HeldOnce params) (honce' : HeldOnce params')
    (hmeet : ∀ p ∈ list, p.descriptor.IsPipe →
      PipesAt Pipe.Meet params params' world.pipes world'.pipes p.index)
    (e : (m.marshal world offset params sink).result = .ok n)
    (hmax : ∀ p ∈ list, ∀ h q, params[p.index]? = some (.pipe h) →
      (m.marshal world offset params sink).surroundings.pipes[h]? = some q →
        ∀ piece ∈ q.pulled, piece.length ≤ m.config.maxElements) :
    ∃ wire, wire.length = n ∧
      (m.marshal world offset params sink).transport.message = sink.message ++ wire ∧
      ∀ source tail, source.bytes = wire ++ tail →
        Delivered list params params' (m.marshal world offset params sink).surroundings.pipes tail
          (m'.unmarshal world' offset params' source) := by
  obtain ⟨t, hput, hn, hmessage⟩ := marshal_eq_ok e
  rw [pipes_marshal hput] at hmax ⊢
  have hs : Marshal.Ready { world with writer := .new sink m.config } :=
    ⟨((Config.check_eq_ok_iff _).1 hc).1, NodeTable.numbered_empty⟩
  obtain ⟨_, s1, h1, e1⟩ := bind_eq_ok.1 hput
  obtain ⟨-, rfl⟩ := lift_eq_ok.1 h1
  obtain ⟨wire, hwrote⟩ := (grown_writeParameters (Marshal.grows_walk _) hs e1).wrote
  refine ⟨wire, ?_, ?_, fun source tail hsource => ?_⟩
  · rw [hn, hwrote.position]
    exact (Nat.zero_add _).symm
  · rw [hmessage, hwrote.output, Writer.output_new]
  -- no node is known on either side
  obtain ⟨N, hbase, htable⟩ : ∃ N : Naming, N.base = world'.heap.cells.size ∧ N.table = {} :=
    ⟨⟨_, {}⟩, rfl, rfl⟩
  have hempty : ∀ c id, N.table.idOf? c ≠ some id := by
    intro c id h
    rw [htable] at h
    exact absurd h (by simp [NodeTable.idOf?, Pairing.left?_empty])
  have hN : ∀ c, ¬N.Knows c := fun c hc => hc.elim (hempty c)
  have hcovers : N.Covers {} := fun c id h => absurd (htable ▸ h) (hempty c id)
  have hstart : Follows (m.writing world) (recordTerms D) N []
      { world with writer := .new sink m.config } { world' with reader := { source } } :=
    follows_start rfl rfl rfl hbase fun _ => False.elim
  have hrecords : (m.writing world).interface.OfRecords D := hD
  obtain ⟨values, u, hget, hrest, hvalues, hdelivers⟩ := getParameters_conveyed m'.side m'.nodes
    (s := { world with writer := .new sink m.config }) (u := { world' with reader := { source } })
    hrecords hN hlist hconveys hnodup hlen honce honce' hmeet hs rfl hcovers hput hmax hwrote hstart hsource
  have hlt : ∀ p ∈ list, p.index < params'.length := by
    intro p hp
    obtain ⟨w, -, -, hconveyed⟩ := exists_of_forall₂ hvalues hp
    by_cases hpipe : p.descriptor.IsPipe
    · exact (List.getElem?_eq_some_iff.1 (hconveyed.pipe hpipe)).1
    · rw [hlen]
      exact (List.getElem?_eq_some_iff.1 (hconveyed.value hpipe)).1
  obtain ⟨hin, hout⟩ := replace_reads hvalues hnodup hlt
  rw [unmarshal_eq hm hget]
  exact ⟨⟨_, rfl, Machine.length_replace _ _, hin, hout⟩, hdelivers, hrest⟩

end Machine

/-! ### A pipe of pairs -/

namespace Assembler

/-- The parameters of a pipe of pairs, and a number. -/
def pipedParameters : List (UInt32 × TypeSpec) := [(1, .pipe (.struct 0)), (0, .scalar .ushort)]

/-- A pair of numbers, which come in the other order on the host. -/
def pipedSpec : StructSpec := ⟨[.scalar .usmall, .align 4, .scalar .ulong], some [1, 0]⟩

/-- An assembler that was asked for the parameters of a pipe of pairs. -/
def ofPiped : Assembler :=
  match parameters pipedParameters (((new .little 0).declare).define 0 pipedSpec) with
  | .ok _ b | .error _ b => b

theorem assembled_ofPiped : Assembled ofPiped [(24, .parameters pipedParameters)] := by
  have h : Assembled (((new .little 0).declare).define 0 pipedSpec) [] :=
    .define (.declare (.new .little 0)) rfl
  exact .parameters h rfl

theorem permutes_pipedSpec : pipedSpec.Permutes := by
  intro slots hslots
  obtain rfl : [1, 0] = slots := Option.some.inj hslots
  decide

theorem records_ofPiped :
    ofPiped.Throughout TypeSpec.IsRecord (pipedParameters.map fun p => p.2.carried) := by
  have hspecs : ∀ id s, ofPiped.spec? id = some s → s = pipedSpec := by
    intro id s hs
    match id with
    | 0 => exact (Option.some.inj hs).symm
    | id + 1 =>
      have hsize : ofPiped.structs.size = 1 := rfl
      rw [spec?, Array.getElem?_eq_none (by omega)] at hs
      exact absurd hs (by simp)
  constructor
  · simp only [pipedParameters, List.map_cons, List.map_nil, List.mem_cons, List.not_mem_nil, or_false,
      forall_eq_or_imp, forall_eq, TypeSpec.carried]
    exact ⟨.struct 0, .scalar .ushort⟩
  · intro id s _ hs
    obtain rfl := hspecs id s hs
    refine ⟨permutes_pipedSpec, ?_⟩
    simp only [pipedSpec, List.mem_cons, List.not_mem_nil, or_false, forall_eq_or_imp, forall_eq]
    exact ⟨.scalar .usmall, .align 4, .scalar .ulong⟩

/-- A pipe that hands over three pairs, two at a time. -/
def pipedSender : Pipe where
  application := ({ take := some 2 } : Pipe.Script).application
  pending := [.struct [.ulong 1, .usmall 2], .struct [.ulong 3, .usmall 4], .struct [.ulong 5, .usmall 6]]

/-- A pipe that takes one element at a time. -/
def pipedReceiver : Pipe where
  application := ({ room := some 0 } : Pipe.Script).application

theorem heldOnce_pair {v : Value} (hv : ∀ h, v ≠ .pipe h) : HeldOnce [v, .pipe 0] := by
  intro j k h hj hk
  have hindex : ∀ n : Nat, [v, Value.pipe 0][n]? = some (Value.pipe h) → n = 1 := by
    intro n hn
    rcases n with _ | _ | n
    · exact absurd (Option.some.inj hn) (hv h)
    · rfl
    · simp at hn
  exact (hindex j hj).trans (hindex k hk).symm

end Assembler

open Assembler in
theorem Machine.pipes_delivered_pairs : ∃ (i : Interface) (D : Descriptor → Prop) (list : List Parameter),
    let m : Machine := { interface := i }
    let world : Surroundings := { pipes := #[pipedSender] }
    let world' : Surroundings := { pipes := #[pipedReceiver] }
    let params := [Value.ushort 7, .pipe 0]
    let params' := [Value.void, .pipe 0]
    Interface.ofAssembler ofPiped = .ok i ∧ i.OfRecords D ∧ i.vector.parameters 24 = .ok list ∧
      (∀ p ∈ list, i.Conveys D p.descriptor) ∧
      (m.marshal world 24 params .reliable).result = .ok 38 ∧
      ∃ wire, wire.length = 38 ∧
        (m.marshal world 24 params .reliable).transport.message = Sink.reliable.message ++ wire ∧
        ∀ source tail, source.bytes = wire ++ tail →
          Delivered list params params' (m.marshal world 24 params .reliable).surroundings.pipes tail
            (m.unmarshal world' 24 params' source) := by
  have hrun : (match Interface.ofAssembler ofPiped with
      | .ok i => (Machine.marshal { interface := i } { pipes := #[pipedSender] } 24
          [.ushort 7, .pipe 0] .reliable).result
      | .error e => .error e) = .ok 38 := by decide +kernel
  have hpulled : (match Interface.ofAssembler ofPiped with
      | .ok i => ((Machine.marshal { interface := i } { pipes := #[pipedSender] } 24
          [.ushort 7, .pipe 0] .reliable).surroundings.pipes[0]?.map fun p => p.pulled.map List.length)
      | .error _ => none) = some [2, 1, 0] := by decide +kernel
  have hsmall : (match Interface.ofAssembler ofPiped with
      | .ok i => decide (i.vector.size < 2 ^ 32) && decide (i.layout.entries.size < 2 ^ 32)
      | .error _ => false) = true := by decide +kernel
  have hc : ({} : Config).check = .ok () := by decide +kernel
  cases he : Interface.ofAssembler ofPiped with
  | error => simp [he] at hrun
  | ok i =>
    simp only [he, Bool.and_eq_true, decide_eq_true_eq] at hrun hpulled hsmall
    obtain ⟨D, list, hD, hlist, hconveys, hall⟩ := conveys_of_assembled i.routines assembled_ofPiped he
      ⟨hsmall.1, hsmall.2⟩ List.mem_cons_self records_ofPiped (by decide)
    refine ⟨i, D, list, rfl, hD, hlist, hconveys, hrun, ?_⟩
    obtain ⟨q, rest, ⟨hq, hpipe⟩, hrest, rfl⟩ := List.forall₂_cons_left_iff.1 hall
    obtain ⟨r, _, ⟨hr, hscalar⟩, hnil, rfl⟩ := List.forall₂_cons_left_iff.1 hrest
    obtain rfl := List.forall₂_nil_left_iff.1 hnil
    have hnot : ¬r.descriptor.IsPipe := fun h => by simpa using hscalar.1 h
    refine Machine.pipes_delivered ⟨rfl, rfl, rfl⟩ hc hD hlist hconveys ?_ rfl
      (heldOnce_pair (by simp)) (heldOnce_pair (by simp)) ?_ hrun ?_
    · simp only [List.map_cons, List.map_nil, hq, hr]
      decide
    · simp only [List.forall_mem_cons, List.not_mem_nil, false_implies, implies_true, and_true, hq]
      refine ⟨fun _ => ?_, fun h => absurd h hnot⟩
      exact ⟨0, 0, pipedSender, pipedReceiver, rfl, rfl, rfl, rfl, ⟨rfl, rfl, rfl, rfl⟩, ⟨rfl, rfl, rfl, rfl⟩,
        fun _ _ => rfl⟩
    · simp only [List.forall_mem_cons, List.not_mem_nil, false_implies, implies_true, and_true, hq, hr]
      refine ⟨fun h p hh hp piece hpiece => ?_, fun h p hh => ?_⟩
      · obtain rfl : 0 = h := Value.pipe.inj (Option.some.inj hh)
        rw [show _ = some p from hp] at hpulled
        have hlength : piece.length ∈ [2, 1, 0] :=
          Option.some.inj hpulled ▸ List.mem_map_of_mem hpiece
        have hmax : ({} : Config).maxElements = 16 * 1024 * 1024 := rfl
        simp only [List.mem_cons, List.not_mem_nil, or_false] at hlength
        show piece.length ≤ ({} : Config).maxElements
        omega
      · exact absurd (Option.some.inj hh) (by simp)

end Ndr
