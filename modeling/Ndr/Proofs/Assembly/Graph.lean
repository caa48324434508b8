import Ndr.Proofs.Assembly.Reference
import Ndr.Proofs.PointerGraph
import Ndr.Value.Equality

/-!
Graphs of assembled types: what a machine writes of them along a parameter list that was assembled,
its partner reads.
-/

namespace Ndr

/-! ### Types of graphs -/

/-- The types of graphs: scalars, structs, markers, and pointers that may be null. -/
inductive TypeSpec.IsGraph : TypeSpec → Prop where
  | scalar (kind : Scalar) : IsGraph (.scalar kind)
  | struct (id : StructId) : IsGraph (.struct id)
  | nested {s : StructSpec} (hslots : s.Permutes) (hfields : ∀ t ∈ s.fields, t.IsGraph) :
      IsGraph (.nested s)
  | pointer {kind : PointerKind} {t : TypeSpec} (hkind : kind ≠ .ref) (ht : t.IsGraph) :
      IsGraph (.pointer kind t)
  | align (boundary : Nat) : IsGraph (.align boundary)

theorem TypeSpec.IsGraph.plain {t : TypeSpec} (h : t.IsGraph) : t.Plain := by
  induction h with
  | scalar | struct | align =>
    exact .intro (by simp) (by simp) (by simp) (by simp [parts])
  | nested _ _ ih => exact .intro (by simp) (by simp) (by simp) (by simpa [parts] using ih)
  | pointer _ _ ih => exact .intro (by simp) (by simp) (by simp) (by simpa [parts] using ih)

namespace Assembler

/-! ### Types and values that are met -/

section

variable (b : Assembler)

/-- The types and values that are met from some parameters on, through the fields of structs and
behind pointers. -/
inductive Hosts (heap : Heap) (ps : List (UInt32 × TypeSpec)) (params : List Value) :
    TypeSpec → Value → Prop where
  | parameter {p : UInt32 × TypeSpec} {v : Value} (hp : p ∈ ps)
      (hv : params[p.1.toNat]? = some v) : Hosts heap ps params p.2 v
  | field {id : StructId} {s : StructSpec} {slots : List Value} {k : Nat} {t : TypeSpec}
      {slot : UInt32} {v : Value} (h : Hosts heap ps params (.struct id) (.struct slots))
      (hs : b.spec? id = some s) (ht : s.slotted[k]? = some t) (hslot : s.slots[k]? = some slot)
      (hv : slots[slot.toNat]? = some v) : Hosts heap ps params t v
  | nestedField {s : StructSpec} {slots : List Value} {k : Nat} {t : TypeSpec} {slot : UInt32}
      {v : Value} (h : Hosts heap ps params (.nested s) (.struct slots))
      (ht : s.slotted[k]? = some t) (hslot : s.slots[k]? = some slot)
      (hv : slots[slot.toNat]? = some v) : Hosts heap ps params t v
  | pointee {kind : PointerKind} {t : TypeSpec} {c : CellId} {v : Value}
      (h : Hosts heap ps params (.pointer kind t) (.pointer (some c)))
      (hv : heap.load? c = some v) : Hosts heap ps params t v

end

section

variable {i : Interface} {a b : Assembler} {ts : List TypeSpec} {s : StructSpec} {id : StructId}

/-- Structs of graphs have no array at the end. -/
theorem not_endsWith_of_graphs (h : b.Throughout TypeSpec.IsGraph ts)
    (hspec : ∀ id, a.spec? id = b.spec? id) (hr : b.Refers ts id) (hs : b.spec? id = some s)
    (array : ArraySpec) : ¬s.EndsWith a array := by
  intro hends
  induction hends generalizing id with
  | array hlast =>
    have := (h.structs id _ hr hs).2 _ (mem_of_lastField hlast)
    cases this
  | struct hlast hinner _ ih =>
    exact ih (.step hr hs (mem_of_lastField hlast) (.struct _)) ((hspec _).symm.trans hinner)

end

/-! ### Descriptors that are met -/

section

variable {i : Interface} {a b : Assembler} {ps : List (UInt32 × TypeSpec)}
  {heap : Heap} {list : List Parameter} {params : List Value} {routines : List Routine}
  {d : Descriptor} {v : Value}

/-- What is met by descriptors is met by the types they spell. -/
theorem hosts_of_met (hspec : ∀ id, a.spec? id = b.spec? id) (hs : Settled i a a)
    (hlist : List.Forall₂ (SpellsParameter i a) ps list)
    (hg : b.Throughout TypeSpec.IsGraph (ps.map Prod.snd))
    (h : Met { i with routines } heap list params d v) :
    ∃ t, b.Hosts heap ps params t v ∧ Spells i a {} t d ∧
      b.Within TypeSpec.IsGraph (ps.map Prod.snd) t := by
  induction h with
  | @parameter p v hp hv =>
    obtain ⟨q, hq, hindex, hspells⟩ := parameter_spelled hlist hp
    have hmem := List.mem_map_of_mem (f := Prod.snd) hq
    exact ⟨q.2, .parameter hq (hindex ▸ hv), hspells, hg.root hmem⟩
  | @field d f slots kind props definition k slot s v _ hd hdef hf hk hv ih =>
    obtain ⟨t, hhosts, hspells, hin⟩ := ih
    obtain ⟨hgraph, hrefers⟩ := hin
    cases hgraph with
    | struct id =>
      cases hspells with
      | struct _ _ hoffset =>
        obtain ⟨-, -, rfl⟩ := TypeForm.struct.inj hd
        obtain ⟨s', t, slot', hs', ht, hslot, rfl, hspells, hin⟩ := hg.field_spelled
          (fun _ => TypeSpec.IsGraph.plain) hspec hs (hrefers id (.struct id)) hoffset hdef hf hk
        exact ⟨t, .field hhosts hs' ht hslot hv, hspells, hin⟩
    | scalar | nested | pointer | align =>
      cases hspells
      cases hd
  | @nestedField d f slots align layout k slot fields v _ hd hf hk hv ih =>
    obtain ⟨t, hhosts, hspells, hin⟩ := ih
    cases hgraph : hin.type with
    | @nested s hperm hfields =>
      cases hspells with
      | nested hlays hall =>
        obtain ⟨-, rfl, rfl⟩ := TypeForm.nested.inj hd
        obtain ⟨t, slot', ht, hslot, rfl, hmem, hspells⟩ := field_spelled hall
          (fun t ht => (hfields t ht).plain) hlays hf hk
        exact ⟨t, .nestedField hhosts ht hslot hv, hspells, hin.part hmem (hfields t hmem)⟩
    | scalar | struct | pointer | align =>
      cases hspells
      cases hd
  | @pointee d e c kind props pointee v _ hd he hv ih =>
    obtain ⟨t, hhosts, hspells, hin⟩ := ih
    cases hgraph : hin.type with
    | pointer hkind ht =>
      cases hspells with
      | pointer hstream hspells =>
        obtain ⟨-, -, rfl⟩ := TypeForm.pointer.inj hd
        obtain rfl := Except.ok.inj (he.symm.trans hstream)
        exact ⟨_, .pointee hhosts hv, hspells, hin.part (List.mem_singleton_self _) ht⟩
    | scalar | struct | nested | align =>
      cases hspells
      cases hd

/-- A descriptor that spells a type of a graph is one of a graph. -/
theorem isGraph_of_spells (hspec : ∀ id, a.spec? id = b.spec? id) (hs : Settled i a a)
    {ts : List TypeSpec} (hg : b.Throughout TypeSpec.IsGraph ts) {t : TypeSpec} (h : Spells i a {} t d)
    (ht : b.Within TypeSpec.IsGraph ts t) : d.IsGraph { i with routines } := by
  obtain ⟨hgraph, hrefers⟩ := ht
  cases hgraph with
  | scalar =>
    cases h
    rfl
  | struct id =>
    cases h with
    | @struct _ _ definition _ s _ kind hstruct hkind hoffset =>
      have hr := hrefers id (.struct id)
      rw [hspec] at hstruct
      have hnot := not_endsWith_of_graphs hg hspec hr hstruct
      refine ⟨?_, fun d' hd' => ?_⟩
      · cases kind with
        | fixed => rfl
        | conformant | v1Conformant =>
          obtain ⟨array, hends, -⟩ := hkind
          exact absurd hends (hnot array)
      · exact hg.covers (fun _ => TypeSpec.IsGraph.plain) hspec hs hr hoffset hd'
  | nested hperm hfields =>
    cases h with
    | nested hlays hall =>
      show Layout.Covers _ _ _
      rw [countP_isField hall fun t ht => (hfields t ht).plain]
      exact hlays.covers hperm
  | pointer hkind _ =>
    cases h
    exact hkind
  | align =>
    cases h
    exact trivial

end

/-! ### Round trips -/

/-- The values of some parameters. -/
def valuesOf (ps : List (UInt32 × TypeSpec)) (params : List Value) : List Value :=
  ps.filterMap fun p => params[p.1.toNat]?

/-- What was read of a graph into a heap that was empty: the same graph under other names, bit by
bit, with nothing left to read, and a cell for every cell that was reached and no other. -/
structure GraphRead (f : CellId → CellId) (heap : Heap) (ps : List (UInt32 × TypeSpec))
    (params : List Value) (out : Outcome Source (List Value)) : Prop where
  values : ∃ ws, out.result = .ok ws ∧ ws.length = params.length ∧
    heap.Renames f (valuesOf ps params) out.surroundings.heap (valuesOf ps ws) ∧
    (heap.NoNaN (valuesOf ps params) → Heap.deepEq heap (.struct (valuesOf ps params))
      out.surroundings.heap (.struct (valuesOf ps ws)) = true)
  unread : out.transport.unread = []
  cells : ∀ c', c' < out.surroundings.heap.allocations ↔
    ∃ c, heap.Reaches (valuesOf ps params) c ∧ f c = c'

section

variable {i : Interface} {a b : Assembler} {ps : List (UInt32 × TypeSpec)} {list : List Parameter}
  {params : List Value}

theorem listed_eq_valuesOf (h : List.Forall₂ (SpellsParameter i a) ps list) :
    listed list params = valuesOf ps params := by
  unfold listed valuesOf
  induction h with
  | nil => rfl
  | cons h _ ih => rw [List.filterMap_cons, List.filterMap_cons, h.1, ih]

/-- **A graph that was written along an assembled parameter list is read back.** The types may be any
scalars, structs, pointers that may be null, and markers, where the host holds nothing for a marker
that it meets as a parameter or a pointee. -/
theorem graph_read {log : List (Nat × Request)} {routines : List Routine} {m m' : Machine}
    {world world' : Surroundings} {offset n : Nat} {params' : List Value} {sink : Sink}
    (hb : Assembled b log) (he : Interface.ofAssembler b = .ok i) (hi : i.Small)
    (hps : (offset, .parameters ps) ∈ log) (hindices : (ps.map Prod.fst).Nodup)
    (hg : b.Throughout TypeSpec.IsGraph (ps.map Prod.snd)) (hm : m.interface = { i with routines }) (hm' : m.Matches m')
    (hc : m.config.check = .ok ()) (hlen : params'.length = params.length)
    (hmarkers : ∀ boundary v, b.Hosts world.heap ps params (.align boundary) v → v = .void)
    (hworld : world'.heap = {}) (e : (m.marshal world offset params sink).result = .ok n) :
    ∃ wire f, wire.length = n ∧
      (m.marshal world offset params sink).transport.message = sink.message ++ wire ∧
      ∀ source, source.bytes = wire →
        GraphRead f world.heap ps params (m'.unmarshal world' offset params' source) := by
  obtain ⟨a, hspec, hsettled, hread⟩ := settled_of_ofAssembler hb he hi
  obtain ⟨list, hlist, hspelled⟩ := hread _ hps fun p hp =>
    (hg.types p.2 (List.mem_map_of_mem hp)).plain
  have hgraph : ∀ d v, Met m.interface world.heap list params d v →
      d.IsGraph m.interface ∧ (d.isField = false → v = .void) := by
    rw [hm]
    intro d v hmet
    obtain ⟨t, hhosts, hspells, hin⟩ := hosts_of_met hspec hsettled hspelled hg hmet
    refine ⟨isGraph_of_spells hspec hsettled hg hspells hin, fun hd => ?_⟩
    rw [isField_of_plain hspells hin.type.plain] at hd
    cases hin.type with
    | align boundary => exact hmarkers boundary v hhosts
    | _ => exact absurd hd (by simp [TypeSpec.isMarker])
  obtain ⟨wire, f, hn, hmessage, harrived⟩ := graph_arrived hm' hc (by rw [hm]; exact hlist)
    (nodup_index hspelled hindices) hlen (by rw [hworld]) hgraph e
  refine ⟨wire, f, hn, hmessage, fun source hsource => ?_⟩
  obtain ⟨⟨ws, hws, hwlen, hrenames⟩, hunread, hcells⟩ :=
    harrived source [] (by rw [hsource, List.append_nil])
  simp only [listed_eq_valuesOf hspelled] at hrenames hcells
  refine ⟨⟨ws, hws, hwlen, hrenames, Heap.deepEq_of_renames hrenames⟩, hunread, fun c' => ?_⟩
  rw [← hcells c', hworld]
  exact ⟨fun h => ⟨Nat.zero_le _, h⟩, fun h => h.2⟩

end

/-! ### A ring -/

/-- The parameters of a ring: two pointers to a struct that points to its like. -/
def ringParameters : List (UInt32 × TypeSpec) :=
  [(0, .pointer .unique (.struct 0)), (1, .pointer .full (.struct 0))]

/-- The struct of a ring: a number and a pointer, which come in the other order on the host. -/
def ringSpec : StructSpec :=
  ⟨[.scalar .long, .align 8, .pointer .unique (.struct 0)], some [1, 0]⟩

/-- An assembler that was asked for the parameters of a ring. -/
def ofRing : Assembler :=
  match parameters ringParameters (((new .little 0).declare).define 0 ringSpec) with
  | .ok _ b | .error _ b => b

theorem assembled_ofRing : Assembled ofRing [(36, .parameters ringParameters)] := by
  have h : Assembled (((new .little 0).declare).define 0 ringSpec) [] :=
    .define (.declare (.new .little 0)) rfl
  exact .parameters h rfl

theorem ringSpec_permutes : ringSpec.Permutes := by
  intro slots hslots
  obtain rfl : [1, 0] = slots := Option.some.inj hslots
  decide

theorem graphs_ofRing : ofRing.Throughout TypeSpec.IsGraph (ringParameters.map Prod.snd) := by
  have hspec : ofRing.spec? 0 = some ringSpec := rfl
  have hspecs : ∀ id s, ofRing.spec? id = some s → id = 0 ∧ s = ringSpec := by
    intro id s hs
    match id with
    | 0 => exact ⟨rfl, (Option.some.inj (hspec.symm.trans hs)).symm⟩
    | id + 1 =>
      have hsize : ofRing.structs.size = 1 := rfl
      rw [spec?, Array.getElem?_eq_none (by omega)] at hs
      exact absurd hs (by simp)
  refine ⟨?_, fun id s _ hs => ?_⟩
  · simp only [ringParameters, List.map_cons, List.map_nil, List.mem_cons, List.not_mem_nil,
      or_false, forall_eq_or_imp, forall_eq]
    exact ⟨.pointer (by decide) (.struct 0), .pointer (by decide) (.struct 0)⟩
  · obtain ⟨-, rfl⟩ := hspecs id s hs
    refine ⟨ringSpec_permutes, ?_⟩
    simp only [ringSpec, List.mem_cons, List.not_mem_nil, or_false, forall_eq_or_imp, forall_eq]
    exact ⟨.scalar .long, .align 8, .pointer (by decide) (.struct 0)⟩

/-- No marker of a ring is met. -/
theorem hosts_ofRing {heap : Heap} {params : List Value} {t : TypeSpec} {v : Value}
    (h : ofRing.Hosts heap ringParameters params t v) :
    t = .scalar .long ∨ t = .struct 0 ∨ ∃ kind, t = .pointer kind (.struct 0) := by
  induction h with
  | parameter hp =>
    simp only [ringParameters, List.mem_cons, List.not_mem_nil, or_false] at hp
    rcases hp with rfl | rfl <;> exact .inr (.inr ⟨_, rfl⟩)
  | @field id s slots k t slot v _ hs ht _ _ ih =>
    obtain rfl : id = 0 := by simpa using ih
    obtain rfl : ringSpec = s := Option.some.inj hs
    have ht := List.mem_of_getElem? ht
    simp only [ringSpec, StructSpec.slotted, TypeSpec.isMarker] at ht
    rcases List.mem_filter.1 ht with ⟨ht, hm⟩
    simp only [List.mem_cons, List.not_mem_nil, or_false] at ht
    rcases ht with rfl | rfl | rfl
    · exact .inl rfl
    · exact absurd hm (by simp)
    · exact .inr (.inr ⟨_, rfl⟩)
  | nestedField _ _ _ _ ih => exact absurd ih (by simp)
  | pointee _ _ ih =>
    exact .inr (.inl (by simpa using ih))

/-- A cell that points to itself. -/
def ringHeap : Heap := ({} : Heap).append (.struct [.pointer (some 0), .long 7])

theorem graph_read_ring : ∃ i : Interface,
    let m : Machine := { interface := i }
    let world : Surroundings := { heap := ringHeap }
    let params := [Value.pointer (some 0), .pointer (some 0)]
    Assembled ofRing [(36, .parameters ringParameters)] ∧ Interface.ofAssembler ofRing = .ok i ∧
      i.Small ∧ ofRing.Throughout TypeSpec.IsGraph (ringParameters.map Prod.snd) ∧
      (m.marshal world 36 params .reliable).result = .ok 16 ∧
      ∃ wire f, wire.length = 16 ∧
        (m.marshal world 36 params .reliable).transport.message = Sink.reliable.message ++ wire ∧
        ∀ source, source.bytes = wire → GraphRead f ringHeap ringParameters params
          (m.unmarshal {} 36 [.void, .void] source) := by
  have hrun : (match Interface.ofAssembler ofRing with
      | .ok i => (Machine.marshal { interface := i } { heap := ringHeap } 36
          [.pointer (some 0), .pointer (some 0)] .reliable).result
      | .error e => .error e) = .ok 16 := by decide +kernel
  have hsmall : (match Interface.ofAssembler ofRing with
      | .ok i => decide (i.vector.size < 2 ^ 32) && decide (i.layout.entries.size < 2 ^ 32)
      | .error _ => false) = true := by decide +kernel
  have hc : ({} : Config).check = .ok () := by decide +kernel
  cases he : Interface.ofAssembler ofRing with
  | error => simp [he] at hrun
  | ok i =>
    simp only [he, Bool.and_eq_true, decide_eq_true_eq] at hrun hsmall
    refine ⟨i, assembled_ofRing, rfl, ⟨hsmall.1, hsmall.2⟩, graphs_ofRing, hrun, ?_⟩
    refine graph_read assembled_ofRing he ⟨hsmall.1, hsmall.2⟩ List.mem_cons_self (by decide)
      graphs_ofRing rfl ⟨rfl, rfl, rfl⟩ hc rfl (fun boundary v h => ?_) rfl hrun
    exact absurd (hosts_ofRing h) (by simp)

/-- The assembler that was asked for a parameter list of a marker. -/
def ofMarker : Assembler :=
  match parameters [(0, .align 4)] (new .little 0) with
  | .ok _ b | .error _ b => b

/-- What the host holds for a marker that is a parameter does not travel: a long is written as nothing,
and nothing is read for it. -/
theorem marker_lost : ∃ i : Interface,
    let m : Machine := { interface := i }
    Assembled ofMarker [(12, .parameters [(0, .align 4)])] ∧
      Interface.ofAssembler ofMarker = .ok i ∧ i.Small ∧ ofMarker.Throughout TypeSpec.IsGraph [.align 4] ∧
      m.config.check = .ok () ∧ (m.marshal {} 12 [.long 5] .reliable).result = .ok 0 ∧
      ∀ f, ¬GraphRead f {} [(0, .align 4)] [.long 5]
        (m.unmarshal {} 12 [.void] (.ofBytes [])) := by
  have hassembled : Assembled ofMarker [(12, .parameters [(0, .align 4)])] :=
    .parameters (.new .little 0) rfl
  have hrun : (match Interface.ofAssembler ofMarker with
      | .ok i => (Machine.marshal { interface := i } {} 12 [.long 5] .reliable).result
      | .error e => .error e) = .ok 0 := by decide +kernel
  have hread : (match Interface.ofAssembler ofMarker with
      | .ok i => (Machine.unmarshal { interface := i } {} 12 [.void] (.ofBytes [])).result
      | .error e => .error e) = .ok [.void] := by decide +kernel
  have hsmall : (match Interface.ofAssembler ofMarker with
      | .ok i => decide (i.vector.size < 2 ^ 32) && decide (i.layout.entries.size < 2 ^ 32)
      | .error _ => false) = true := by decide +kernel
  have hc : ({} : Config).check = .ok () := by decide +kernel
  have hgraphs : ofMarker.Throughout TypeSpec.IsGraph [.align 4] := by
    refine ⟨fun t ht => List.mem_singleton.1 ht ▸ .align 4, fun id s _ hs => ?_⟩
    have hsize : ofMarker.structs.size = 0 := rfl
    rw [spec?, Array.getElem?_eq_none (by omega)] at hs
    exact absurd hs (by simp)
  cases he : Interface.ofAssembler ofMarker with
  | error => simp [he] at hrun
  | ok i =>
    simp only [he, Bool.and_eq_true, decide_eq_true_eq] at hrun hread hsmall
    refine ⟨i, hassembled, rfl, ⟨hsmall.1, hsmall.2⟩, hgraphs, hc, hrun, fun f h => ?_⟩
    obtain ⟨ws, hws, -, hrenames, -⟩ := h.values
    obtain rfl := Except.ok.inj (hread.symm.trans hws)
    exact absurd hrenames.values (by simp [valuesOf, Value.rename])

end Assembler

end Ndr
