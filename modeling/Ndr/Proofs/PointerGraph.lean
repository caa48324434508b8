import Ndr.Proofs.Isomorphism
import Ndr.Proofs.Lockstep.Operation
import Ndr.Proofs.Lockstep.Walk

/-!
Graphs of scalars, structs and pointers: a machine reads the graph that another has written, with
all that is shared in it and all its cycles.
-/

namespace Ndr

open Lockstep

/-! ### What is met on the way -/

/-- The values of the parameters of a list. -/
def listed (list : List Parameter) (params : List Value) : List Value :=
  list.filterMap fun p => params[p.index]?

/-- The types and values that are met from the parameters of a list on, through the fields of
structs and behind pointers. -/
inductive Met (i : Interface) (heap : Heap) (list : List Parameter) (params : List Value) :
    Descriptor → Value → Prop where
  | parameter {p : Parameter} {v : Value} (hp : p ∈ list) (hv : params[p.index]? = some v) :
      Met i heap list params p.descriptor v
  | field {d f : Descriptor} {slots : List Value} {kind : StructKind} {props : UInt8}
      {definition k slot : Nat} {s : StructDefinition} {v : Value}
      (h : Met i heap list params d (.struct slots)) (hd : d.form = .struct kind props definition)
      (hs : i.vector.structDefinition definition = .ok s)
      (hf : (s.fields.filter Descriptor.isField)[k]? = some f)
      (hk : i.layout.slot s.layout k = .ok slot) (hv : slots[slot]? = some v) :
      Met i heap list params f v
  | nestedField {d f : Descriptor} {slots : List Value} {align layout k slot : Nat}
      {fields : List Descriptor} {v : Value} (h : Met i heap list params d (.struct slots))
      (hd : d.form = .nested align layout fields)
      (hf : (fields.filter Descriptor.isField)[k]? = some f)
      (hk : i.layout.slot layout k = .ok slot) (hv : slots[slot]? = some v) :
      Met i heap list params f v
  | pointee {d e : Descriptor} {c : CellId} {kind : PointerKind} {props : UInt8} {pointee : Nat}
      {v : Value} (h : Met i heap list params d (.pointer (some c)))
      (hd : d.form = .pointer kind props pointee) (he : i.vector.stream pointee = .ok e)
      (hv : heap.load? c = some v) : Met i heap list params e v

/-- The types of graphs: scalars without a range, structs of a fixed size whose fields take all
their slots, pointers that may be null, and markers. -/
def Descriptor.IsGraph (i : Interface) (d : Descriptor) : Prop :=
  match d.form with
  | .scalar _ => d.modifiers.range = none
  | .struct kind _ definition => kind = .fixed ∧ ∀ s, i.vector.structDefinition definition = .ok s →
      i.layout.Covers s.layout (s.fields.countP Descriptor.isField)
  | .nested _ layout fields => i.layout.Covers layout (fields.countP Descriptor.isField)
  | .pointer kind .. => kind ≠ .ref
  | .align _ => True
  | _ => False

namespace Lockstep

section

variable {i : Interface} {heap : Heap} {list : List Parameter} {params : List Value}
  {d : Descriptor} {v : Value} {c : CellId}

/-- What is met leads to cells that the parameters reach. -/
theorem reaches_of_met (h : Met i heap list params d v) (hc : v.Leads c) :
    heap.Reaches (listed list params) c := by
  induction h generalizing c with
  | parameter hp hv => exact .root (List.mem_filterMap.2 ⟨_, hp, hv⟩) hc
  | field _ _ _ _ _ hv ih => exact ih (.struct (List.mem_of_getElem? hv) hc)
  | nestedField _ _ _ _ hv ih => exact ih (.struct (List.mem_of_getElem? hv) hc)
  | pointee _ _ _ hv ih => exact .step (ih (.pointer _)) hv hc

/-- What is asked of the values of a graph: they are met, or they are nothing for a marker. -/
def graphTerms (i : Interface) (heap : Heap) (list : List Parameter) (params : List Value) :
    Terms where
  value d v _ := Met i heap list params d v ∨ d.isField = false ∧ v = .void
  cell := heap.Reaches (listed list params)

end

/-! ### Graphs in lock-step -/

section

variable {env : Marshal.Env} {list : List Parameter} {params : List Value} {N : Naming}
  {G : List Frame} {F : Frame} {d : Descriptor} {v : Value} {x : Site Scope} {y : Site ScopeId}
  (side : Side) (previous : NodeTable)

/-- A graph that is written is read back, however deep its types may nest. -/
theorem lockedWalks_graph (room : Nat)
    (hgraph : ∀ d v, Met env.interface env.heap list params d v →
      d.IsGraph env.interface ∧ (d.isField = false → v = .void)) :
    LockedWalks env (graphTerms env.interface env.heap list params) N
      (graphTerms env.interface env.heap list params).value (Marshal.walk env room)
      (Unmarshal.walk (env.receiver side previous) room) := by
  induction room with
  | zero => exact lockedWalks_zero
  | succ room ih =>
    refine lockedWalks_succ fun {d v F G x y} hP hm => ?_
    obtain ⟨offset, modifiers, form⟩ := d
    rcases hP with hmet | ⟨hmarker, rfl⟩
    · obtain ⟨hd, hvoid⟩ := hgraph _ v hmet
      cases form with
      | scalar kind => exact locked_scalar (checkRange_of_none hd)
      | struct kind props definition =>
        obtain ⟨rfl, hlayout⟩ := hd
        refine locked_putStruct_fixed side previous ih fun s hs slots scope hv hscope =>
          ⟨hlayout s hs, fieldsHold_of_forall (fun k f w hf hw => .inl ?_) fun f _ hf => .inr ⟨hf, rfl⟩⟩
        obtain ⟨slot, hk, hslot⟩ := Marshal.slotValue_eq_ok.1 hw
        rw [Nat.zero_add] at hk
        exact .field (hv ▸ hmet) rfl hs hf hk hslot
      | nested align layout fields =>
        refine locked_putNested side previous ih fun slots scope hv hscope =>
          ⟨hd, fieldsHold_of_forall (fun k f w hf hw => .inl ?_) fun f _ hf => .inr ⟨hf, rfl⟩⟩
        obtain ⟨slot, hk, hslot⟩ := Marshal.slotValue_eq_ok.1 hw
        rw [Nat.zero_add] at hk
        exact .nestedField (hv ▸ hmet) rfl hf hk hslot
      | pointer kind props pointee =>
        refine locked_putPointer side previous ih hd hm fun c hv => ⟨?_, ?_⟩
        · exact reaches_of_met hmet (hv ▸ .pointer c)
        · rw [ite_self]
          intro e w he hw
          exact .inl (.pointee (hv ▸ hmet) rfl he (Heap.load_eq_ok_iff.1 hw))
      | align boundary =>
        obtain rfl := hvoid rfl
        exact locked_align boundary.toNat
      | array | encapsulatedUnion | switchedUnion | ignore | converted | pipe | context
      | deletedNodes | void | unhosted => exact hd.elim
    · cases form with
      | align boundary => exact locked_align boundary.toNat
      | _ => exact absurd hmarker (by simp [Descriptor.isField])

end

end Lockstep

/-! ### Machines -/

/-- What was read of a graph: the same graph under other names, its cells all new, and a new cell
for every cell that was reached. -/
structure GraphArrived (f : CellId → CellId) (heap : Heap) (list : List Parameter)
    (params : List Value) (before : Heap) (tail : List UInt8)
    (out : Outcome Source (List Value)) : Prop where
  values : ∃ ws, out.result = .ok ws ∧ ws.length = params.length ∧
    heap.Renames f (listed list params) out.surroundings.heap (listed list ws)
  unread : out.transport.unread = tail
  cells : ∀ c', before.cells.size ≤ c' ∧ c' < out.surroundings.heap.cells.size ↔
    ∃ c, heap.Reaches (listed list params) c ∧ f c = c'

theorem listed_of_copies {N : Naming} {list : List Parameter} {params ws : List Value}
    (h : ∀ p ∈ list, ∃ v w, params[p.index]? = some v ∧ ws[p.index]? = some w ∧ N.Copy v w) :
    listed list ws = (listed list params).map (Value.rename N.cell) ∧
      ∀ v ∈ listed list params, ∀ c, v.Leads c → N.Knows c := by
  induction list with
  | nil => exact ⟨rfl, fun v hv => absurd hv List.not_mem_nil⟩
  | cons p list ih =>
    obtain ⟨v, w, hv, hw, hcopy⟩ := h p List.mem_cons_self
    obtain ⟨h1, h2⟩ := ih fun q hq => h q (List.mem_cons_of_mem _ hq)
    have hcons : ∀ {us : List Value} {u : Value}, us[p.index]? = some u →
        listed (p :: list) us = u :: listed list us := fun hu => by
      rw [listed, List.filterMap_cons, hu]
      rfl
    rw [hcons hv, hcons hw, List.map_cons, h1, hcopy.eq]
    refine ⟨rfl, fun u hu => ?_⟩
    rcases List.mem_cons.1 hu with rfl | hu
    · exact hcopy.knows
    · exact h2 u hu

/-- **A graph that a machine has written, its partner reads.** The types that are met may be any
scalars, structs, pointers that may be null, and markers, where the host holds nothing for a marker
that is no field. -/
theorem graph_arrived {m m' : Machine} {world world' : Surroundings} {offset : Nat}
    {params params' : List Value} {sink : Sink} {n : Nat} {list : List Parameter}
    (hm : m.Matches m') (hc : m.config.check = .ok ())
    (hlist : m.interface.vector.parameters offset = .ok list)
    (hnodup : (list.map Parameter.index).Nodup) (hlen : params'.length = params.length)
    (hlimit : world'.heap.limit = none)
    (hgraph : ∀ d v, Met m.interface world.heap list params d v →
      d.IsGraph m.interface ∧ (d.isField = false → v = .void))
    (e : (m.marshal world offset params sink).result = .ok n) :
    ∃ wire f, wire.length = n ∧
      (m.marshal world offset params sink).transport.message = sink.message ++ wire ∧
      ∀ source tail, source.bytes = wire ++ tail → GraphArrived f world.heap list params
        world'.heap tail (m'.unmarshal world' offset params' source) := by
  have hT : ∀ p ∈ list, ∀ v, params[p.index]? = some v →
      ParameterHolds (graphTerms m.interface world.heap list params)
        (.ofParameters world.heap list params) p.descriptor v := by
    intro p hp v hv
    obtain ⟨hd, -⟩ := hgraph _ v (.parameter hp hv)
    unfold Descriptor.IsGraph at hd
    refine ⟨fun props element h => ?_, fun direction h => ?_, .inl (.parameter hp hv)⟩
    · rw [h] at hd
      exact hd
    · rw [h] at hd
      exact hd
  obtain ⟨wire, N, hn, hmessage, hbase, hnumbered, harrived⟩ := arrived hm hc hlist hnodup hlen
    (fun _ _ => hlimit) e (fun _ => lockedWalks_graph m'.side _ _ hgraph) hT
  refine ⟨wire, N.cell, hn, hmessage, fun source tail hsource => ?_⟩
  obtain ⟨⟨ws, hws, hwlen, hcopies, -⟩, hunread, hsize, hreached, hcells⟩ :=
    harrived source tail hsource
  obtain ⟨hvalues, hroots⟩ := listed_of_copies hcopies
  have hknows : ∀ c, world.heap.Reaches (listed list params) c → N.Knows c := by
    intro c hc
    induction hc with
    | root hv hc => exact hroots _ hv _ hc
    | step _ hv hd ih =>
      obtain ⟨v, w, hv', -, hcopy⟩ := hcells _ ih
      obtain rfl := Option.some.inj (hv.symm.trans hv')
      exact hcopy.knows _ hd
  refine ⟨⟨ws, hws, by rw [hwlen, hlen], ⟨fun c d hc hd => ?_, hvalues, fun c hc => ?_⟩⟩, hunread,
    fun c' => ⟨fun hc' => ?_, ?_⟩⟩
  · exact Naming.cell_injective hnumbered (hknows c hc) (hknows d hd)
  · obtain ⟨v, w, hv, hw, hcopy⟩ := hcells c (hknows c hc)
    exact ⟨v, hv, by rw [hw, hcopy.eq]⟩
  · obtain ⟨c, hc⟩ := Option.isSome_iff_exists.1 ((hnumbered.range (c' - N.base + 1)).2
      ⟨Nat.succ_pos _, by omega⟩)
    have hid := hnumbered.cellOf?_iff.1 hc
    refine ⟨c, hreached c ⟨_, hid⟩, Naming.cell_of_idOf? hid (Nat.succ_pos _) ?_⟩
    omega
  · rintro ⟨c, hc, rfl⟩
    obtain ⟨id, hid⟩ := hknows c hc
    obtain ⟨hpos, hle⟩ := hnumbered.idOf?_range hid
    rw [← hbase, hsize, Naming.cell, hid, Option.getD_some]
    omega

end Ndr
