import Ndr.Proofs.DeletedNodes
import Ndr.Proofs.Effect
import Ndr.Proofs.Marshal.Itinerary

/-!
The node tables of a machine, whatever it was asked to do: ids and cells stand for each other one to
one in both of them, and writing numbers the cells in the order in which it comes to them.
-/

namespace Ndr

/-- A table that numbers some cells is consistent. -/
theorem NodeTable.Numbers.consistent {t : NodeTable} {cs : List CellId} (h : t.Numbers cs) :
    t.Consistent := by
  refine ⟨h.numbered.inverse, ?_⟩
  rw [← Option.not_isSome_iff_eq_none, h.numbered.range]
  omega

namespace Machine

open Marshal (Itinerary)

variable {m : Machine}

/-- The state in which a machine starts to write. -/
abbrev starting (m : Machine) (world : Surroundings) (sink : Sink) : Marshal.State :=
  { world with writer := .new sink m.config }

/-- **Writing numbers the cells** in the order in which it comes to them first, all of them where the
message is completed, and those up to the fault where it is not. -/
theorem numbers_marshal {world : Surroundings} {offset : Nat} {params : List Value} (sink : Sink)
    {p : Itinerary Unit} (hp : p.run = Marshal.putParameters (m.writing world) offset params) :
    let o := m.marshal world offset params sink
    let met := p.met (m.starting world sink)
    o.machine.nodes.Numbers (met.eraseDups.take NodeTable.capacity) ∧
      ∀ n, o.result = .ok n → o.machine.nodes.Numbers met.eraseDups := by
  have hempty : (m.starting world sink).nodes.Numbers (([] : List CellId).eraseDups) :=
    NodeTable.numbers_empty
  have hlands := p.numbers_run hempty
  rw [List.nil_append, hp] at hlands
  unfold marshal
  dsimp only
  split
  · rename_i f t e
    have e' : Marshal.putParameters (m.writing world) offset params (m.starting world sink)
      = .error f t := e
    rw [e'] at hlands
    exact ⟨hlands, by simp⟩
  · rename_i t e
    have e' : Marshal.putParameters (m.writing world) offset params (m.starting world sink)
      = .ok () t := e
    rw [e'] at hlands
    have hall : t.nodes.Numbers _ := hlands
    split
    · exact ⟨hall.take_capacity.symm ▸ hall, fun _ _ => hall⟩
    · exact ⟨hall.take_capacity.symm ▸ hall, fun _ _ => hall⟩

/-- Reading leaves a consistent table, and none where it comes to a fault. -/
theorem consistent_unmarshal (m : Machine) (world : Surroundings) (offset : Nat)
    (params : List Value) (source : Source) :
    (m.unmarshal world offset params source).machine.nodes.Consistent := by
  cases he : (m.unmarshal world offset params source).result with
  | ok results =>
    obtain ⟨ps, deleted, h⟩ := unmarshal_effect m world offset params source he
    exact h.nodes
  | error e =>
    obtain ⟨s, -, -, hm⟩ := unmarshal_eq_error he
    rw [hm]
    exact NodeTable.consistent_empty

theorem consistent_marshal (m : Machine) (world : Surroundings) (offset : Nat)
    (params : List Value) (sink : Sink) :
    (m.marshal world offset params sink).machine.nodes.Consistent := by
  obtain ⟨p, hp⟩ := Marshal.exists_itinerary (m.writing world) offset params
  exact (numbers_marshal sink hp).1.consistent

/-! ### Requests -/

/-- An operation keeps the table of the operation before it; a note changes neither. -/
theorem previous_serve (m : Machine) (r : Request) :
    (m.serve r).previous = m.nodes ∨
      (m.serve r).nodes = m.nodes ∧ (m.serve r).previous = m.previous := by
  cases r with
  | marshal world offset params sink =>
    refine .inl ?_
    unfold serve marshal
    dsimp only
    split
    · rfl
    · split <;> rfl
  | unmarshal world offset params source =>
    refine .inl ?_
    unfold serve unmarshal
    dsimp only
    split <;> rfl
  | noteDeleted c =>
    refine .inr ?_
    rw [serve, noteDeleted_snd]
    exact ⟨rfl, rfl⟩

/-- One request leaves both tables consistent. -/
theorem consistent_serve (hn : m.nodes.Consistent) (hp : m.previous.Consistent) (r : Request) :
    (m.serve r).nodes.Consistent ∧ (m.serve r).previous.Consistent := by
  constructor
  · cases r with
    | marshal world offset params sink => exact consistent_marshal m world offset params sink
    | unmarshal world offset params source =>
      exact consistent_unmarshal m world offset params source
    | noteDeleted c =>
      rw [serve, noteDeleted_snd]
      exact hn
  · rcases previous_serve m r with h | ⟨-, h⟩
    · exact h ▸ hn
    · exact h ▸ hp

theorem consistent_requests (hn : m.nodes.Consistent) (hp : m.previous.Consistent)
    (rs : List Request) :
    (rs.foldl serve m).nodes.Consistent ∧ (rs.foldl serve m).previous.Consistent := by
  induction rs generalizing m with
  | nil => exact ⟨hn, hp⟩
  | cons r rs ih =>
    obtain ⟨hn', hp'⟩ := consistent_serve hn hp r
    exact ih hn' hp'

/-- **Node tables are bijections**: whatever a machine was asked to do, in its last two node tables
ids and cells stand for each other one to one, and no id is zero. Writing then follows an itinerary,
and the ids that it gives are `1`, `2` and so on for the cells that come up on the way, in the order
in which each comes up first, whether the message is completed or not. -/
theorem nodes_of_requests {interface : Interface} {representation : Representation} {side : Side}
    {config : Config} (hm : create interface representation side config = .ok m)
    (rs : List Request) :
    let served := rs.foldl serve m
    served.nodes.Consistent ∧ served.previous.Consistent ∧
      ∀ world offset params sink,
        let o := served.marshal world offset params sink
        (∃ p : Itinerary Unit,
          p.run = Marshal.putParameters (served.writing world) offset params) ∧
        ∀ p : Itinerary Unit, p.run = Marshal.putParameters (served.writing world) offset params →
          let met := p.met (served.starting world sink)
          o.machine.nodes.Numbers (met.eraseDups.take NodeTable.capacity) ∧
            ∀ n, o.result = .ok n → o.machine.nodes.Numbers met.eraseDups := by
  obtain rfl := create_eq_ok hm
  obtain ⟨hn, hp⟩ := consistent_requests (m := { interface, representation, side, config })
    NodeTable.consistent_empty NodeTable.consistent_empty rs
  refine ⟨hn, hp, fun world offset params sink => ⟨?_, fun p hp => numbers_marshal sink hp⟩⟩
  exact Marshal.exists_itinerary _ offset params

/-- A machine that failed to write a pointer, noted its cell as deleted, and read another. -/
def busy : Machine :=
  [.marshal {} 16 [.pointer (some 3)] .reliable, .noteDeleted 3,
    .unmarshal {} 16 [.void] (.ofBytes [7, 0, 0, 0, 5, 0, 0, 0])].foldl serve
      { interface := { vector := longPointerVector } }

theorem busy_nodes :
    create { vector := longPointerVector } {} .client {}
      = .ok { interface := { vector := longPointerVector } } ∧
    busy.previous.cellOf? 1 = some 3 ∧ busy.nodes.cellOf? 7 = some 0 ∧
    busy.nodes.Consistent ∧ busy.previous.Consistent ∧
    ∃ p : Itinerary Unit,
      p.run = Marshal.putParameters (busy.writing {}) 16 [.pointer (some 4)] ∧
      (busy.marshal {} 16 [.pointer (some 4)] .reliable).machine.nodes.Numbers
        ((p.met (busy.starting {} .reliable)).eraseDups.take NodeTable.capacity) := by
  have hm : create { vector := longPointerVector } {} .client {}
      = .ok { interface := { vector := longPointerVector } } := rfl
  obtain ⟨hn, hp, hwrite⟩ := nodes_of_requests hm
    [.marshal {} 16 [.pointer (some 3)] .reliable, .noteDeleted 3,
      .unmarshal {} 16 [.void] (.ofBytes [7, 0, 0, 0, 5, 0, 0, 0])]
  obtain ⟨⟨p, hrun⟩, hnumbers⟩ := hwrite {} 16 [.pointer (some 4)] .reliable
  exact ⟨hm, by decide +kernel, by decide +kernel, hn, hp, p, hrun, (hnumbers p hrun).1⟩

end Machine

end Ndr
