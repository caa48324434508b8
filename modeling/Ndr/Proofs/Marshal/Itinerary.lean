import Ndr.Proofs.Marshal.Nodes

/-!
Itineraries: writing as the cells whose pointers it comes to, and between them what does not concern
the node table. An operation gives the ids `1`, `2` and so on to the cells in the order in which it
comes to them first, and it has done so up to any fault.
-/

namespace Ndr

/-! ### Tables that number a list -/

namespace NodeTable

/-- The most cells that a table numbers. -/
def capacity : Nat := 2 ^ 32 - 1

variable {t : NodeTable} {c : CellId} {cs : List CellId}

/-- The ids of a table are `1`, `2` and so on, for the cells of a list in order. -/
structure Numbers (t : NodeTable) (cs : List CellId) : Prop where
  numbered : t.Numbered
  cells : ∀ k, t.cellOf? (k + 1) = cs[k]?

theorem numbers_empty : Numbers {} [] := ⟨numbered_empty, fun k => Pairing.right?_empty (k + 1)⟩

theorem Numbers.assigned (h : t.Numbers cs) : t.assigned = cs.length := by
  have hk : ∀ k, k < t.assigned ↔ k < cs.length := by
    intro k
    have hr := h.numbered.range (k + 1)
    rw [h.cells] at hr
    by_cases hlt : k < cs.length
    · have := hr.1 (by rw [List.getElem?_eq_getElem hlt]; rfl)
      omega
    · have : ¬ (cs[k]?).isSome := by rw [List.getElem?_eq_none (Nat.le_of_not_lt hlt)]; nofun
      rw [hr] at this
      omega
  have h1 := hk t.assigned
  have h2 := hk cs.length
  omega

/-- The cells of the list are those with an id. -/
theorem Numbers.mem_iff (h : t.Numbers cs) : c ∈ cs ↔ ∃ id, t.idOf? c = some id := by
  rw [List.mem_iff_getElem?]
  constructor
  · rintro ⟨k, hk⟩
    exact ⟨k + 1, h.numbered.cellOf?_iff.1 ((h.cells k).trans hk)⟩
  · rintro ⟨id, hid⟩
    have hrange := h.numbered.idOf?_range hid
    refine ⟨id - 1, ?_⟩
    rw [← h.cells, Nat.sub_add_cancel hrange.1]
    exact h.numbered.cellOf?_iff.2 hid

theorem Numbers.next (h : t.Numbers cs) (hc : t.idOf? c = none) (hlt : t.assigned + 1 < 2 ^ 32) :
    (t.next c).Numbers (cs ++ [c]) where
  numbered := h.numbered.next hc hlt
  cells k := by
    rw [cellOf?_next, h.cells, h.assigned, List.getElem?_append]
    split
    · rename_i hk
      obtain rfl := Nat.succ.inj hk
      rw [if_neg (Nat.lt_irrefl _), Nat.sub_self]
      rfl
    · rename_i hk
      split
      · rfl
      · -- behind the new cell there is none
        rw [List.getElem?_eq_none (by omega), List.getElem?_eq_none (by simp; omega)]

theorem Numbers.length_le (h : t.Numbers cs) : cs.length ≤ capacity := by
  have hbound := h.numbered.bound
  rw [h.assigned] at hbound
  unfold capacity
  omega

/-- A table has room for all the cells that it numbers. -/
theorem Numbers.take_capacity (h : t.Numbers cs) : cs.take capacity = cs :=
  List.take_of_length_le h.length_le

/-- A table that takes no further cell is full. -/
theorem Numbers.length_of_full (h : t.Numbers cs) (hfull : ¬ t.assigned + 1 < 2 ^ 32) :
    cs.length = capacity := by
  have hle := h.length_le
  rw [h.assigned] at hfull
  unfold capacity at hle ⊢
  omega

/-- The cells that come up are numbered as they come up first. -/
theorem eraseDups_concat (cs : List CellId) (c : CellId) :
    (cs ++ [c]).eraseDups = if c ∈ cs then cs.eraseDups else cs.eraseDups ++ [c] := by
  rw [List.eraseDups_append]
  by_cases hc : c ∈ cs
  · simp [List.removeAll, hc]
  · simp [List.removeAll, hc, List.eraseDups_cons]

end NodeTable

namespace Marshal

/-! ### Itineraries -/

/-- The state with another node table. -/
abbrev State.withNodes (s : State) (nodes : NodeTable) : State := { s with nodes }

/-- An action that neither sees nor changes the node table. -/
def Elsewhere {α : Type} (x : Marshalling α) : Prop :=
  ∀ nodes, Blind (State.withNodes · nodes) x

/-- How writing goes on: the cells whose pointers it comes to, and between them what does not concern
the node table. -/
inductive Itinerary : Type → Type 1 where
  | sight (c : CellId) : Itinerary Sighting
  | elsewhere {α : Type} (x : Marshalling α) (h : Elsewhere x) : Itinerary α
  | bind {α β : Type} (x : Itinerary α) (f : α → Itinerary β) : Itinerary β
  /-- A call that is recorded however the itinerary ends. -/
  | recorded (x : Itinerary Unit) (c : Routine.Call) : Itinerary Unit

theorem Elsewhere.nodes_eq {α : Type} {x : Marshalling α} (hx : Elsewhere x) (s : State) :
    Lands (fun _ t => t.nodes = s.nodes) (fun _ t => t.nodes = s.nodes) (x s) := by
  have hs : x s = withLast (State.withNodes · s.nodes) (x s) := hx s.nodes s
  rw [hs]
  cases x s with
  | ok a t => rfl
  | error e t => rfl

/-- A cell that comes up gets the next id, unless it has one or there is none left. -/
theorem numbers_sight (c : CellId) {s : State} {cs : List CellId}
    (h : s.nodes.Numbers cs.eraseDups) :
    Lands (fun _ t => t.nodes.Numbers (cs ++ [c]).eraseDups)
      (fun _ t => t.nodes.Numbers ((cs ++ [c]).eraseDups.take NodeTable.capacity))
      (sight c s) := by
  have hmem : c ∈ cs ↔ ∃ id, s.nodes.idOf? c = some id := List.mem_eraseDups.symm.trans h.mem_iff
  rw [NodeTable.eraseDups_concat]
  cases hc : s.nodes.idOf? c with
  | some id =>
    have e : sight c s = .ok (.again id) s := sight_eq_ok.2 ⟨_, NodeTable.sight_of_known hc, rfl⟩
    rw [e, if_pos (hmem.2 ⟨id, hc⟩)]
    exact h
  | none =>
    rw [if_neg (by simp [hmem, hc])]
    by_cases hlt : s.nodes.assigned + 1 < 2 ^ 32
    · have hsight : s.nodes.sight c = .ok (.first (s.nodes.assigned + 1), s.nodes.next c) := by
        simp only [NodeTable.sight, hc, if_pos hlt]
        rfl
      have e : sight c s = .ok _ { s with nodes := s.nodes.next c } :=
        sight_eq_ok.2 ⟨_, hsight, rfl⟩
      rw [e]
      exact h.next hc hlt
    · have hsight : s.nodes.sight c = .error .integerOverflow := by
        simp only [NodeTable.sight, hc, if_neg hlt]
      have e : sight c s = .error .integerOverflow s := by
        unfold sight
        refine (bind_of_ok (get_eq_ok.2 ⟨rfl, rfl⟩) _).trans ?_
        rw [hsight]
        rfl
      rw [e]
      show s.nodes.Numbers _
      rw [← h.length_of_full hlt, List.take_left]
      exact h

namespace Itinerary

variable {α : Type}

/-- Follow an itinerary. -/
def run {α : Type} : Itinerary α → Marshalling α
  | sight c => Marshal.sight c
  | elsewhere x _ => x
  | bind x f => x.run >>= fun a => (f a).run
  | recorded x c => tryFinally x.run (recordCall c)

/-- The cells whose pointers are come to, in order, up to the fault if there is one. -/
def met {α : Type} : Itinerary α → State → List CellId
  | sight c, _ => [c]
  | elsewhere _ _, _ => []
  | bind x f, s => x.met s ++ match x.run s with
    | .ok a t => (f a).met t
    | .error _ _ => []
  | recorded x _, s => x.met s

/-- What a run leaves is numbered: all cells that it came to where it is completed, and as many as
a table takes where it is not. -/
theorem numbers_run (p : Itinerary α) {s : State} {cs : List CellId}
    (h : s.nodes.Numbers cs.eraseDups) :
    Lands (fun _ t => t.nodes.Numbers (cs ++ p.met s).eraseDups)
      (fun _ t => t.nodes.Numbers ((cs ++ p.met s).eraseDups.take NodeTable.capacity))
      (p.run s) := by
  induction p generalizing s cs with
  | sight c => exact numbers_sight c h
  | elsewhere x hx =>
    have hlands := hx.nodes_eq s
    unfold run met
    rw [List.append_nil, h.take_capacity]
    exact hlands.mono (fun _ _ e => e ▸ h) fun _ _ e => e ▸ h
  | bind x f ihx ihf =>
    have hlands := ihx h
    unfold run met
    cases hr : x.run s with
    | ok a t =>
      rw [hr] at hlands
      rw [bind_of_ok hr, ← List.append_assoc]
      exact ihf a hlands
    | error e t =>
      rw [hr] at hlands
      rw [bind_of_error hr, List.append_nil]
      exact hlands
  | recorded x c ih =>
    have hlands := ih h
    show Lands _ _ (tryFinally x.run (recordCall c) s)
    unfold recordCall
    rw [tryFinally_modify]
    cases hr : x.run s with
    | ok a t => rw [hr] at hlands; exact hlands
    | error e t => rw [hr] at hlands; exact hlands

end Itinerary

/-! ### Operations follow itineraries -/

/-- An action that is the run of some itinerary. -/
def Charted {α : Type} (x : Marshalling α) : Prop := ∃ p : Itinerary α, p.run = x

namespace Charted

variable {α β : Type}

theorem elsewhere {x : Marshalling α} (h : Elsewhere x) : Charted x := ⟨.elsewhere x h, rfl⟩

theorem bind {x : Marshalling α} {f : α → Marshalling β} (hx : Charted x)
    (hf : ∀ a, Charted (f a)) : Charted (x >>= f) := by
  obtain ⟨p, rfl⟩ := hx
  choose q hq using hf
  exact ⟨.bind p q, congrArg _ (funext hq)⟩

theorem put (x : Put α) : Charted (put x) := .elsewhere fun nodes => by
  refine Blind.onPart ?_ ?_ x
  · exact fun _ => rfl
  · exact fun _ _ => rfl

theorem onPipe (h : PipeHandle) (x : EStateM Fault Pipe α) : Charted (onPipe h x) :=
  .elsewhere fun nodes => by
    refine Blind.onPart ?_ ?_ _
    · exact fun _ => rfl
    · exact fun _ _ => rfl

theorem modify {f : State → State} (h : ∀ s nodes, f (s.withNodes nodes) = (f s).withNodes nodes) :
    Charted (modify f : Marshalling PUnit) := .elsewhere fun nodes => .modify fun s => h s nodes

end Charted

theorem relates_charted (env : Env) :
    RelatesSteps env env (fun _ => True) fun x _ => Charted x where
  pure a := .elsewhere fun _ => .pure a
  throw e := .elsewhere fun _ => .throw e
  bind := .bind
  align _ := .put _
  count _ := .put _
  shortCount _ := .put _
  scalar _ _ := .put _
  run _ := .put _
  token _ := .bind (.put _) fun _ => .bind (.put _) fun _ => .bind (.put _) fun _ =>
    .bind (.put _) fun _ => .put _
  onPipe h _ x := .onPipe h x
  call _ := .modify fun _ _ => rfl
  recorded c := by
    rintro ⟨p, rfl⟩
    exact ⟨.recorded p c, rfl⟩
  seeCalls {α f g} h := by
    have hcalls : Charted (do return (← get).calls) := .elsewhere fun _ _ => rfl
    have hall : Charted ((do return (← get).calls) >>= f) := .bind hcalls h
    exact hall
  sight c := ⟨.sight c, rfl⟩
  defer _ := .modify fun _ _ => rfl
  takeDeferred h := by
    have htake : Charted takeDeferred := .elsewhere fun _ _ => rfl
    exact .bind htake fun ds => h ds fun _ _ => trivial

/-- Every operation follows an itinerary. -/
theorem exists_itinerary (env : Env) (offset : Nat) (params : List Value) :
    ∃ p : Itinerary Unit, p.run = putParameters env offset params := by
  have hR := relates_charted env
  refine operation_of_streams hR.toRelatesPointers (fun room hw h d site => ?_) offset params
  exact hR.toRelates.putStream (relatesWalks hw) (.refl env) trivial (hR.onPipe h)

end Marshal

end Ndr
