import Ndr.Machine
import Ndr.Proofs.Marshal.Ending

/-!
The nodes of a message that was written. A cell gets its id where it is met first, and its contents
are looked up only then. So an id stands for a live cell once its message is complete, and may stand
for none where the writing came to a fault.
-/

namespace Ndr

theorem NodeTable.cellOf?_next (t : NodeTable) (c : CellId) (id : Nat) :
    (t.next c).cellOf? id = if t.assigned + 1 = id then some c else t.cellOf? id :=
  Pairing.right?_insert _ _ _ _

namespace Marshal

variable {env : Env} {s t u : State}

/-- A new node stands for a live cell or for one that is put off; what was put off still is. -/
structure Settled (env : Env) (s t : State) : Prop where
  nodes : ∀ id c, t.nodes.cellOf? id = some c → s.nodes.cellOf? id = some c ∨
    env.heap.isLive c ∨ ∃ d ∈ t.deferred, d.cell = c
  deferred : ∀ d ∈ s.deferred, d ∈ t.deferred

theorem Settled.of_eq (hn : t.nodes = s.nodes) (hd : t.deferred = s.deferred) :
    Settled env s t where
  nodes _ _ h := .inl (hn ▸ h)
  deferred _ h := hd ▸ h

theorem Settled.trans (h : Settled env s t) (h' : Settled env t u) : Settled env s u where
  nodes id c hc := by
    refine (h'.nodes id c hc).elim (fun ht => ?_) .inr
    refine (h.nodes id c ht).imp_right (.imp_right ?_)
    exact fun ⟨d, hd, hdc⟩ => ⟨d, h'.deferred d hd, hdc⟩
  deferred d hd := h'.deferred d (h.deferred d hd)

theorem composes_settled (env : Env) : Composes env (Moves (Settled env)) :=
  composes_moves (fun _ _ => .of_eq) .trans

/-! ### Pointers -/

section

variable {walk : Walk} (hw : ∀ d v site, Moves (Settled env) (walk d v site))

include hw

/-- The contents of a live cell are written, or those of any cell are put off. -/
theorem settled_placePointee {cell : CellId} {pointee : Nat} {site : Site Scope} {a : Unit}
    (e : placePointee env walk cell pointee site s = .ok a t) :
    Settled env s t ∧ (env.heap.isLive cell ∨ ∃ d ∈ t.deferred, d.cell = cell) := by
  unfold placePointee at e
  split at e
  · obtain rfl := modify_eq_ok.1 e
    exact ⟨⟨fun _ _ => .inl, fun _ => List.mem_cons_of_mem _⟩,
      .inr ⟨_, List.mem_cons_self, rfl⟩⟩
  · obtain ⟨d, v, -, hv, hwalk⟩ := putPointee_eq_ok.1 e
    exact ⟨hw d v _ hwalk, .inl (Heap.isLive_iff.2 ⟨v, Heap.load_eq_ok_iff.1 hv⟩)⟩

theorem settles_putTarget (pointee : Nat) (cell : CellId) (site : Site Scope) :
    Moves (Settled env) (putTarget env walk pointee cell site) := by
  have hcount := (composes_settled env).count
  intro s a t e
  obtain ⟨found, s1, h1, e1⟩ := bind_eq_ok.1 e
  obtain ⟨nodes, hsight, rfl⟩ := sight_eq_ok.1 h1
  cases hc : s.nodes.idOf? cell with
  | some id =>
    rw [NodeTable.sight_of_known hc] at hsight
    cases hsight
    exact hcount id e1
  | none =>
    obtain ⟨rfl, -, rfl⟩ := NodeTable.sight_eq_ok_of_new hc hsight
    obtain ⟨_, s2, h2, e2⟩ := bind_eq_ok.1 e1
    obtain ⟨hplace, hcell⟩ := settled_placePointee hw e2
    have hrest := (hcount _ h2).trans hplace
    refine ⟨fun id c hid => ?_, hrest.deferred⟩
    refine (hrest.nodes id c hid).elim (fun hnext => ?_) .inr
    -- the new node is that of the cell, which is live or put off
    dsimp only at hnext
    rw [NodeTable.cellOf?_next] at hnext
    split at hnext
    · exact .inr (Option.some.inj hnext ▸ hcell)
    · exact .inl hnext

theorem settles_putPointer (kind : PointerKind) (pointee : Nat) (v : Value) (site : Site Scope) :
    Moves (Settled env) (putPointer env walk kind pointee v site) := by
  have hP := composes_settled env
  have hplace : ∀ cell, Moves (Settled env) (placePointee env walk cell pointee site) :=
    fun _ _ _ _ e => (settled_placePointee hw e).1
  unfold putPointer
  cases v with
  | pointer target =>
    cases kind <;> cases target
    · exact hP.throw _
    · exact Composes.ite (P := Moves (Settled env)) (hP.bind (hP.count _) fun _ => hplace _)
        (hplace _)
    · exact hP.count 0
    · exact settles_putTarget hw _ _ _
    · exact hP.count 0
    · exact settles_putTarget hw _ _ _
  | _ => exact hP.throw _

end

theorem settles_walk (env : Env) (room : Nat) (d : Descriptor) (v : Value) (site : Site Scope) :
    Moves (Settled env) (walk env room d v site) :=
  (composes_settled env).walk (TypeVector.closed_true _).atHand
    (fun hw _ _ _ _ _ _ _ _ => settles_putPointer (fun d v site => hw d v site trivial) _ _ _ _)
    room d v site trivial

/-! ### Whole messages -/

/-- The nodes that are new in `t` stand for live cells. -/
def Live (env : Env) (s t : State) : Prop :=
  ∀ id c, t.nodes.cellOf? id = some c → s.nodes.cellOf? id = some c ∨ env.heap.isLive c

theorem Live.trans (h : Live env s t) (h' : Live env t u) : Live env s u := fun id c hc =>
  (h' id c hc).elim (h id c) .inr

/-- Where what is put off has live cells, so has every new node. -/
theorem Settled.live (h : Settled env s t) (hd : ∀ d ∈ t.deferred, env.heap.isLive d.cell) :
    Live env s t := fun id c hc => by
  refine (h.nodes id c hc).imp_right ?_
  rintro (hcell | ⟨d, hmem, rfl⟩)
  · exact hcell
  · exact hd d hmem

/-- Pointees that were written have live cells, and so have those that were put off in them. -/
theorem Fills.live {walk : Walk} (hw : ∀ d v site, Moves (Settled env) (walk d v site))
    {ds : List (Deferred Scope)} {r : EStateM.Result Fault State Unit}
    (h : Fills env walk ds s r) : ∀ ⦃a t⦄, r = .ok a t →
      (∀ d ∈ ds, env.heap.isLive d.cell) ∧ Live env s t := by
  induction h with
  | nil =>
    rintro _ _ ⟨⟩
    exact ⟨by simp, fun _ _ => .inl⟩
  | fault => nofun
  | faultWithin => nofun
  | cons here _ _ ihw ihb =>
    intro a t hr
    obtain ⟨d, v, -, hv, hwalk⟩ := putPointee_eq_ok.1 here
    obtain ⟨hdue, hwithin⟩ := ihw rfl
    obtain ⟨hds, hbehind⟩ := ihb hr
    refine ⟨List.forall_mem_cons.2 ⟨?_, hds⟩, .trans ?_ (hwithin.trans hbehind)⟩
    · exact Heap.isLive_iff.2 ⟨v, Heap.load_eq_ok_iff.1 hv⟩
    · exact (hw d v _ hwalk).live fun e he => hdue e (List.mem_reverse.2 he)

/-- All that was put off is written, and nothing is put off any more. -/
theorem live_flush {room : Nat} {a : Unit} (e : flush env (walk env room) s = .ok a t) :
    (∀ d ∈ s.deferred, env.heap.isLive d.cell) ∧ Live env s t ∧ t.deferred = [] := by
  obtain ⟨ds, s1, h1, e1⟩ := bind_eq_ok.1 e
  obtain ⟨rfl, rfl⟩ := takeDeferred_eq_ok.1 h1
  have hfills := fills_of_putDeferred e1
  obtain ⟨hds, hlive⟩ := hfills.live (settles_walk env room) rfl
  exact ⟨fun d hd => hds d (List.mem_reverse.2 hd), hlive, hfills.deferred rfl rfl⟩

/-- The nodes of parameters that were written stand for live cells. -/
theorem live_putParameters {offset : Nat} {params : List Value} {a : Unit} (hs : s.deferred = [])
    (e : putParameters env offset params s = .ok a t) : Live env s t := by
  obtain ⟨list, s1, h1, e1⟩ := bind_eq_ok.1 e
  obtain ⟨-, rfl⟩ := lift_eq_ok.1 h1
  clear h1 e
  induction list generalizing s with
  | nil =>
    obtain ⟨-, rfl⟩ := pure_eq_ok.1 e1
    exact fun _ _ => .inl
  | cons p list ih =>
    obtain ⟨_, s3, h3, e3⟩ := bind_eq_ok.1 e1
    cases hv : params[p.index]? with
    | none =>
      simp only [hv] at h3
      exact absurd h3 throw_ne_ok
    | some v =>
      simp only [hv] at h3
      obtain ⟨_, s2, h2, hflush⟩ := bind_eq_ok.1 h3
      obtain ⟨hdue, hlive, hnil⟩ := live_flush hflush
      exact ((settles_walk _ _ _ _ _ h2).live hdue).trans (hlive.trans (ih hnil e3))

end Marshal

namespace Machine

/-- **The nodes of a message that was written stand for live cells.** -/
theorem nodes_live (m : Machine) (world : Surroundings) (offset : Nat) (params : List Value)
    (sink : Sink) {n : Nat} (h : (m.marshal world offset params sink).result = .ok n) :
    ∀ id c, (m.marshal world offset params sink).machine.nodes.cellOf? id = some c →
      world.heap.isLive c := by
  unfold marshal at h ⊢
  dsimp only at h ⊢
  split at h
  · simp at h
  · rename_i hrun
    have hlive := Marshal.live_putParameters rfl hrun
    intro id c hc
    refine (hlive id c ?_).resolve_left (by simp [NodeTable.cellOf?])
    split at hc <;> exact hc

end Machine

end Ndr
