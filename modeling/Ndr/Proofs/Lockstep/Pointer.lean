import Ndr.Proofs.Lockstep.Steps

/-!
Pointers in lock-step: the ids of nodes on both sides, pointees in their places, and the pointees
that are put off.
-/

namespace Ndr

theorem Heap.limit_put (h : Heap) (c : CellId) (v : Value) : (h.put c v).limit = h.limit := by
  unfold put
  split <;> rfl

/-- The state with a new cell, entered under an id that was read for a pointer. -/
def Unmarshal.State.make (u : Unmarshal.State) (id pointee : Nat) : Unmarshal.State :=
  { u with
    heap := u.heap.append .void
    allocated := u.heap.allocations :: u.allocated
    nodes := { u.nodes with pairs := u.nodes.pairs.insert id u.heap.allocations }
    sightings := ⟨some id, pointee, u.heap.allocations⟩ :: u.sightings }

namespace Lockstep

section

variable {env : Marshal.Env} {T : Terms} {N : Naming} {own : ScopeId → Prop} {G : List Frame}
  {F : Frame} {s t : Marshal.State} {u u' : Unmarshal.State} {c : CellId} {id : Nat}

/-! ### Changes of both sides -/

/-- The cell that was made for a node is there. -/
theorem Follows.isLive (h : Follows env T N G s u) (hs : Marshal.Ready s)
    (hid : s.nodes.idOf? c = some id) {c' : CellId} (hc : N.base + id = c' + 1) :
    u.heap.isLive c' := by
  obtain ⟨h1, h2⟩ := hs.nodes.idOf?_range hid
  have hsize := h.size
  exact h.live c' (by omega) (by omega)

theorem Follows.store (h : Follows env T N G s u) (hl : u.heap.isLive c) (v : Value) :
    Follows env T N G s { u with heap := u.heap.put c v } where
  position := h.position
  limit c hc := (Heap.limit_put _ _ _).trans (h.limit c hc)
  size := (Heap.size_put _ _ _).trans h.size
  live d h1 h2 := by
    obtain ⟨w, hw⟩ := Heap.isLive_iff.1 (h.live d h1 ((Heap.size_put u.heap c v) ▸ h2))
    refine Heap.isLive_iff.2 ?_
    dsimp only
    rw [Heap.load?_put hl]
    split
    · exact ⟨v, rfl⟩
    · exact ⟨w, hw⟩
  nodes := h.nodes
  consistent := h.consistent
  reached := h.reached
  scopes := h.scopes
  partly := h.partly
  late := h.late
  deferred := h.deferred
  deleted := h.deleted

theorem Follows.sight (h : Follows env T N G s u) (p : Unmarshal.Sighting) :
    Follows env T N G s { u with sightings := p :: u.sightings } where
  position := h.position
  limit := h.limit
  size := h.size
  live := h.live
  nodes := h.nodes
  consistent := h.consistent
  reached := h.reached
  scopes := h.scopes
  partly := h.partly
  late := h.late
  deferred := h.deferred
  deleted := h.deleted

/-- A pointee put off on both sides. -/
theorem Follows.defer (h : Follows env T N G s u) {d : Deferred Scope} {d' : Deferred ScopeId}
    (hd : Paired env T N s.nodes G d d') :
    Follows env T N G { s with deferred := d :: s.deferred }
      { u with deferred := d' :: u.deferred } where
  position := h.position
  limit := h.limit
  size := h.size
  live := h.live
  nodes := h.nodes
  consistent := h.consistent
  reached := h.reached
  scopes := h.scopes
  partly := h.partly
  late := h.late
  deferred := .cons hd h.deferred
  deleted := h.deleted

theorem Follows.take (h : Follows env T N G s u) :
    Follows env T N G { s with deferred := [] } { u with deferred := [] } where
  position := h.position
  limit := h.limit
  size := h.size
  live := h.live
  nodes := h.nodes
  consistent := h.consistent
  reached := h.reached
  scopes := h.scopes
  partly := h.partly
  late := h.late
  deferred := .nil
  deleted := h.deleted

theorem Follows.checkRoom (h : Follows env T N G s u) (hT : T.cell c) :
    u.heap.checkRoom = .ok () := by
  unfold Heap.checkRoom
  rw [h.limit c hT]

theorem Follows.cellOf?_next (h : Follows env T N G s u) :
    u.nodes.cellOf? (s.nodes.assigned + 1) = none := by
  cases hc : u.nodes.cellOf? (s.nodes.assigned + 1) with
  | none => rfl
  | some c => exact absurd ((h.nodes _ _).1 hc).2.1 (Nat.not_succ_le_self _)

/-- The new cell is not entered yet, and neither is the next id. -/
theorem Follows.register_eq_ok (h : Follows env T N G s u) :
    u.nodes.register (s.nodes.assigned + 1) u.heap.allocations = .ok { u.nodes with
      pairs := u.nodes.pairs.insert (s.nodes.assigned + 1) u.heap.allocations } := by
  have hid : u.nodes.idOf? u.heap.allocations = none := by
    cases hc : u.nodes.idOf? u.heap.allocations with
    | none => rfl
    | some id =>
      have := (h.nodes _ _).1 ((h.consistent.1 id u.heap.allocations).2 hc)
      have hsize : N.base + s.nodes.assigned = u.heap.allocations := h.size.symm
      omega
  simp [NodeTable.register, h.cellOf?_next, hid]

/-- A new node on both sides. -/
theorem Follows.make (h : Follows env T N G s u) (hc : s.nodes.idOf? c = none) (hT : T.cell c)
    (pointee : Nat) :
    Follows env T N G { s with nodes := s.nodes.next c }
      (u.make (s.nodes.assigned + 1) pointee) where
  position := h.position
  limit := h.limit
  size := by
    have := h.size
    simp only [Unmarshal.State.make, Heap.append, Array.size_push, NodeTable.next]
    omega
  live d h1 h2 := by
    refine Heap.isLive_iff.2 ?_
    simp only [Unmarshal.State.make]
    rw [Heap.load?_append]
    split
    · exact ⟨_, rfl⟩
    · rename_i hne
      simp only [Unmarshal.State.make, Heap.append, Array.size_push] at h2
      exact Heap.isLive_iff.1 (h.live d h1 (Nat.lt_of_le_of_ne (Nat.le_of_lt_succ h2) hne))
  nodes id d := by
    have hsize : N.base + s.nodes.assigned = u.heap.allocations := h.size.symm
    have hold : u.nodes.pairs.right? id = some d ↔ _ := h.nodes id d
    show Pairing.right? (u.nodes.pairs.insert _ _) id = some d ↔ _
    rw [Pairing.right?_insert]
    split
    · rename_i hid
      have : some u.heap.allocations = some d ↔ u.heap.allocations + 1 = d + 1 := by simp
      rw [this, ← hsize, ← hid]
      simp only [NodeTable.next]
      constructor
      · intro h
        exact ⟨Nat.succ_pos _, Nat.le_refl _, h⟩
      · exact fun h => h.2.2
    · rename_i hid
      rw [hold]
      simp only [NodeTable.next]
      constructor
      · exact fun h => ⟨h.1, by omega, h.2.2⟩
      · exact fun h => ⟨h.1, by omega, h.2.2⟩
  consistent := h.consistent.register h.register_eq_ok
  reached d id hd := by
    rw [NodeTable.idOf?_next] at hd
    split at hd
    · rename_i hcd
      exact hcd ▸ hT
    · exact h.reached d id hd
  scopes := h.scopes
  partly := h.partly
  late := h.late
  deferred := h.deferred.imp fun _ _ hd =>
    hd.mono (fun _ _ e => NodeTable.idOf?_next_of_known hc e) List.prefix_rfl
  deleted := h.deleted

end

/-! ### Pointees -/

section

variable {env : Marshal.Env} {T : Terms} {N : Naming} {P : Descriptor → Value → Frame → Prop}
  {G : List Frame} {F : Frame} {walk : Marshal.Walk} {walk' : Unmarshal.Walk} {x : Site Scope} {y : Site ScopeId}
  {s t : Marshal.State} {u : Unmarshal.State} {bytes tail : List UInt8} (side : Side)
  (previous : NodeTable)

/-- What is asked of the contents of a cell. -/
abbrev PointeeHolds (env : Marshal.Env) (P : Descriptor → Value → Frame → Prop) (pointee : Nat)
    (c : CellId) (F : Frame) : Prop :=
  ∀ e v, env.vector.stream pointee = .ok e → env.heap.load c = .ok v → P e v F

section

variable (hw : LockedWalks env T N P walk walk')

include hw

/-- The contents of a node are read into the cell that was made for it. -/
theorem getPointee_reads {c c' : CellId} {pointee id : Nat} {a : Unit} (hs : Marshal.Ready s)
    (e : Marshal.putPointee env walk c pointee x s = .ok a t) (hN : N.Covers t.nodes)
    (hm : Meets G F x y) (hT : PointeeHolds env P pointee c F)
    (hid : s.nodes.idOf? c = some id) (hc : N.base + id = c' + 1)
    (hwrote : Writer.Wrote s.writer t.writer bytes) (hu : Follows env T N G s u)
    (hr : u.reader.rest = bytes ++ tail) :
    ∃ u' G', Unmarshal.getPointee (env.receiver side previous) walk' c' pointee y u = .ok () u' ∧
      u'.reader.rest = tail ∧ Follows env T N G' t u' ∧
      Course env N (fun _ => False) (· = c') G G' u u' := by
  unfold Marshal.putPointee at e
  obtain ⟨d, s1, h1, e1⟩ := bind_eq_ok.1 e
  obtain ⟨v, s2, h2, e2⟩ := bind_eq_ok.1 e1
  obtain ⟨hd, rfl⟩ := lift_eq_ok.1 h1
  obtain ⟨hv, rfl⟩ := lift_eq_ok.1 h2
  have hm' : Meets G F { x with embedded := false } { y with embedded := false } :=
    ⟨hm.frame, hm.scope, rfl⟩
  obtain ⟨w, u1, G1, e3, r3, f3, c3, hcopy⟩ :=
    (hw.reads (hT d v hd hv) hm').reads hs e2 hN List.prefix_rfl hwrote hu hr
  obtain ⟨g, -⟩ := hw.grows d v _ hs e2
  have hid' := g.nodes c id hid
  have hl := f3.isLive g.ready hid' hc
  have hpos := (hs.nodes.idOf?_range hid).1
  refine ⟨{ u1 with heap := u1.heap.put c' w }, G1, ?_, r3, f3.store hl w, c3.frames, c3.scopes,
    ?_⟩
  · exact bind_eq_ok.2 ⟨d, u, lift_eq_ok.2 ⟨hd, rfl⟩, bind_eq_ok.2 ⟨w, u1, e3,
      Unmarshal.store_eq_ok.2 ⟨hl, rfl⟩⟩⟩
  · have hcopied : Copied env N c' w :=
      ⟨c, v, ⟨id, hN c id hid'⟩, Naming.cell_of_idOf? (hN c id hid') hpos hc,
        Heap.load_eq_ok_iff.1 hv, hcopy⟩
    exact (c3.step.trans (.store hl hcopied)).congr fun _ => .inr

/-- The contents of a node that was just made are read, or put off on both sides. -/
theorem placePointee_reads {c c' : CellId} {pointee id : Nat} {a : Unit} (hs : Marshal.Ready s)
    (e : Marshal.placePointee env walk c pointee x s = .ok a t) (hN : N.Covers t.nodes)
    (hm : Meets G F x y) (hT : PointeeHolds env (if x.embedded then T.value else P) pointee c F)
    (hid : s.nodes.idOf? c = some id) (hc : N.base + id = c' + 1)
    (hwrote : Writer.Wrote s.writer t.writer bytes) (hu : Follows env T N G s u)
    (hr : u.reader.rest = bytes ++ tail) (u₀ : Unmarshal.State)
    (hheap : u.heap = u₀.heap.append .void) (hsize : u₀.heap.cells.size = c')
    (hdef : u.deferred = u₀.deferred) (hscopes : u.scopes = u₀.scopes) :
    ∃ u' G', Unmarshal.placePointee (env.receiver side previous) walk' c' pointee y u
        = .ok () u' ∧
      u'.reader.rest = tail ∧ Follows env T N G' t u' ∧
      Course env N (fun _ => False) Unmarshal.None G G' u₀ u' := by
  unfold Marshal.placePointee at e
  unfold Unmarshal.placePointee
  rw [hm.embedded]
  by_cases hx : x.embedded
  · rw [if_pos hx] at e hT ⊢
    obtain rfl := modify_eq_ok.1 e
    obtain rfl := hwrote.unique .refl
    refine ⟨{ u with deferred := ⟨c', pointee, y.scope⟩ :: u.deferred }, G,
      Unmarshal.defer_eq_ok.2 rfl, hr, hu.defer ⟨⟨id, hid, hc⟩, rfl, F, hm.frame, hm.scope, hT⟩,
      List.prefix_rfl, fun _ _ _ => by rw [hscopes], .defer_fresh hheap hsize hdef rfl⟩
  · rw [if_neg hx] at e hT ⊢
    obtain ⟨u', G', h1, h2, h3, h4⟩ := getPointee_reads side previous hw hs e hN hm hT hid hc
      hwrote hu hr
    exact ⟨u', G', h1, h2, h3, h4.frames, fun i hi hn => (h4.scopes i hi hn).trans (by rw [hscopes]),
      .fill_fresh hheap hsize hdef h4.step⟩

end

/-! ### Pointers -/

/-- A pointer to a node that is met again. -/
theorem getPointer_again {kind : PointerKind} (hk : kind ≠ .ref) {pointee : Nat} {c : CellId}
    {id : Nat} {a : Unit} (hs : Marshal.Ready s) (hid : s.nodes.idOf? c = some id)
    (hlt : id < 2 ^ 32) (e : Marshal.putCount env id s = .ok a t) (hN : N.Covers t.nodes)
    (hwrote : Writer.Wrote s.writer t.writer bytes) (hu : Follows env T N G s u)
    (hr : u.reader.rest = bytes ++ tail) :
    ∃ w u' G', Unmarshal.getPointer (env.receiver side previous) walk' kind pointee y u
        = .ok w u' ∧
      u'.reader.rest = tail ∧ Follows env T N G' t u' ∧
      Course env N (fun _ => False) Unmarshal.None G G' u u' ∧ N.Copy (.pointer (some c)) w := by
  obtain ⟨n, u1, G1, e1, r1, f1, c1, rfl⟩ := (locked_count side previous
    hlt).reads hs e hN List.prefix_rfl hwrote hu hr
  obtain ⟨g, -⟩ := (Marshal.composes_grows _).count n hs e
  have hid' := g.nodes c n hid
  obtain ⟨hpos, hle⟩ := g.ready.nodes.idOf?_range hid'
  have hcell := Naming.cell_of_idOf? (hN c n hid') hpos
    (show N.base + n = N.base + (n - 1) + 1 by omega)
  have hfound : u1.nodes.cellOf? n = some (N.cell c) := by
    rw [hcell]
    exact (f1.nodes _ _).2 ⟨hpos, hle, by omega⟩
  refine ⟨.pointer (some (N.cell c)),
    { u1 with sightings := ⟨some n, pointee, N.cell c⟩ :: u1.sightings }, G1, ?_, r1, f1.sight _,
    c1.trans_none (.of_eq rfl rfl rfl), rfl, ?_⟩
  · unfold Unmarshal.getPointer
    rw [if_neg hk]
    refine bind_eq_ok.2 ⟨n, u1, e1, ?_⟩
    rw [if_neg (by omega)]
    refine bind_eq_ok.2 ⟨u1, u1, rfl, ?_⟩
    rw [hfound]
    rfl
  · rintro _ ⟨⟩
    exact ⟨n, hN c n hid'⟩

/-- A new cell for a node that is met first, and the contents of the node. -/
theorem getPointer_first (hw : LockedWalks env T N P walk walk') {kind : PointerKind}
    (hk : kind ≠ .ref) {pointee : Nat} {c : CellId} {a : Unit} (hs : Marshal.Ready s)
    (hnew : s.nodes.idOf? c = none) (hlt : s.nodes.assigned + 1 < 2 ^ 32) (hcell : T.cell c)
    (e : (do Marshal.putCount env (s.nodes.assigned + 1)
             Marshal.placePointee env walk c pointee x : Marshalling Unit)
      { s with nodes := s.nodes.next c } = .ok a t)
    (hN : N.Covers t.nodes) (hm : Meets G F x y) (hT : PointeeHolds env (if x.embedded then T.value else P) pointee c F)
    (hwrote : Writer.Wrote s.writer t.writer bytes) (hu : Follows env T N G s u)
    (hr : u.reader.rest = bytes ++ tail) :
    ∃ w u' G', Unmarshal.getPointer (env.receiver side previous) walk' kind pointee y u
        = .ok w u' ∧
      u'.reader.rest = tail ∧ Follows env T N G' t u' ∧
      Course env N (fun _ => False) Unmarshal.None G G' u u' ∧ N.Copy (.pointer (some c)) w := by
  obtain ⟨_, s2, h2, e2⟩ := bind_eq_ok.1 e
  unfold Marshal.putCount Marshal.put at h2
  obtain ⟨wr, hput, hs2⟩ := onPart_eq_ok.1 h2
  dsimp only at hput hs2
  -- the id is written all the same where the node is not entered yet
  have h1 : Marshal.putCount env (s.nodes.assigned + 1) s = .ok () { s with writer := wr } := by
    unfold Marshal.putCount Marshal.put
    exact onPart_eq_ok.2 ⟨wr, hput, rfl⟩
  obtain ⟨g1, -⟩ := (Marshal.composes_grows _).count _ hs h1
  have hready : Marshal.Ready s2 := by
    rw [← hs2]
    exact ⟨g1.ready.bufferSize, hs.nodes.next hnew hlt⟩
  have g2 := Marshal.grown_placePointee hw.grows hready e2
  obtain ⟨bytes1, hw1⟩ := g1.wrote
  obtain ⟨bytes2, hw2⟩ := g2.wrote
  have hid : s2.nodes.idOf? c = some (s.nodes.assigned + 1) := by
    rw [← hs2]
    exact (NodeTable.idOf?_next _ _ _).trans (if_pos rfl)
  have hw12 : Writer.Wrote s.writer t.writer (bytes1 ++ bytes2) := by
    refine hw1.trans ?_
    rw [← hs2] at hw2
    exact hw2
  obtain rfl := hwrote.unique hw12
  rw [List.append_assoc] at hr
  have hN1 : N.Covers s.nodes := hN.mono fun d id hd => g2.nodes d id (by
    rw [← hs2]
    exact NodeTable.idOf?_next_of_known hnew hd)
  obtain ⟨n, u1, G1, e1, r1, f1, c1, rfl⟩ := (locked_count side previous
    hlt).reads hs h1 hN1 List.prefix_rfl hw1 hu hr
  have f2 : Follows env T N G1 s2 (u1.make (s.nodes.assigned + 1) pointee) := by
    rw [← hs2]
    exact f1.make hnew hcell pointee
  have hsize : N.base + s.nodes.assigned = u1.heap.allocations := f1.size.symm
  have hc : N.base + (s.nodes.assigned + 1) = u1.heap.allocations + 1 := by
    rw [← hsize]
    rfl
  obtain ⟨u3, G3, e3, r3, f3, c3⟩ := placePointee_reads side previous
    hw hready e2 hN (hm.mono c1.frames) hT hid hc hw2 f2 r1 u1 rfl rfl rfl rfl
  have hid' := hN c _ (g2.nodes c _ hid)
  refine ⟨.pointer (some u1.heap.allocations), u3, G3, ?_, r3, f3, c1.trans_none c3, ?_, ?_⟩
  · unfold Unmarshal.getPointer
    rw [if_neg hk]
    refine bind_eq_ok.2 ⟨_, u1, e1, ?_⟩
    rw [if_neg (Nat.succ_ne_zero _)]
    refine bind_eq_ok.2 ⟨u1, u1, rfl, ?_⟩
    rw [f1.cellOf?_next]
    exact bind_eq_ok.2 ⟨_, _, Unmarshal.allocate_eq_ok.2 ⟨f1.checkRoom hcell, rfl, rfl⟩,
      bind_eq_ok.2 ⟨(), _, Unmarshal.register_eq_ok.2 ⟨_, f1.register_eq_ok, rfl⟩,
        bind_eq_ok.2 ⟨(), _, Unmarshal.sight_eq_ok.2 rfl, bind_eq_ok.2 ⟨(), u3, e3, rfl⟩⟩⟩⟩
  · rw [← N.cell_of_idOf? hid' (Nat.succ_pos _) hc]
    rfl
  · rintro _ ⟨⟩
    exact ⟨_, hid'⟩

/-- A pointer is read where it was written, with its pointee in its place. -/
theorem locked_putPointer (hw : LockedWalks env T N P walk walk') {kind : PointerKind}
    (hk : kind ≠ .ref) {pointee : Nat} {v : Value} (hm : Meets G F x y)
    (hT : ∀ c, v = .pointer (some c) → T.cell c ∧ PointeeHolds env (if x.embedded then T.value else P) pointee c F) :
    Locked env T N (fun _ => False) G (Marshal.putPointer env walk kind pointee v x)
      (Unmarshal.getPointer (env.receiver side previous) walk' kind pointee y)
      fun _ w => N.Copy v w where
  grows := Marshal.grows_putPointer hw.grows _ _ _ _
  reads {s a t} hs e hN G' u bytes tail hG hwrote hu hr := by
    match v with
    | .pointer none =>
      have e' : Marshal.putCount env 0 s = .ok a t := by
        unfold Marshal.putPointer at e
        cases kind
        · exact absurd rfl hk
        · exact e
        · exact e
      obtain ⟨n, u1, G1, e1, r1, f1, c1, rfl⟩ := (locked_count side previous
        (by decide)).reads hs e' hN hG hwrote hu hr
      refine ⟨.pointer none, u1, G1, ?_, r1, f1, c1, .null⟩
      unfold Unmarshal.getPointer
      rw [if_neg hk]
      exact bind_eq_ok.2 ⟨0, u1, e1, rfl⟩
    | .pointer (some c) =>
      obtain ⟨hcell, hpointee⟩ := hT c rfl
      rw [Marshal.putPointer_eq hk] at e
      obtain ⟨found, s1, h1, e1⟩ := bind_eq_ok.1 e
      obtain ⟨nodes, hsight, rfl⟩ := Marshal.sight_eq_ok.1 h1
      cases hid : s.nodes.idOf? c with
      | some id =>
        rw [NodeTable.sight_of_known hid] at hsight
        cases hsight
        have hlt := Nat.lt_of_le_of_lt (hs.nodes.idOf?_range hid).2 hs.nodes.bound
        exact getPointer_again side previous hk hs hid hlt e1 hN hwrote hu hr
      | none =>
        obtain ⟨rfl, hlt, rfl⟩ := NodeTable.sight_eq_ok_of_new hid hsight
        exact getPointer_first side previous hw hk hs hid hlt hcell e1 hN (hm.mono hG) hpointee hwrote hu hr
    | .void | .boolean _ | .byte _ | .char _ | .small _ | .usmall _ | .short _ | .ushort _
    | .long _ | .ulong _ | .hyper _ | .uhyper _ | .float _ | .double _ | .enum _ | .errorStatus _
    | .struct _ | .array _ | .union _ _ | .context _ | .pipe _ => exact absurd e throw_ne_ok

/-! ### Pointees that were put off -/

/-- Whether `k` levels of pointees can be read: each level takes bytes. -/
def Deep {α : Type} (k : Nat) (ds : List α) (u : Unmarshal.State) : Prop :=
  ds = [] ∨ u.reader.rest.length < k

/-- The pointees put off in writing at most `depth` levels, and those put off for them in
reading. -/
def LockedDeferred (env : Marshal.Env) (T : Terms) (N : Naming) (env' : Unmarshal.Env)
    (walk : Marshal.Walk) (walk' : Unmarshal.Walk) (depth : Nat) : Prop :=
  ∀ {k ds ds' s t G u bytes tail}, Marshal.Ready s → s.deferred = [] →
    Marshal.putDeferred env walk depth ds s = .ok () t → N.Covers t.nodes →
    List.Forall₂ (Paired env T N s.nodes G) ds ds' → Deep k ds u →
    Writer.Wrote s.writer t.writer bytes → Follows env T N G s u →
    u.reader.rest = bytes ++ tail →
    ∃ u' G', Unmarshal.getDeferred env' walk' k ds' u = .ok () u' ∧ u'.reader.rest = tail ∧
      Follows env T N G' t u' ∧ t.deferred = [] ∧
      Course env N (fun _ => False) (fun c => ∃ d ∈ ds', d.cell = c) G G' u u'

theorem lockedDeferred_nil {depth : Nat} {k : Nat} {ds' : List (Deferred ScopeId)}
    {env' : Unmarshal.Env}
    (hd : s.deferred = []) (e : Marshal.putDeferred env walk depth [] s = .ok () t)
    (hds : List.Forall₂ (Paired env T N s.nodes G) [] ds')
    (hwrote : Writer.Wrote s.writer t.writer bytes) (hu : Follows env T N G s u)
    (hr : u.reader.rest = bytes ++ tail) :
    ∃ u' G', Unmarshal.getDeferred env' walk' k ds' u = .ok () u' ∧ u'.reader.rest = tail ∧
      Follows env T N G' t u' ∧ t.deferred = [] ∧
      Course env N (fun _ => False) (fun c => ∃ d ∈ ds', d.cell = c) G G' u u' := by
  obtain rfl := List.forall₂_nil_left_iff.1 hds
  obtain rfl : s = t := by
    cases depth <;> exact (pure_eq_ok.1 e).2
  obtain rfl := hwrote.unique .refl
  refine ⟨u, G, ?_, hr, hu, hd, Course.refl.congr (by simp)⟩
  cases k <;> rfl

/-- Pointees are read as they were written, each with those that it puts off. -/
theorem fillAll_reads (hw : LockedWalks env T N T.value walk walk') {depth k : Nat}
    (ih : LockedDeferred env T N (env.receiver side previous) walk walk' depth)
    {ds : List (Deferred Scope)} {ds' : List (Deferred ScopeId)} (hs : Marshal.Ready s)
    (hd : s.deferred = []) (e : Marshal.fillAll env walk depth ds s = .ok () t)
    (hN : N.Covers t.nodes) (hds : List.Forall₂ (Paired env T N s.nodes G) ds ds')
    (hk : u.reader.rest.length ≤ k) (hwrote : Writer.Wrote s.writer t.writer bytes)
    (hu : Follows env T N G s u) (hr : u.reader.rest = bytes ++ tail) :
    ∃ u' G', Unmarshal.fillAll (env.receiver side previous) walk' k ds' u = .ok () u' ∧
      u'.reader.rest = tail ∧ Follows env T N G' t u' ∧ t.deferred = [] ∧
      Course env N (fun _ => False) (fun c => ∃ d ∈ ds', d.cell = c) G G' u u' := by
  induction ds generalizing ds' s u G bytes with
  | nil =>
    obtain rfl := List.forall₂_nil_left_iff.1 hds
    obtain rfl : s = t := (pure_eq_ok.1 e).2
    obtain rfl := hwrote.unique .refl
    exact ⟨u, G, rfl, hr, hu, hd, Course.refl.congr (by simp)⟩
  | cons d ds ihds =>
    obtain ⟨d', es, hd1, hes, rfl⟩ := List.forall₂_cons_left_iff.1 hds
    obtain ⟨_, s3, h3, e3⟩ := bind_eq_ok.1 e
    obtain ⟨_, s1, h1, e1⟩ := bind_eq_ok.1 h3
    obtain ⟨ds1, s2, h2, e2⟩ := bind_eq_ok.1 e1
    obtain ⟨rfl, rfl⟩ := Marshal.takeDeferred_eq_ok.1 h2
    obtain ⟨g1, p1⟩ := Marshal.grows_putPointee hw.grows _ _ _ hs h1
    have g2 := Marshal.grown_takeDeferred g1.ready h2
    have g3 := Marshal.grown_putDeferred hw.grows _ g2.ready e2
    have g4 := Marshal.grown_fillAll hw.grows
      (fun hs e => Marshal.grown_putDeferred hw.grows _ hs e) g3.ready e3
    obtain ⟨bytes1, hw1⟩ := g1.wrote
    obtain ⟨bytes3, hw3⟩ := g3.wrote
    obtain ⟨bytes4, hw4⟩ := g4.wrote
    obtain rfl := hwrote.unique (hw1.trans (hw3.trans hw4))
    simp only [List.append_assoc] at hr
    have hN3 : N.Covers s3.nodes := hN.mono g4.nodes
    have hN1 : N.Covers s1.nodes := hN3.mono g3.nodes
    -- the pointee itself
    obtain ⟨id, hid, hcell⟩ := hd1.cell
    obtain ⟨F, hF, hscope, hT⟩ := hd1.frame
    obtain ⟨u1, G1, e5, r5, f5, c5⟩ := getPointee_reads side previous
      (y := { scope := d'.scope, embedded := false }) hw hs h1 hN1 ⟨hF, hscope, rfl⟩ hT hid hcell
      hw1 hu hr
    -- what it put off
    have hdeep : Deep k s1.deferred.reverse { u1 with deferred := [] } := by
      rcases p1 with hp | hp
      · exact .inl (by rw [hp, hd]; rfl)
      · right
        have hlen := congrArg List.length hr
        simp only [← r5, List.length_append] at hlen
        rw [hw1.position] at hp
        dsimp only
        omega
    obtain ⟨u3, G3, e6, r6, f6, hd3, c6⟩ := ih g2.ready rfl e2 hN3
      (List.rel_reverse f5.deferred) hdeep hw3 f5.take r5
    -- the others
    have hk3 : u3.reader.rest.length ≤ k := by
      have hlen := congrArg List.length hr
      simp only [← r6, List.length_append] at hlen
      omega
    have hes3 := hes.imp fun _ _ h => h.mono
      (fun c id e => g3.nodes c id (g1.nodes c id e)) (c5.frames.trans c6.frames)
    obtain ⟨u4, G4, e7, r7, f7, hd4, c7⟩ := ihds g3.ready hd3 e3 hes3 hk3 hw4 f6 r6
    have hu0 : u.deferred = [] := by
      have := hu.deferred
      rwa [hd, List.forall₂_nil_left_iff] at this
    have hu3 : u3.deferred = [] := by
      have := f6.deferred
      rwa [hd3, List.forall₂_nil_left_iff] at this
    have c56 : Course env N (fun _ => False) (· = d'.cell) G G3 u u3 :=
      ⟨c5.frames.trans c6.frames, fun i hi hn =>
        (c6.scopes i (Nat.lt_of_lt_of_le hi c5.frames.length_le) hn).trans (c5.scopes i hi hn),
        c5.step.drain hu0 c6.step hu3⟩
    refine ⟨u4, G4, ?_, r7, f7, hd4, (c56.trans c7).congr ?_⟩
    · refine bind_eq_ok.2 ⟨(), u3, bind_eq_ok.2 ⟨(), u1, ?_, ?_⟩, e7⟩
      · rw [hd1.pointee]
        exact e5
      · exact bind_eq_ok.2 ⟨_, _, Unmarshal.takeDeferred_eq_ok.2 ⟨rfl, rfl⟩, e6⟩
    · rintro c ⟨e, he, rfl⟩
      rcases List.mem_cons.1 he with rfl | he
      · exact .inl rfl
      · exact .inr ⟨e, he, rfl⟩

theorem lockedDeferred (hw : LockedWalks env T N T.value walk walk') (depth : Nat) :
    LockedDeferred env T N (env.receiver side previous) walk walk' depth := by
  induction depth with
  | zero =>
    intro k ds ds' s t G u bytes tail hs hd e hN hds _ hwrote hu hr
    cases ds with
    | nil => exact lockedDeferred_nil hd e hds hwrote hu hr
    | cons d ds => exact absurd e throw_ne_ok
  | succ depth ih =>
    intro k ds ds' s t G u bytes tail hs hd e hN hds hk hwrote hu hr
    cases hds with
    | nil => exact lockedDeferred_nil hd e .nil hwrote hu hr
    | @cons d d' ds ds' hd1 hds =>
      cases k with
      | zero => exact absurd hk (by simp [Deep])
      | succ k =>
        have hlen : u.reader.rest.length ≤ k := Nat.le_of_lt_succ (hk.resolve_left (by simp))
        exact fillAll_reads side previous hw ih hs hd e hN (.cons hd1 hds) hlen hwrote hu hr

end

end Lockstep

end Ndr
