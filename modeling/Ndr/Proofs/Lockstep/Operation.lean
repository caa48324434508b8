import Ndr.Machine
import Ndr.Proofs.Lockstep.Struct

/-!
Operations in lock-step: the parameters of a list, each with its pointees, and what a machine reads
from the message that another has written.
-/

namespace Ndr

/-! ### Machines that understand each other -/

/-- A machine that reads what another writes: of the same interface, representation and limits. -/
structure Machine.Matches (m m' : Machine) : Prop where
  interface : m'.interface = m.interface
  representation : m'.representation = m.representation
  config : m'.config = m.config

/-- What stays the same while a machine writes. -/
abbrev Machine.writing (m : Machine) (world : Surroundings) : Marshal.Env := { m, world with }

/-- What an operation left of a message: the rest of the chunk that it gave back last, and all that
is still to come. -/
def Source.unread (s : Source) : List UInt8 := s.released.headD [] ++ s.bytes

namespace Lockstep

/-! ### The scope of the parameters -/

theorem fitsInt64_correlationOf {heap : Heap} {v : Value} {n : Int}
    (h : correlationOf heap v = some n) : FitsInt64 n := by
  unfold correlationOf at h
  split at h
  · obtain ⟨w, -, hw⟩ := Option.bind_eq_some_iff.1 h
    exact Value.fitsInt64_toInt? hw
  · exact Value.fitsInt64_toInt? h

/-- The frame of the parameters: those of the list are read, and bounds may name those that are no
pointers. -/
def Frame.ofParameters (heap : Heap) (list : List Parameter) (params : List Value) : Frame where
  scope := (params.map (correlationOf heap)).toArray
  readable k := (∃ p ∈ list, p.index = k) ∧ ∀ c, params[k]? ≠ some (.pointer (some c))
  fits k v h := by
    rw [Scope.get?, List.getElem?_toArray, List.getElem?_map, Option.join_eq_some_iff,
      Option.map_eq_some_iff] at h
    obtain ⟨w, -, hw⟩ := h
    exact fitsInt64_correlationOf hw

theorem get?_ofParameters {heap : Heap} {list : List Parameter} {params : List Value} {k : Nat}
    {v : Value} (h : params[k]? = some v) :
    (Frame.ofParameters heap list params).scope.get? k = correlationOf heap v := by
  simp [Frame.ofParameters, Scope.get?, h]

/-- No parameter of the list is known before it is read. -/
theorem get?_parameterScope {heap : Heap} {list : List Parameter} {params : List Value} {k : Nat}
    (h : ∃ p ∈ list, p.index = k) :
    (Unmarshal.parameterScope heap list params).get? k = none := by
  have herased : ∀ (ps : List Parameter) (s : Scope),
      (s.get? k = none ∨ ∃ p ∈ ps, p.index = k) →
      Scope.get? (ps.foldl (fun s p => s.setIfInBounds p.index none) s) k = none := by
    intro ps
    induction ps with
    | nil =>
      rintro s (hs | ⟨p, hp, -⟩)
      · exact hs
      · exact absurd hp List.not_mem_nil
    | cons p ps ih =>
      intro s hs
      refine ih _ ?_
      by_cases hpk : p.index = k
      · left
        show Scope.get? (s.setIfInBounds p.index none) k = none
        rw [Scope.get?, hpk, Array.getElem?_setIfInBounds_self]
        split <;> rfl
      · rcases hs with hs | ⟨q, hq, hqk⟩
        · left
          show Scope.get? (s.setIfInBounds p.index none) k = none
          rw [Scope.get?, Array.getElem?_setIfInBounds_ne hpk]
          exact hs
        · rcases List.mem_cons.1 hq with rfl | hq
          · exact absurd hqk hpk
          · exact .inr ⟨q, hq, hqk⟩
  exact herased list _ (.inr h)

/-- Copies that are no pointers give their scope the same integer. -/
theorem Naming.Copy.correlationOf {N : Naming} {v w : Value} {heap heap' : Heap}
    (h : N.Copy v w) (hv : ∀ c, v ≠ .pointer (some c)) :
    correlationOf heap' w = correlationOf heap v := by
  have hw : ∀ c, w ≠ .pointer (some c) := by
    rintro c rfl
    have he := h.eq
    cases v with
    | pointer target =>
      cases target with
      | none => simp [Value.rename] at he
      | some d => exact hv d rfl
    | _ => simp [Value.rename] at he
  have hplain : ∀ {heap : Heap} {v : Value}, (∀ c, v ≠ .pointer (some c)) →
      Ndr.correlationOf heap v = v.toInt? := by
    intro heap v hv
    unfold Ndr.correlationOf
    split
    · exact absurd rfl (hv _)
    · rfl
  rw [hplain hw, hplain hv, h.toInt?]

/-! ### Parameters -/

section

variable {env : Marshal.Env} {T : Terms} {N : Naming} {G : List Frame} {F : Frame}
  {walk : Marshal.Walk} {walk' : Unmarshal.Walk} {x : Site Scope} {y : Site ScopeId}
  {s t : Marshal.State} {u : Unmarshal.State} {bytes tail : List UInt8} (side : Side)
  (previous : NodeTable)

theorem Follows.deferred_nil (h : Follows env T N G s u) (hs : s.deferred = []) :
    u.deferred = [] := by
  have := h.deferred
  rwa [hs, List.forall₂_nil_left_iff] at this

/-- A parameter is read with all that it puts off. -/
theorem parameter_reads (hw : LockedWalks env T N T.value walk walk') {d : Descriptor} {v : Value}
    (hT : T.value d v F) (hm : Meets G F x y) {a : Unit} (hs : Marshal.Ready s)
    (hd : s.deferred = [])
    (e : (do walk d v x; Marshal.flush env walk : Marshalling Unit) s = .ok a t)
    (hN : N.Covers t.nodes) (hwrote : Writer.Wrote s.writer t.writer bytes)
    (hu : Follows env T N G s u) (hr : u.reader.rest = bytes ++ tail) :
    ∃ w u₁ u' G', walk' d y u = .ok w u₁ ∧
      Unmarshal.flush (env.receiver side previous) walk' u₁ = .ok () u' ∧
      u'.reader.rest = tail ∧ Follows env T N G' t u' ∧ t.deferred = [] ∧
      Course env N (fun _ => False) Unmarshal.None G G' u u' ∧ N.Copy v w := by
  obtain ⟨_, s1, h1, e1⟩ := bind_eq_ok.1 e
  obtain ⟨ds, s2, h2, e2⟩ := bind_eq_ok.1 e1
  obtain ⟨rfl, rfl⟩ := Marshal.takeDeferred_eq_ok.1 h2
  obtain ⟨g1, p1⟩ := hw.grows d v x hs h1
  have g2 := Marshal.grown_takeDeferred g1.ready h2
  have g3 := Marshal.grown_putDeferred hw.grows _ g2.ready e2
  obtain ⟨bytes1, hw1⟩ := g1.wrote
  obtain ⟨bytes3, hw3⟩ := g3.wrote
  obtain rfl := hwrote.unique (hw1.trans hw3)
  rw [List.append_assoc] at hr
  obtain ⟨w, u1, G1, e5, r5, f5, c5, hcopy⟩ :=
    (hw.reads hT hm).reads hs h1 (hN.mono g3.nodes) List.prefix_rfl hw1 hu hr
  have hdeep : Deep (u1.reader.rest.length + 1) s1.deferred.reverse { u1 with deferred := [] } :=
    .inr (Nat.lt_succ_self _)
  obtain ⟨u3, G3, e6, r6, f6, hd3, c6⟩ := lockedDeferred side previous hw _
    g2.ready rfl e2 hN (List.rel_reverse f5.deferred) hdeep hw3 f5.take r5
  refine ⟨w, u1, u3, G3, e5, ?_, r6, f6, hd3, ⟨c5.frames.trans c6.frames, fun i hi hn =>
    (c6.scopes i (Nat.lt_of_lt_of_le hi c5.frames.length_le) hn).trans (c5.scopes i hi hn),
    c5.step.drain (hu.deferred_nil hd) c6.step (f6.deferred_nil hd3)⟩, hcopy⟩
  exact bind_eq_ok.2 ⟨u1, u1, rfl, bind_eq_ok.2 ⟨_, _,
    Unmarshal.takeDeferred_eq_ok.2 ⟨rfl, rfl⟩, e6⟩⟩

/-- One parameter of an operation. -/
abbrev writeParameter (env : Marshal.Env) (walk : Marshal.Walk) (params : List Value)
    (scope : Scope) (p : Parameter) : Marshalling Unit := do
  match params[p.index]? with
  | none => throw (.parameterIndex p.index params.length)
  | some v =>
    walk p.descriptor v { scope, embedded := false }
    Marshal.flush env walk

theorem grown_writeParameter (hw : Marshal.GrowsAll walk) {params : List Value} {scope : Scope}
    {p : Parameter} {a : Unit} (hs : Marshal.Ready s)
    (e : writeParameter env walk params scope p s = .ok a t) : Marshal.Grown s t := by
  unfold writeParameter at e
  cases hv : params[p.index]? with
  | none =>
    simp only [hv] at e
    exact absurd e throw_ne_ok
  | some v =>
    simp only [hv] at e
    obtain ⟨_, s1, h1, e1⟩ := bind_eq_ok.1 e
    obtain ⟨g, -⟩ := hw _ _ _ hs h1
    exact g.trans (Marshal.grown_flush hw g.ready e1)

theorem grown_writeParameters (hw : Marshal.GrowsAll walk) {params : List Value} {scope : Scope}
    {list : List Parameter} {a : Unit} (hs : Marshal.Ready s)
    (e : list.forM (writeParameter env walk params scope) s = .ok a t) : Marshal.Grown s t := by
  induction list generalizing s with
  | nil => exact (pure_eq_ok.1 e).2 ▸ .refl hs
  | cons p list ih =>
    obtain ⟨_, s1, h1, e1⟩ := bind_eq_ok.1 e
    have g1 := grown_writeParameter hw hs h1
    exact g1.trans (ih g1.ready e1)

/-- What is asked of a parameter: it is read by the walk, and its value is as `T` asks. -/
structure ParameterHolds (T : Terms) (F : Frame) (d : Descriptor) (v : Value) : Prop where
  notPipe : ∀ props element, d.form ≠ .pipe props element
  notContext : ∀ direction, d.form ≠ .context direction
  value : T.value d v F

theorem getParameter_eq_walk {env' : Unmarshal.Env} {d : Descriptor} {current : Value}
    (hp : ∀ props element, d.form ≠ .pipe props element)
    (hc : ∀ direction, d.form ≠ .context direction) :
    Unmarshal.getParameter env' d current y = Unmarshal.walk env' env'.config.maxNesting d y := by
  unfold Unmarshal.getParameter
  split
  · rename_i h
    exact absurd h (hp _ _)
  · rename_i h
    exact absurd h (hc _)
  · rfl

/-- A parameter that was read, and the one that was written for it. -/
def Received (N : Naming) (params : List Value) (p : Parameter) (w : Nat × Value) : Prop :=
  w.1 = p.index ∧ ∃ v, params[p.index]? = some v ∧ N.Copy v w.2

/-- The parameters of a list are read where they were written, and entered into their scope. -/
theorem parameters_reads {i : ScopeId} {params params' : List Value} {list : List Parameter}
    (hw : LockedWalks env T N T.value (Marshal.walk env env.config.maxNesting)
      (Unmarshal.walk (env.receiver side previous) env.config.maxNesting))
    (hlen : params'.length = params.length)
    (hscope : ∀ k v, params[k]? = some v → F.scope.get? k = correlationOf env.heap v)
    (hplain : ∀ k c, F.readable k → params[k]? ≠ some (.pointer (some c)))
    (hT : ∀ p ∈ list, ∀ v, params[p.index]? = some v → ParameterHolds T F p.descriptor v) (hF : G[i]? = some F) {a : Unit}
    (hs : Marshal.Ready s) (hd : s.deferred = [])
    (e : list.forM (writeParameter env (Marshal.walk env env.config.maxNesting) params F.scope) s
      = .ok a t)
    (hN : N.Covers t.nodes) (hwrote : Writer.Wrote s.writer t.writer bytes)
    (hu : Follows env T N G s u) (hr : u.reader.rest = bytes ++ tail) :
    ∃ values u' G', list.mapM (Unmarshal.readParameter (env.receiver side previous) params' i) u
        = .ok values u' ∧
      u'.reader.rest = tail ∧ Follows env T N G' t u' ∧ t.deferred = [] ∧
      Course env N (· = i) Unmarshal.None G G' u u' ∧
      List.Forall₂ (Received N params) list values ∧
      ∀ k, F.readable k → (u.scopeAt i).get? k = F.scope.get? k ∨ (∃ p ∈ list, p.index = k) →
        (u'.scopeAt i).get? k = F.scope.get? k := by
  induction list generalizing s u G bytes with
  | nil =>
    obtain ⟨-, rfl⟩ := pure_eq_ok.1 e
    obtain rfl := hwrote.unique .refl
    refine ⟨[], u, G, ?_, hr, hu, hd, .refl, .nil, ?_⟩
    · rw [List.mapM_nil]
      rfl
    · rintro k - (hk | ⟨p, hp, -⟩)
      · exact hk
      · exact absurd hp List.not_mem_nil
  | cons p list ih =>
    obtain ⟨_, s1, h1, e1⟩ := bind_eq_ok.1 e
    cases hv : params[p.index]? with
    | none =>
      simp only [writeParameter, hv] at h1
      exact absurd h1 throw_ne_ok
    | some v =>
      have hp := hT p List.mem_cons_self v hv
      have g1 := grown_writeParameter hw.grows hs h1
      have g2 := grown_writeParameters hw.grows g1.ready e1
      simp only [writeParameter, hv] at h1
      obtain ⟨bytes1, hw1⟩ := g1.wrote
      obtain ⟨bytes2, hw2⟩ := g2.wrote
      obtain rfl := hwrote.unique (hw1.trans hw2)
      rw [List.append_assoc] at hr
      -- the parameter itself
      obtain ⟨w, u1, u2, G2, e3, e4, r4, f4, hd4, c4, hcopy⟩ := parameter_reads side previous hw
        hp.value (y := { scope := i, embedded := false }) ⟨hF, rfl, rfl⟩ hs hd h1
        (hN.mono g2.nodes) hw1 hu hr
      have hF2 := frame_mono c4.frames hF
      have hold := scopeAt_of_course c4 hF
      have hindex : F.readable p.index → correlationOf u2.heap w = F.scope.get? p.index := by
        intro hk
        rw [hscope _ v hv]
        exact hcopy.correlationOf fun c hc => hplain _ c hk (hv.trans (congrArg some hc))
      have f5 := f4.setField hF2 fun hk n hn => (hindex hk).symm.trans hn
      -- the others
      obtain ⟨values, u6, G6, e6, r6, f6, hd6, c6, hvalues, hknown⟩ := ih
        (fun q hq => hT q (List.mem_cons_of_mem _ hq)) hF2 g1.ready hd4 e1 hw2 f5 r4
      have hlt : p.index < params'.length := by
        rw [hlen]
        exact (List.getElem?_eq_some_iff.1 hv).1
      refine ⟨(p.index, w) :: values, u6, G6, ?_, r6, f6, hd6, ?_, .cons ⟨rfl, v, hv, hcopy⟩ hvalues,
        fun k hk hor => hknown k hk ?_⟩
      · rw [List.mapM_cons]
        refine bind_eq_ok.2 ⟨(p.index, w), _, ?_, bind_eq_ok.2 ⟨values, u6, e6, rfl⟩⟩
        simp only [Unmarshal.readParameter, List.getElem?_eq_getElem hlt]
        rw [getParameter_eq_walk hp.notPipe hp.notContext]
        exact bind_eq_ok.2 ⟨w, u1, e3, bind_eq_ok.2 ⟨(), u2, e4, bind_eq_ok.2 ⟨u2, u2, rfl,
          bind_eq_ok.2 ⟨(), _, Unmarshal.setField_eq_ok.2 rfl, rfl⟩⟩⟩⟩
      · exact ((c4.mono fun _ => False.elim).trans_none course_setField).trans_none c6
      · by_cases hkp : k = p.index
        · left
          exact f4.get?_setField hF2 (fun h => hindex h) hk fun h => absurd hkp h
        · rcases hor with hor | ⟨q, hq, hqk⟩
          · left
            refine f4.get?_setField hF2 (fun h => hindex h) hk fun _ => ?_
            rw [hold, hor]
          · rcases List.mem_cons.1 hq with rfl | hq
            · exact absurd hqk.symm hkp
            · exact .inr ⟨q, hq, hqk⟩

/-- All parameters of an operation are read where they were written. -/
theorem getParameters_reads {params params' : List Value} {list : List Parameter} {offset : Nat}
    (hw : LockedWalks env T N T.value (Marshal.walk env env.config.maxNesting)
      (Unmarshal.walk (env.receiver side previous) env.config.maxNesting))
    (hlist : env.vector.parameters offset = .ok list) (hlen : params'.length = params.length)
    (hT : ∀ p ∈ list, ∀ v, params[p.index]? = some v →
      ParameterHolds T (.ofParameters env.heap list params) p.descriptor v)
    (hs : Marshal.Ready s) (hd : s.deferred = [])
    (e : Marshal.putParameters env offset params s = .ok () t) (hN : N.Covers t.nodes)
    (hwrote : Writer.Wrote s.writer t.writer bytes) (hu : Follows env T N [] s u)
    (hr : u.reader.rest = bytes ++ tail) :
    ∃ values u' G', Unmarshal.getParameters (env.receiver side previous) offset params' u
        = .ok values u' ∧
      u'.reader.rest = tail ∧ Follows env T N G' t u' ∧ t.deferred = [] ∧
      Unmarshal.Step (Copied env N) Unmarshal.None u u' ∧
      List.Forall₂ (Received N params) list values := by
  unfold Marshal.putParameters at e
  obtain ⟨list', s1, h1, e1⟩ := bind_eq_ok.1 e
  obtain ⟨hlist', rfl⟩ := lift_eq_ok.1 h1
  obtain rfl := Except.ok.inj (hlist.symm.trans hlist')
  have hscopes : u.scopes.size = 0 := hu.scopes
  have f1 : Follows env T N [.ofParameters env.heap list params] s
      { u with scopes := u.scopes.push (Unmarshal.parameterScope u.heap list params') } :=
    hu.openScope fun k v hk hv => by
      rw [get?_parameterScope hk.1] at hv
      exact absurd hv (by simp)
  obtain ⟨values, u2, G2, e2, r2, f2, hd2, c2, hvalues, hknown⟩ := parameters_reads side previous
    (i := 0) hw hlen (fun k v h => get?_ofParameters h) (fun k c hk => hk.2 c) hT rfl hs hd e1 hN
    hwrote f1 hr
  obtain ⟨u3, e3, r3, f3, c3⟩ := verifyLate_reads (· = 0) f2 (frame_mono c2.frames rfl)
    fun k v hk hv => (hknown k hk (.inr hk.1)).trans hv
  refine ⟨values, u3, G2, ?_, by rw [r3, r2], f3, hd2, ?_, hvalues⟩
  · refine bind_eq_ok.2 ⟨list, u, lift_eq_ok.2 ⟨hlist, rfl⟩, bind_eq_ok.2 ⟨u, u, rfl,
      bind_eq_ok.2 ⟨0, _, Unmarshal.openScope_eq_ok.2 ⟨hscopes.symm, rfl⟩,
        bind_eq_ok.2 ⟨values, u2, e2, bind_eq_ok.2 ⟨(), u3, e3, rfl⟩⟩⟩⟩⟩
  · have h1 : Unmarshal.Step (Copied env N) Unmarshal.None u { u with
        scopes := u.scopes.push (Unmarshal.parameterScope u.heap list params') } := .of_eq rfl rfl
    exact (h1.trans_none c2.step).trans_none c3.step

end

/-! ### Machines -/

/-- Different nodes stand for different cells. -/
theorem Naming.cell_injective {N : Naming} (h : N.table.Numbered) {c d : CellId} (hc : N.Knows c)
    (hd : N.Knows d) (e : N.cell c = N.cell d) : c = d := by
  obtain ⟨i, hi⟩ := hc
  obtain ⟨j, hj⟩ := hd
  have hi1 := (h.idOf?_range hi).1
  have hj1 := (h.idOf?_range hj).1
  simp only [cell, hi, hj, Option.getD_some, Nat.add_left_cancel_iff] at e
  obtain rfl : i = j := by omega
  exact h.injective hi hj

/-- What a machine has read from a message of these parameters, in place of its own: copies of
those in the list, and a cell for every node. -/
structure Arrived (T : Terms) (N : Naming) (heap : Heap) (list : List Parameter)
    (params params' : List Value) (tail : List UInt8) (out : Outcome Source (List Value)) :
    Prop where
  params : ∃ ws, out.result = .ok ws ∧ ws.length = params'.length ∧
    (∀ p ∈ list, ∃ v w, params[p.index]? = some v ∧ ws[p.index]? = some w ∧ N.Copy v w) ∧
    ∀ i, (∀ p ∈ list, p.index ≠ i) → ws[i]? = params'[i]?
  unread : out.transport.unread = tail
  size : out.surroundings.heap.cells.size = N.base + N.table.assigned
  reached : ∀ c, N.Knows c → T.cell c
  cells : ∀ c, N.Knows c → ∃ v w, heap.load? c = some v ∧
    out.surroundings.heap.load? (N.cell c) = some w ∧ N.Copy v w

/-- Before anything is written and read. -/
theorem follows_start {env : Marshal.Env} {T : Terms} {N : Naming} {s : Marshal.State}
    {world : Surroundings} {source : Source} (hw : s.writer.position = 0) (hn : s.nodes = {})
    (hd : s.deferred = []) (hbase : N.base = world.heap.cells.size)
    (hlimit : ∀ c, T.cell c → world.heap.limit = none) :
    Follows env T N [] s { world with reader := { source } } where
  position := hw.symm
  limit := hlimit
  size := by
    rw [hn, hbase]
    rfl
  live c h1 h2 := absurd h2 (Nat.not_lt.2 (hbase ▸ h1))
  nodes id c := by
    rw [hn]
    refine ⟨fun h => absurd h (by simp [NodeTable.cellOf?, Pairing.right?_empty]), fun h => ?_⟩
    exact absurd h.2.1 (Nat.not_le.2 h.1)
  consistent := NodeTable.consistent_empty
  reached c id h := by
    rw [hn] at h
    exact absurd h (by simp [NodeTable.idOf?, Pairing.left?_empty])
  scopes := rfl
  partly i F h := by simp at h
  late i c hc := by simp [Unmarshal.State.due] at hc
  deferred := hd ▸ .nil
  deleted := rfl

/-- What was written by an operation that succeeds. -/
theorem marshal_eq_ok {m : Machine} {world : Surroundings} {offset : Nat} {params : List Value}
    {sink : Sink} {n : Nat} (e : (m.marshal world offset params sink).result = .ok n) :
    ∃ t, Marshal.putParameters (m.writing world) offset params
        { world with writer := .new sink m.config } = .ok () t ∧
      n = t.writer.position ∧
      (m.marshal world offset params sink).transport.message = t.writer.output := by
  unfold Machine.marshal at e ⊢
  dsimp only at e ⊢
  split at e
  · exact absurd e (by simp)
  · rename_i t hput
    refine ⟨t, hput, ?_⟩
    split at e
    · rename_i w hfinish
      obtain ⟨rfl, hmessage⟩ := Writer.finish_eq_ok hfinish
      exact ⟨(Except.ok.inj e).symm, hmessage⟩
    · exact absurd e (by simp)

/-- The values that were read of a list are put in place, and all others stay. -/
theorem replace_reads {Q : Parameter → Value → Prop} {list : List Parameter}
    {values : List (Nat × Value)} {params' : List Value}
    (h : List.Forall₂ (fun p w => w.1 = p.index ∧ Q p w.2) list values)
    (hnodup : (list.map Parameter.index).Nodup) (hlt : ∀ p ∈ list, p.index < params'.length) :
    (∀ p ∈ list, ∃ w, (Machine.replace params' values)[p.index]? = some w ∧ Q p w) ∧
      ∀ i, (∀ p ∈ list, p.index ≠ i) → (Machine.replace params' values)[i]? = params'[i]? := by
  have hindices : values.map Prod.fst = list.map Parameter.index := by
    clear hnodup hlt
    induction h with
    | nil => rfl
    | cons h _ ih => rw [List.map_cons, List.map_cons, h.1, ih]
  refine ⟨fun p hp => ?_, fun i hi => Machine.getElem?_replace_of_notMem ?_⟩
  · obtain ⟨w, hw, hindex, hq⟩ := exists_of_forall₂ h hp
    exact ⟨w.2, Machine.getElem?_replace_of_mem (hindices ▸ hnodup) (hindex ▸ hw) (hlt p hp), hq⟩
  · rw [hindices, List.mem_map]
    rintro ⟨p, hp, hpi⟩
    exact hi p hp hpi

/-- What was read by an operation that succeeds. -/
theorem unmarshal_eq {m m' : Machine} {world world' : Surroundings} {offset : Nat}
    {params' : List Value} {source : Source} {values : List (Nat × Value)} {u : Unmarshal.State}
    (hm : m.Matches m') (e : Unmarshal.getParameters ((m.writing world).receiver m'.side m'.nodes) offset
      params' { world' with reader := { source } } = .ok values u) :
    m'.unmarshal world' offset params' source =
      { result := .ok (Machine.replace params' values)
        machine := { m'.startOperation with nodes := u.nodes }
        surroundings := Machine.commit m'.nodes u
        transport := u.reader.finish } := by
  have henv : { m'.startOperation with } = (m.writing world).receiver m'.side m'.nodes := by
    simp only [Machine.startOperation, Marshal.Env.receiver, hm.interface, hm.representation,
      hm.config]
  unfold Machine.unmarshal
  dsimp only
  rw [henv, e]
  rfl

/-- **What a machine has written, its partner reads.** The partner may hold any cells, without a
limit on their number where it is to make more, and other parameters; the message may be followed by
other bytes. -/
theorem arrived {m m' : Machine} {world world' : Surroundings} {offset : Nat}
    {params params' : List Value} {sink : Sink} {n : Nat} {list : List Parameter} {T : Terms}
    (hm : m.Matches m') (hc : m.config.check = .ok ())
    (hlist : m.interface.vector.parameters offset = .ok list)
    (hnodup : (list.map Parameter.index).Nodup) (hlen : params'.length = params.length)
    (hlimit : ∀ c, T.cell c → world'.heap.limit = none)
    (e : (m.marshal world offset params sink).result = .ok n)
    (hw : ∀ N, LockedWalks (m.writing world) T N T.value
      (Marshal.walk (m.writing world) m.config.maxNesting)
      (Unmarshal.walk ((m.writing world).receiver m'.side m'.nodes) m.config.maxNesting))
    (hT : ∀ p ∈ list, ∀ v, params[p.index]? = some v →
      ParameterHolds T (.ofParameters world.heap list params) p.descriptor v) :
    ∃ wire N, wire.length = n ∧
      (m.marshal world offset params sink).transport.message = sink.message ++ wire ∧
      N.base = world'.heap.cells.size ∧ N.table.Numbered ∧
      ∀ source tail, source.bytes = wire ++ tail →
        Arrived T N world.heap list params params' tail
          (m'.unmarshal world' offset params' source) := by
  obtain ⟨t, hput, hn, hmessage⟩ := marshal_eq_ok e
  have hs : Marshal.Ready { world with writer := .new sink m.config } :=
    ⟨((Config.check_eq_ok_iff _).1 hc).1, NodeTable.numbered_empty⟩
  obtain ⟨list', s1, h1, e1⟩ := bind_eq_ok.1 hput
  obtain ⟨-, rfl⟩ := lift_eq_ok.1 h1
  have hgrown := grown_writeParameters (Marshal.grows_walk _) hs e1
  obtain ⟨wire, hwrote⟩ := hgrown.wrote
  refine ⟨wire, ⟨world'.heap.cells.size, t.nodes⟩, ?_, ?_, rfl, hgrown.ready.nodes,
    fun source tail hsource => ?_⟩
  · rw [hn, hwrote.position]
    exact (Nat.zero_add _).symm
  · rw [hmessage, hwrote.output, Writer.output_new]
  -- the partner reads in lock-step
  have hN : Naming.Covers ⟨world'.heap.cells.size, t.nodes⟩ t.nodes := fun _ _ h => h
  obtain ⟨values, u, G, eu, hrest, hu, hd, hstep, hvalues⟩ :=
    getParameters_reads m'.side m'.nodes (hw ⟨_, t.nodes⟩) hlist hlen hT hs
      rfl hput hN hwrote (follows_start rfl rfl rfl rfl hlimit) hsource
  have hlt : ∀ p ∈ list, p.index < params'.length := by
    intro p hp
    obtain ⟨_, -, -, v, hv, -⟩ := exists_of_forall₂ hvalues hp
    rw [hlen]
    exact (List.getElem?_eq_some_iff.1 hv).1
  obtain ⟨hin, hout⟩ := replace_reads (Q := fun p w => ∃ v, params[p.index]? = some v ∧
    Naming.Copy ⟨world'.heap.cells.size, t.nodes⟩ v w) hvalues hnodup hlt
  have hheap : (Machine.commit m'.nodes u).heap = u.heap := by
    simp [Machine.commit, hu.deleted]
  rw [unmarshal_eq hm eu]
  refine ⟨⟨_, rfl, Machine.length_replace _ _, fun p hp => ?_, hout⟩, hrest, ?_,
    fun c ⟨id, hid⟩ => hu.reached c id hid, fun c hc => ?_⟩
  · obtain ⟨w, hw', v, hv, hcopy⟩ := hin p hp
    exact ⟨v, w, hv, hw', hcopy⟩
  · rw [hheap]
    exact hu.size
  · obtain ⟨id, hid⟩ := hc
    obtain ⟨hpos, hle⟩ := hgrown.ready.nodes.idOf?_range hid
    have hlt : Naming.cell ⟨world'.heap.cells.size, t.nodes⟩ c < u.heap.cells.size := by
      rw [hu.size, Naming.cell, hid, Option.getD_some]
      exact Nat.add_lt_add_left (by omega) _
    obtain ⟨w, hload, d, v, hd', hcell, hv, hcopy⟩ :=
      hstep.filled_fresh (hu.deferred_nil hd) (Nat.le_add_right _ _) hlt
    obtain rfl := Naming.cell_injective hgrown.ready.nodes hd' ⟨id, hid⟩ hcell
    exact ⟨v, w, hv, by rw [hheap]; exact hload, hcopy⟩

end Lockstep

end Ndr
