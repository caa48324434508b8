import Ndr.Proofs.Lockstep.Basic

/-!
The steps that writing and reading have in common: words and scalars, and the scopes in which the
bounds of arrays and the switches of unions are looked up.
-/

namespace Ndr.Lockstep

open Unmarshal (enter)

/-! ### Bytes -/

/-- What a step of the writer adds, a step of the reader takes. -/
structure Mirrored {α β : Type} (x : Put α) (y : Fetch β) (Q : α → β → Prop) : Prop where
  mirrors : ∀ {w a w'}, 8 ≤ w.bufferSize → x w = .ok a w' → ∃ bytes, Writer.Wrote w w' bytes ∧
    ∀ {r : Reader} {tail}, r.position = w.position → r.rest = bytes ++ tail →
      ∃ b r', y r = .ok b r' ∧ Reader.Took r r' bytes.length tail ∧ Q a b

section

variable {env : Marshal.Env} {T : Terms} {N : Naming} {own : ScopeId → Prop} {G G' : List Frame}
  {F : Frame} {i : ScopeId} {s t : Marshal.State} {u u' : Unmarshal.State}

theorem mirrored_align (n : Nat) : Mirrored (Writer.align n) (Reader.align n) fun _ _ => True where
  mirrors _ e := by
    refine ⟨_, Writer.wrote_align e, fun {r tail} hp hr => ?_⟩
    rw [← hp] at hr
    obtain ⟨r', hok, ht⟩ := Reader.align_ok hr
    refine ⟨(), r', hok, ?_, trivial⟩
    rwa [List.length_replicate, ← hp]

theorem mirrored_putAligned (order : ByteOrder) {width v : Nat} (hv : v < 256 ^ width) :
    Mirrored (Writer.putAligned order width v) (Reader.getAligned order width)
      fun _ n => n = v where
  mirrors _ e := by
    refine ⟨_, Writer.wrote_putAligned e, fun {r tail} hp hr => ?_⟩
    rw [← hp] at hr
    obtain ⟨r', hok, ht⟩ := Reader.getAligned_ok hv hr
    exact ⟨v, r', hok, hp ▸ ht, rfl⟩

theorem mirrored_putScalar (r : Representation) (kind : Scalar) (v : Value) :
    Mirrored (Writer.putScalar r kind v) (Reader.getScalar r kind)
      fun _ w => w = v ∧ ∃ n, kind.word? v = some n where
  mirrors _ e := by
    obtain ⟨n, hn, hr, he, hw⟩ := Writer.wrote_putScalar e
    refine ⟨_, hw, fun {r tail} hp hr' => ?_⟩
    rw [← hp] at hr'
    obtain ⟨r', hok, ht⟩ := Reader.getScalar_ok hn hr he hr'
    exact ⟨v, r', hok, hp ▸ ht, rfl, n, hn⟩

theorem mirrored_putRun (bytes : List UInt8) :
    Mirrored (Writer.putRun bytes) (Reader.getRun bytes.length) fun _ bs => bs = bytes where
  mirrors hb e := by
    refine ⟨_, Writer.wrote_putRun hb e, fun {r tail} _ hr => ?_⟩
    obtain ⟨r', hok, ht⟩ := Reader.getRun_ok hr
    exact ⟨bytes, r', hok, ht, rfl⟩

/-- A change of the message alone. -/
theorem Follows.of_wire {w : Writer} {r : Reader} (h : Follows env T N G s u)
    (hp : r.position = w.position) :
    Follows env T N G { s with writer := w } { u with reader := r } where
  position := hp
  limit := h.limit
  size := h.size
  live := h.live
  nodes := h.nodes
  consistent := h.consistent
  reached := h.reached
  scopes := h.scopes
  partly := h.partly
  late := h.late
  deferred := h.deferred
  deleted := h.deleted

/-- Bytes that are written are read back. -/
theorem Locked.wire {α β : Type} {x : Put α} {y : Fetch β} {Q : α → β → Prop}
    (h : Mirrored x y Q) :
    Locked env T N own G (Marshal.put x) (Unmarshal.fetch y) Q where
  grows := .put fun _ _ _ hb e => by
    obtain ⟨bytes, hw, -⟩ := h.mirrors hb e
    exact ⟨bytes, hw⟩
  reads {s a t} hs e _ G' u bytes tail _ hw hu hr := by
    obtain ⟨w, h1, rfl⟩ := onPart_eq_ok.1 e
    obtain ⟨bytes', hw', hread⟩ := h.mirrors hs.bufferSize h1
    obtain rfl := hw.unique hw'
    obtain ⟨b, r, hok, ht, hq⟩ := hread hu.position hr
    refine ⟨b, { u with reader := r }, G', onPart_eq_ok.2 ⟨r, hok, rfl⟩, ht.rest, ?_, ?_, hq⟩
    · exact hu.of_wire (by rw [ht.position, hw'.position, hu.position])
    · exact .of_eq rfl rfl rfl

/-- A count that fits its word is read back. -/
theorem locked_count (side : Side) (previous : NodeTable) {v : Nat} (hv : v < 2 ^ 32) :
    Locked env T N own G (Marshal.putCount env v) (Unmarshal.getCount (env.receiver side previous))
      fun _ n => n = v :=
  .wire (mirrored_putAligned _ (by simpa using hv))

/-! ### Sites -/

/-- A place in a message that is the place of `x` in the values; its scope is `F`. -/
structure Meets (G : List Frame) (F : Frame) (x : Site Scope) (y : Site ScopeId) : Prop where
  frame : G[y.scope]? = some F
  scope : F.scope = x.scope
  embedded : y.embedded = x.embedded

theorem Meets.mono {x : Site Scope} {y : Site ScopeId} (h : Meets G F x y) (hG : G <+: G') :
    Meets G' F x y := ⟨frame_mono hG h.frame, h.scope, h.embedded⟩

theorem Meets.inside {x : Site Scope} {y : Site ScopeId} (h : Meets G F x y) :
    Meets G F x.inside y.inside := ⟨h.frame, h.scope, rfl⟩

/-- A walk over values and the walk over the message that it writes, where the values are as `P`
asks. -/
structure LockedWalks (env : Marshal.Env) (T : Terms) (N : Naming)
    (P : Descriptor → Value → Frame → Prop) (walk : Marshal.Walk) (walk' : Unmarshal.Walk) :
    Prop where
  grows : Marshal.GrowsAll walk
  reads : ∀ {d v F G x y}, P d v F → Meets G F x y →
    Locked env T N (fun _ => False) G (walk d v x) (walk' d y) fun _ w => N.Copy v w

/-! ### Scopes -/

theorem Follows.lt_scopes (h : Follows env T N G s u) (hF : G[i]? = some F) :
    i < u.scopes.size := by
  rw [h.scopes]
  exact (List.getElem?_eq_some_iff.1 hF).1

/-- A new scope, of which nothing is known but what it is to hold. -/
theorem Follows.openScope (h : Follows env T N G s u) {scope : Scope}
    (hscope : ∀ k v, F.readable k → scope.get? k = some v → F.scope.get? k = some v) :
    Follows env T N (G ++ [F]) s { u with scopes := u.scopes.push scope } where
  position := h.position
  limit := h.limit
  size := h.size
  live := h.live
  nodes := h.nodes
  consistent := h.consistent
  reached := h.reached
  scopes := by simp [h.scopes]
  partly j E hE k v hk hv := by
    simp only [Unmarshal.State.scopeAt, Array.getElem?_push, h.scopes] at hv
    by_cases hj : j = G.length
    · subst hj
      obtain rfl : F = E := by simpa using hE
      exact hscope k v hk (by simpa using hv)
    · have hE' : G[j]? = some E := by
        have := (List.getElem?_eq_some_iff.1 hE).1
        rw [List.length_append, List.length_singleton] at this
        rwa [List.getElem?_append_left (Nat.lt_of_le_of_ne (Nat.le_of_lt_succ this) hj)] at hE
      rw [if_neg hj] at hv
      exact h.partly j E hE' k v hk hv
  late j c hc := by
    obtain ⟨E, hE, h'⟩ := h.late j c hc
    exact ⟨E, frame_mono (List.prefix_append _ _) hE, h'⟩
  deferred := h.deferred.imp fun _ _ hd => hd.mono (fun _ _ e => e) (List.prefix_append _ _)
  deleted := h.deleted

theorem get?_scopeAt_enter (hi : i < u.scopes.size) (field : Nat) (x : Option Int) (j : ScopeId)
    (k : Nat) :
    (Unmarshal.State.scopeAt { u with scopes := enter u.scopes i field x } j).get? k
      = if j = i ∧ k = field then x.or ((u.scopeAt j).get? k) else (u.scopeAt j).get? k := by
  cases x with
  | none => simp [enter, Unmarshal.State.scopeAt]
  | some v =>
    simp only [Unmarshal.State.scopeAt, enter, Array.getElem?_modify]
    by_cases hj : i = j
    · subst hj
      simp [hi, Scope.get?_insert]
    · simp [hj, Ne.symm hj]

/-- A field that is entered with the value that it is to have. -/
theorem Follows.setField (h : Follows env T N G s u) (hF : G[i]? = some F) {field : Nat}
    {x : Option Int} (hx : F.readable field → ∀ v, x = some v → F.scope.get? field = some v) :
    Follows env T N G s { u with scopes := enter u.scopes i field x } where
  position := h.position
  limit := h.limit
  size := h.size
  live := h.live
  nodes := h.nodes
  consistent := h.consistent
  reached := h.reached
  scopes := by cases x <;> simp [enter, h.scopes]
  partly j E hE k v hk hv := by
    rw [get?_scopeAt_enter (h.lt_scopes hF)] at hv
    split at hv
    · rename_i hjk
      obtain ⟨rfl, rfl⟩ := hjk
      obtain rfl : F = E := Option.some.inj (hF.symm.trans hE)
      rcases Option.or_eq_some_iff.1 hv with hv | ⟨-, hv⟩
      · exact hx hk v hv
      · exact h.partly j F hE k v hk hv
    · exact h.partly j E hE k v hk hv
  late := h.late
  deferred := h.deferred
  deleted := h.deleted

/-- What is known of a scope behind a field that is entered with the value that it is to have. -/
theorem Follows.get?_setField (h : Follows env T N G s u) (hF : G[i]? = some F) {field k : Nat}
    {x : Option Int} (hx : F.readable field → x = F.scope.get? field) (hk : F.readable k)
    (hold : k ≠ field → (u.scopeAt i).get? k = F.scope.get? k) :
    (Unmarshal.State.scopeAt { u with scopes := enter u.scopes i field x } i).get? k
      = F.scope.get? k := by
  rw [get?_scopeAt_enter (h.lt_scopes hF)]
  by_cases hkf : k = field
  · subst hkf
    rw [if_pos ⟨rfl, rfl⟩, hx hk]
    cases hv : F.scope.get? k with
    | some n => rfl
    | none =>
      -- a field that is no integer was not entered before either
      cases hk' : (u.scopeAt i).get? k with
      | none => rfl
      | some n => exact absurd ((h.partly i F hF k n hk hk').symm.trans hv) (by simp)
  · rw [if_neg fun h => hkf h.2]
    exact hold hkf

theorem course_setField {field : Nat} {x : Option Int} :
    Course env N (· = i) Unmarshal.None G G u
      { u with scopes := enter u.scopes i field x } where
  frames := List.prefix_rfl
  scopes j _ hj := by
    cases x with
    | none => rfl
    | some v =>
      simp only [enter, Array.getElem?_modify, Ne.symm hj, if_false]
  step := .of_eq rfl rfl

/-! ### Bounds -/

theorem due_insert (u : Unmarshal.State) (i j : ScopeId) (cs : List LateCheck) :
    Unmarshal.State.due { u with late := u.late.insert i cs } j = if i = j then cs else u.due j := by
  simp [Unmarshal.State.due, Std.TreeMap.getD_insert]

theorem due_erase (u : Unmarshal.State) (i j : ScopeId) :
    Unmarshal.State.due { u with late := u.late.erase i } j = if i = j then [] else u.due j := by
  simp [Unmarshal.State.due, Std.TreeMap.getD_erase]

/-- A change of the bounds that wait. -/
theorem Follows.of_late (h : Follows env T N G s u) {late : Std.TreeMap ScopeId (List LateCheck)}
    (hl : ∀ j, ∀ c ∈ Unmarshal.State.due { u with late } j, ∃ E, G[j]? = some E ∧
      E.readable c.bound.field ∧ c.verify E.scope = .ok ()) :
    Follows env T N G s { u with late } where
  position := h.position
  limit := h.limit
  size := h.size
  live := h.live
  nodes := h.nodes
  consistent := h.consistent
  reached := h.reached
  scopes := h.scopes
  partly := h.partly
  late := hl
  deferred := h.deferred
  deleted := h.deleted

/-- A bound that agrees with the scope that its scope is to be: its field is read, now or
later. -/
structure Agrees (F : Frame) (b : Bound) (wire : Int) : Prop where
  early : b.hasFlag BoundFlag.early = false
  readable : F.readable b.field
  value : ∃ v, F.scope.get? b.field = some v ∧ applyOperator b.operator v = .ok wire

/-- A bound that agrees with its scope passes, at once or later. -/
theorem silent_checkBound {b : Bound} {wire : Int} (hF : G[i]? = some F)
    (hb : b.isChecked → Agrees F b wire) :
    Silent env T N own G (Unmarshal.checkBound b wire i) fun _ => True where
  runs {G' s u} hG hu := by
    by_cases hc : b.isChecked
    · obtain ⟨hearly, hread, v, hv, hop⟩ := hb hc
      have hF' := frame_mono hG hF
      have hresolve : b.resolve (u.scopeAt i) = .ok (.value wire) ∨
          b.resolve (u.scopeAt i) = .ok .late := by
        cases hk : (u.scopeAt i).get? b.field with
        | none =>
          right
          rw [Bound.resolve_of_none hc hk, hearly]
          rfl
        | some w =>
          left
          obtain rfl := Option.some.inj (hv.symm.trans (hu.partly i F hF' _ w hread hk))
          rw [Bound.resolve_of_some hc hk, hop]
          rfl
      have hscope : Unmarshal.scopeOf i u = .ok (u.scopeAt i) u := rfl
      unfold Unmarshal.checkBound
      rw [if_pos hc]
      rcases hresolve with hr | hr
      · refine ⟨(), u, ?_, rfl, hu, .refl, trivial⟩
        refine bind_eq_ok.2 ⟨_, u, hscope, bind_eq_ok.2 ⟨_, u, lift_eq_ok.2 ⟨hr, rfl⟩, ?_⟩⟩
        simp only [ne_eq, not_true_eq_false, if_false]
        rfl
      · refine ⟨(), { u with late := u.late.insert i (⟨b, wire⟩ :: u.due i) }, ?_, rfl,
          hu.of_late fun j c hj => ?_, .of_eq rfl rfl rfl, trivial⟩
        · exact bind_eq_ok.2 ⟨_, u, hscope, bind_eq_ok.2 ⟨_, u, lift_eq_ok.2 ⟨hr, rfl⟩, rfl⟩⟩
        rw [due_insert] at hj
        split at hj
        · rename_i hij
          subst hij
          rcases List.mem_cons.1 hj with rfl | hj
          · refine ⟨F, hF', hread, ?_⟩
            simp [LateCheck.verify, hv, hop, bind, Except.bind, pure, Except.pure]
          · exact hu.late i c hj
        · exact hu.late j c hj
    · unfold Unmarshal.checkBound
      rw [if_neg hc]
      exact ⟨(), u, rfl, rfl, hu, .refl, trivial⟩

/-- The bounds that were kept for a scope pass once it is complete. -/
theorem verifyLate_reads (own : ScopeId → Prop) (h : Follows env T N G s u) (hF : G[i]? = some F)
    (hall : ∀ k v, F.readable k → F.scope.get? k = some v → (u.scopeAt i).get? k = some v) :
    ∃ u', Unmarshal.verifyLate i u = .ok () u' ∧ u'.reader = u.reader ∧
      Follows env T N G s u' ∧ Course env N own Unmarshal.None G G u u' := by
  refine ⟨_, Unmarshal.verifyLate_eq_ok.2 ⟨fun c hc => ?_, rfl⟩, rfl, h.of_late fun j c hj => ?_,
    .of_eq rfl rfl rfl⟩
  · obtain ⟨E, hE, hread, hv⟩ := h.late i c hc
    obtain rfl : F = E := Option.some.inj (hF.symm.trans hE)
    change c.verify (u.scopeAt i) = .ok ()
    cases hk : F.scope.get? c.bound.field with
    | none => simp [LateCheck.verify, hk] at hv
    | some v =>
      rw [← hv]
      simp only [LateCheck.verify, hk, hall _ _ hread hk]
  · rw [due_erase] at hj
    split at hj
    · exact absurd hj List.not_mem_nil
    · exact h.late j c hj

end

end Ndr.Lockstep
