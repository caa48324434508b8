import Ndr.Proofs.Limits.Filling
import Ndr.Proofs.Pipes.Receiving
import Ndr.Proofs.Unmarshal.Invariant
import Ndr.Proofs.Unmarshal.Results

/-!
Reading keeps within the limits: what is read, what is put into new cells and what is handed to pipes
is limited, up to any later state of the operation. The traversal for results does the rest, where
arrays, pointers, deleted nodes and pipes are known.
-/

namespace Ndr.Unmarshal

variable {env : Env} {S E s t u : State} {α β : Type} {P : α → Prop} {Q : β → Prop}

/-! ### What an operation holds -/

/-- New cells hold limited values, and so do the new chunks of pipes, which are not long. -/
structure Held (env : Env) (S E s : State) : Prop where
  cells : ∀ c v, S.heap.allocations ≤ c → s.heap.load? c = some v → Limited env S E v
  chunks : ∀ (h : PipeHandle) q, s.pipes[h]? = some q → ∃ p new, S.pipes[h]? = some p ∧
    q.pushed = p.pushed ++ new ∧
      ∀ chunk ∈ new, chunk.length ≤ env.config.maxElements ∧ ∀ v ∈ chunk, Limited env S E v

namespace Held

/-- Nothing is new at the start. -/
theorem start (env : Env) (S E : State) : Held env S E S where
  cells _ _ h1 h2 := absurd (Heap.lt_of_load? h2) (Nat.not_lt.2 h1)
  chunks _ p hp := ⟨p, [], hp, (List.append_nil _).symm, by simp⟩

variable (h : Held env S E s)

include h

theorem of_eq (hh : t.heap = s.heap) (hp : t.pipes = s.pipes) : Held env S E t where
  cells c v h1 h2 := h.cells c v h1 (hh ▸ h2)
  chunks i q hq := h.chunks i q (hp ▸ hq)

theorem append (hh : t.heap = s.heap.append .void) (hp : t.pipes = s.pipes) : Held env S E t where
  cells c v h1 h2 := by
    rw [hh, Heap.load?_append] at h2
    split at h2
    · exact Option.some.inj h2 ▸ .plain Value.not_occurs_void
    · exact h.cells c v h1 h2
  chunks i q hq := h.chunks i q (hp ▸ hq)

theorem put {c : CellId} {v : Value} (hl : s.heap.isLive c) (hv : Limited env S E v) :
    Held env S E { s with heap := s.heap.put c v } where
  cells d w h1 h2 := by
    rw [Heap.load?_put hl] at h2
    split at h2
    · exact Option.some.inj h2 ▸ hv
    · exact h.cells d w h1 h2
  chunks := h.chunks

theorem setPipe {i : PipeHandle} {p q : Pipe} {new : List (List Value)} (hp : s.pipes[i]? = some p)
    (hq : q.pushed = p.pushed ++ new)
    (hnew : ∀ chunk ∈ new, chunk.length ≤ env.config.maxElements ∧ ∀ v ∈ chunk, Limited env S E v) :
    Held env S E (s.setPipe i q) where
  cells := h.cells
  chunks j r hr := by
    by_cases hj : i = j
    · subst hj
      obtain rfl := Option.some.inj ((getElem?_setPipe hp).symm.trans hr)
      obtain ⟨p₀, old, hp₀, hold, hlimits⟩ := h.chunks i p hp
      refine ⟨p₀, old ++ new, hp₀, by rw [hq, hold, List.append_assoc], fun chunk hc => ?_⟩
      exact (List.mem_append.1 hc).elim (hlimits chunk) (hnew chunk)
    · rw [getElem?_setPipe_ne hj] at hr
      exact h.chunks j r hr

end Held

/-! ### Actions -/

/-- Where it succeeds, an action goes on in the message. -/
def GoesOn (x : Unmarshalling α) : Prop := ∀ ⦃s a t⦄, x s = .ok a t → s.Before t

/-- An action between the states `S` and `E` of an operation that keeps within the limits, and gives
only results of which `P` holds. -/
structure Limits (env : Env) (S E : State) (P : α → Prop) (x : Unmarshalling α) : Prop where
  onward : GoesOn x
  step : ∀ ⦃s a t⦄, S.Before s → Held env S E s → x s = .ok a t → t.Before E →
    Held env S E t ∧ P a

namespace Limits

variable {x : Unmarshalling α} {f : α → Unmarshalling β}

theorem pure {a : α} (h : P a) : Limits env S E P (pure a) where
  onward _ _ _ e := (pure_eq_ok.1 e).2 ▸ .refl _
  step s _ _ _ hs e _ := by
    obtain ⟨rfl, rfl⟩ := pure_eq_ok.1 e
    exact ⟨hs, h⟩

theorem throw (e : Fault) : Limits env S E P (throw e) where
  onward _ _ _ h := absurd h throw_ne_ok
  step _ _ _ _ _ h := absurd h throw_ne_ok

theorem mono {P' : α → Prop} (h : Limits env S E P x) (hP : ∀ a, P a → P' a) :
    Limits env S E P' x where
  onward := h.onward
  step _ _ _ hS hs e ht := (h.step hS hs e ht).imp_right (hP _)

/-- What follows may count on the result of the first action, where it goes on in any case. -/
theorem bind_of (hx : Limits env S E P x) (hon : ∀ a, GoesOn (f a))
    (hf : ∀ a, P a → Limits env S E Q (f a)) : Limits env S E Q (x >>= f) where
  onward _ _ _ e := by
    obtain ⟨a, u, h1, h2⟩ := bind_eq_ok.1 e
    exact (hx.onward h1).trans (hon a h2)
  step _ _ _ hS hs e ht := by
    obtain ⟨a, u, h1, h2⟩ := bind_eq_ok.1 e
    obtain ⟨hu, ha⟩ := hx.step hS hs h1 ((hon a h2).trans ht)
    exact (hf a ha).step (hS.trans (hx.onward h1)) hu h2 ht

theorem bind (hx : Limits env S E P x) (hf : ∀ a, Limits env S E (fun b => P a → Q b) (f a)) :
    Limits env S E Q (x >>= f) :=
  hx.bind_of (fun a => (hf a).onward) fun a ha => (hf a).mono fun _ h => h ha

theorem lift (x : Except Fault α) : Limits env S E (fun a => x = .ok a) (liftM x) where
  onward _ _ _ e := (lift_eq_ok.1 e).2 ▸ .refl _
  step _ _ _ _ hs e _ := by
    obtain ⟨hx, rfl⟩ := lift_eq_ok.1 e
    exact ⟨hs, hx⟩

/-- What holds of the results in any case. -/
theorem also {P' : α → Prop} (h : Limits env S E P x) (hx : Keeps (fun _ => True) P' x) :
    Limits env S E (fun a => P a ∧ P' a) x where
  onward := h.onward
  step _ _ _ hS hs e ht :=
    have ⟨ht', ha⟩ := h.step hS hs e ht
    ⟨ht', ha, (hx.ok trivial e).2⟩

/-- The result comes from running the action between `S` and `E`. -/
theorem ran (h : Limits env S E P x) :
    Limits env S E (fun a => P a ∧ ∃ s t, S.Before s ∧ x s = .ok a t ∧ t.Before E) x where
  onward := h.onward
  step s _ t hS hs e ht :=
    have ⟨ht', ha⟩ := h.step hS hs e ht
    ⟨ht', ha, s, t, hS, e, ht⟩

/-- An action that depends on the state it starts in. -/
theorem see {f : State → Unmarshalling α} (h : ∀ s, Limits env S E P (f s)) :
    Limits env S E P (get >>= f) where
  onward _ _ _ e := by
    obtain ⟨_, _, h1, h2⟩ := bind_eq_ok.1 e
    obtain ⟨rfl, rfl⟩ := get_eq_ok.1 h1
    exact (h _).onward h2
  step _ _ _ hS hs e ht := by
    obtain ⟨_, _, h1, h2⟩ := bind_eq_ok.1 e
    obtain ⟨rfl, rfl⟩ := get_eq_ok.1 h1
    exact (h _).step hS hs h2 ht

theorem ite {c : Prop} [Decidable c] {y : Unmarshalling α} (hx : Limits env S E P x)
    (hy : Limits env S E P y) : Limits env S E P (if c then x else y) := by
  split
  · exact hx
  · exact hy

/-- A step that touches neither the heap nor a pipe. -/
theorem quiet (hx : Pipeless x) (hh : ∀ h, Keeps (fun s => s.heap = h) (fun _ => True) x) :
    Limits env S E (fun _ => True) x where
  onward s _ _ e := ((hx s).ok ⟨.refl s, rfl⟩ e).1.toBefore
  step s _ _ _ hs e _ :=
    ⟨hs.of_eq ((hh _).ok rfl e).1 ((hx s).ok ⟨.refl s, rfl⟩ e).1.pipes, trivial⟩

end Limits

/-! ### Steps -/

/-- The heap is changed by steps of pointers only. -/
theorem relates_heap (env : Env) : RelatesPlain env fun x _ =>
    ∀ h, Keeps (fun s : State => s.heap = h) (fun _ => True) x where
  pure _ _ := .pure trivial
  throw e _ := .throw e
  bind hx hf h := (hx h).bind fun a _ => hf a h
  align _ _ := holds_fetch_of_frame (fun _ _ he hs => (Prod.ext_iff.1 he).1.trans hs) _
  count _ := holds_fetch_of_frame (fun _ _ he hs => (Prod.ext_iff.1 he).1.trans hs) _
  shortCount _ := holds_fetch_of_frame (fun _ _ he hs => (Prod.ext_iff.1 he).1.trans hs) _
  scalar _ _ := holds_fetch_of_frame (fun _ _ he hs => (Prod.ext_iff.1 he).1.trans hs) _
  run _ _ := holds_fetch_of_frame (fun _ _ he hs => (Prod.ext_iff.1 he).1.trans hs) _
  context _ _ _ := holds_getContext_of_frame (fun _ _ he hs => (Prod.ext_iff.1 he).1.trans hs) _ _ _
  call _ _ := Keeps.modify fun _ hs => hs
  openScope _ _ := Keeps.modifyGet fun _ hs => ⟨hs, trivial⟩
  setField _ _ v _ := by
    cases v with
    | none => exact .pure trivial
    | some v => exact Keeps.modify fun _ hs => hs
  scopeOf id _ := holds_scopeOf id
  keepLate _ _ _ := Keeps.modify fun _ hs => hs
  verifyLate scope _ := Keeps.get.bind fun _ _ =>
    Keeps.bind (P := fun _ => True) (Keeps.modify fun _ hs => hs) fun _ _ =>
      (holds_scopeOf scope).bind fun _ _ =>
        Keeps.forM (P := fun _ => True) (fun _ _ => (Keeps.lift _).weaken) fun _ _ => trivial
  seeHeap hf h := Keeps.get.bind fun s _ => hf s.heap h
  seeCalls hf h := Keeps.get.bind fun s _ => hf s.calls h

/-- The steps that make and fill no cell and touch no pipe keep within the limits. -/
theorem asserts_limits (env : Env) (S E : State) : Asserts env (Limits env S E) where
  plain := by
    have hp := (relates_pipeless env).toRelatesPlain
    have hh := relates_heap env
    exact {
      pure := fun _ => .pure trivial
      throw := .throw
      bind := fun hx hf => hx.bind fun a => (hf a).mono fun _ h _ => h
      align := fun n => .quiet (hp.align n) (hh.align n)
      count := .quiet hp.count hh.count
      shortCount := .quiet hp.shortCount hh.shortCount
      scalar := fun kind => .quiet (hp.scalar kind) (hh.scalar kind)
      run := fun n => .quiet (hp.run n) (hh.run n)
      context := fun direction current => .quiet (hp.context direction current) (hh.context direction current)
      call := fun c => .quiet (hp.call c) (hh.call c)
      openScope := fun scope => .quiet (hp.openScope scope) (hh.openScope scope)
      setField := fun id field v => .quiet (hp.setField id field v) (hh.setField id field v)
      scopeOf := fun id => .quiet (hp.scopeOf id) (hh.scopeOf id)
      keepLate := fun c scope => .quiet (hp.keepLate c scope) (hh.keepLate c scope)
      verifyLate := fun scope => .quiet (hp.verifyLate scope) (hh.verifyLate scope)
      seeHeap := fun hf => .see fun s => hf s.heap
      seeCalls := fun hf => .see fun s => hf s.calls }
  pure := .pure
  throw := .throw
  mono := .mono
  bind := .bind
  lift := .lift
  scalar kind := by
    have hword : Keeps (fun _ => True) (fun v => ∃ n, v = kind.ofWord n)
        (fetch (Reader.getScalar env.representation kind)) := Keeps.onPart_of fun r _ => by
      cases e : Reader.getScalar env.representation kind r with
      | ok v r' => exact ⟨trivial, exists_ofWord e⟩
      | error fault r' => trivial
    have hread : Limits env S E (fun _ => True) (fetch (Reader.getScalar env.representation kind)) :=
      .quiet ((relates_pipeless env).scalar kind) ((relates_heap env).scalar kind)
    exact (hread.also hword).mono fun _ h => h.2
  seeCalls hf := .see fun s => hf s.calls

/-! ### Arrays -/

theorem length_extentsIn_le (scope : ScopeId) (d : ArrayDefinition) (read : Option (List Nat)) :
    Keeps (fun _ => True) (fun extents => extents.length ≤ d.dimensions.length)
      (extentsIn scope d read) := by
  cases read with
  | none =>
    exact (Keeps.mapM_forall₂ (R := fun _ _ => True) fun _ _ => Keeps.ofTrue _).mono
      fun extents hextents => hextents.length_eq.ge
  | some counts =>
    refine (Keeps.mapM_forall₂ (R := fun _ _ => True) fun _ _ => Keeps.ofTrue _).mono
      fun extents hextents => ?_
    rw [← hextents.length_eq, List.length_zip]
    exact Nat.min_le_left _ _

/-- The places that are sent go up, and are those of elements. -/
theorem places_of_total {shape : Shape} {total : Nat}
    (hwithin : ∀ d ∈ shape, d.first + d.length ≤ d.extent) (htotal : shape.total = .ok total) :
    shape.indices.Pairwise (· < ·) ∧ (∀ i ∈ shape.indices, i < total) ∧
      shape.transmitted = .ok shape.indices.length := by
  have hplaces : shape.indices = shape.box.map shape.rowMajor := by
    rw [Shape.indices_eq_box, Shape.map_flat_box hwithin]
  refine ⟨hplaces ▸ Shape.pairwise_box hwithin, fun i hi => ?_, ?_⟩
  · rw [hplaces] at hi
    obtain ⟨index, hindex, rfl⟩ := List.mem_map.1 hi
    exact Shape.size_of_total htotal ▸ ((Shape.mem_box.1 hindex).valid hwithin).rowMajor_lt
  · rw [Shape.transmitted_eq_ok hwithin htotal, hplaces, List.length_map, Shape.length_box]

section Arrays

variable {room definition : Nat} {varying : Bool} {d : ArrayDefinition}
  (hw : GivesTypes (Limits env S E) (fun _ => Limited env S E) (walk env room))

include hw

theorem limits_getElements (element : Descriptor) (n : Nat) (site : Site ScopeId) :
    Limits env S E (fun vs => n ≤ env.config.maxElements ∧ vs.length = n ∧
        (∃ s t, S.Before s ∧ getElements env (walk env room) element n site s = .ok vs t ∧ t.Before E) ∧
        ∀ v ∈ vs, Limited env S E v)
      (getElements env (walk env room) element n site) := by
  have hread := ((asserts_limits env S E).getElements
    (fun _ => .plain fun _ => Value.not_occurs_ofWord _ _ _) hw element n site).also
      (getElements_length env (walk env room) element n site)
  refine hread.ran.mono ?_
  rintro vs ⟨⟨hall, hlength⟩, s, t, hS, hrun, hE⟩
  obtain ⟨_, _, hcount, -⟩ := bind_eq_ok.1 hrun
  exact ⟨checkCount_eq_ok (lift_eq_ok.1 hcount).1, hlength, ⟨s, t, hS, hrun, hE⟩, hall⟩

variable (hd : env.vector.arrayDefinition definition varying = .ok d)

include hd

/-- An array that is read in whole. -/
theorem limits_whole (n : Nat) (site : Site ScopeId) :
    Limits env S E (fun vs => Limited env S E (.array vs))
      (getElements env (walk env room) d.element n site) := by
  refine (limits_getElements hw d.element n site).mono ?_
  rintro vs ⟨hmax, rfl, ⟨s, t, hS, hrun, hE⟩, hall⟩
  exact .array hd hmax hS (.whole hrun) hE hall

theorem limits_getString (shape : Shape) (site : Site ScopeId) :
    Limits env S E (fun vs => Limited env S E (.array vs))
      (getString env (walk env room) d.element shape site) := by
  have hH := asserts_limits env S E
  cases shape with
  | nil =>
    -- nothing is read, and there is nothing to fill
    refine (Limits.pure trivial : Limits env S E (fun _ => True) (pure [])).ran.mono ?_
    rintro vs ⟨-, s, t, hS, hrun, hE⟩
    obtain ⟨rfl, rfl⟩ := pure_eq_ok.1 hrun
    have hempty : Filling env (walk env room) d.element site s s [] [] := by
      have hnone : repeatM ([] : List Nat).length (walk env room d.element site) s = .ok [] s := rfl
      exact .part hnone .nil (by simp) .nil (fun i hi => absurd hi (Nat.not_lt_zero i)) (by simp)
    exact .array hd (Nat.zero_le _) hS hempty hE (by simp)
  | cons p shape =>
    unfold getString
    refine hH.check (hH.bind (limits_getElements hw d.element p.length site) fun characters => ?_)
    refine (Limits.lift _).mono ?_
    rintro vs hends ⟨hmax, hlength, ⟨s, t, hS, hrun, hE⟩, hall⟩
    rw [← hlength] at hrun hmax
    refine .array hd ?_ hS (.text hrun hends) hE hall
    obtain ⟨v, rfl⟩ := stripTerminator_eq_ok hends
    rw [List.length_append] at hmax
    exact Nat.le_of_add_right_le hmax

/-- What is not sent of an array is filled in, where it is not too much. -/
theorem limits_getPart {extents : List Nat} {total : Nat}
    (htotal : Shape.checkedProduct extents 1 = .ok total) (hmax : total ≤ env.config.maxElements)
    (shape : Shape) (site : Site ScopeId) :
    Limits env S E (fun vs => Bounded.Within extents shape → Limited env S E (.array vs))
      (getPart env (walk env room) d.element shape total site) := by
  have hH := asserts_limits env S E
  refine hH.lift_bind fun sent hsent => ?_
  dsimp only
  by_cases hfilled : env.config.maxFilled < total - sent
  · rw [if_pos hfilled]
    exact hH.throw _
  rw [if_neg hfilled]
  refine hH.lift_bind fun zero hzero => ?_
  rw [foldIndices_place, bind_map_left]
  have hread := (hH.repeatM (hw d.element site) shape.indices.length).also
    (Keeps.repeatM_all (Keeps.ofTrue _) _)
  refine hH.bind hread.ran fun read => hH.pure ?_
  rintro ⟨⟨hall, hlength, -⟩, s, t, hS, hrun, hE⟩ ⟨hextents, hwithin⟩
  have hshape : shape.total = .ok total := by rw [Shape.total, hextents, htotal]
  obtain ⟨horder, hlt, htransmitted⟩ := places_of_total hwithin hshape
  obtain rfl := Except.ok.inj (hsent.symm.trans htransmitted)
  have hsize : (place shape.indices read (Array.replicate total zero)).toList.length = total := by
    rw [Array.length_toList, size_place, Array.size_replicate]
  have hnodup := horder.imp Nat.ne_of_lt
  refine .array hd (hsize.trans_le hmax) hS (.part hrun horder (hsize.symm ▸ hlt) ?_ ?_ ?_) hE hall
  · have hplaced := forall₂_place hnodup hlength.symm (by rwa [Array.size_replicate (v := zero)])
    exact hplaced.imp fun i v h => by rwa [Array.getElem?_toList]
  · intro i hi hnot
    rw [hsize] at hi
    refine ⟨zero, hzero, ?_⟩
    rw [Array.getElem?_toList, getElem?_place_of_notMem hnot, Array.getElem?_replicate, if_pos hi]
  · rw [hsize, countP_notMem hnodup hlt]
    exact Nat.le_of_not_lt hfilled

theorem limits_getContents (m : Modifiers) (kind : ArrayKind) (site : Site ScopeId)
    (read : Option (List Nat)) :
    Limits env S E (Limited env S E) (getContents env (walk env room) m kind d site read) := by
  have hH := asserts_limits env S E
  refine hH.bind ((hH.plain.extentsIn _ _ _).also (length_extentsIn_le _ _ _)) fun extents => ?_
  refine hH.lift_bind fun total htotal => hH.lift_bind fun _ hcount => ?_
  have hshape : Keeps (fun _ => True) (fun shape => extents.length ≤ d.dimensions.length →
      Bounded.Within extents shape) (getShape env kind m.isV1 site.scope d extents) := by
    by_cases hdims : extents.length ≤ d.dimensions.length
    · exact (Bounded.within_getShape env hdims kind m.isV1 site.scope).mono fun _ h _ => h
    · exact (Keeps.ofTrue _).mono fun _ _ h => absurd h hdims
  refine hH.bind ((hH.plain.getShape (.refl env) _ _ _ _ _).also hshape) fun shape => ?_
  have helements : Limits env S E
      (fun vs => Bounded.Within extents shape → Limited env S E (.array vs))
      (if m.isString then getString env (walk env room) d.element shape site.inside
      else if shape.isFull then getElements env (walk env room) d.element total site.inside
      else getPart env (walk env room) d.element shape total site.inside) := by
    refine Limits.ite ((limits_getString hw hd _ _).mono ?_)
      (Limits.ite ((limits_whole hw hd _ _).mono ?_)
        (limits_getPart hw hd htotal (checkCount_eq_ok hcount) _ _))
    all_goals exact fun vs h _ => h
  refine hH.bind helements fun vs => hH.pure ?_
  rintro h ⟨-, hwithin⟩ ⟨-, hdims⟩
  exact h (hwithin hdims)

omit hd in
theorem limits_getArray (m : Modifiers) (kind : ArrayKind) (dims definition : Nat)
    (site : Site ScopeId) (preset : Option (List Nat)) :
    Limits env S E (Limited env S E)
      (getArray env (walk env room) m kind dims definition site preset) := by
  have hH := asserts_limits env S E
  rw [getArray_eq]
  refine hH.lift_bind fun d hd => hH.lift_bind fun _ _ => ?_
  refine hH.lift_bind fun _ _ => hH.lift_bind fun _ _ => ?_
  refine hH.andThen (P := fun _ => True) (Limits.ite ?_ (hH.pure trivial)) fun read =>
    limits_getContents hw hd m kind site read
  cases preset with
  | some counts => exact hH.pure trivial
  | none =>
    dsimp only
    rw [map_eq_pure_bind]
    exact hH.andThen (hH.getExtents _ _) fun _ => hH.pure trivial

end Arrays

end Ndr.Unmarshal
