import Ndr.Proofs.Lockstep.Operation
import Ndr.Proofs.Unmarshal.Moves

/-!
Bounds that wait for their fields. A bound that is read ahead of its field is kept for its scope, and
compared with the field when the scope is complete. A pointee that is put off is read behind the struct
that leads to it, for a scope that is complete by then: what it keeps for that scope is compared no more.
It is known what is lost that way: only bounds by fields that the scope does not have.
-/

namespace Ndr

/-- Every field that is known in the one scope has its value in the other. -/
def Scope.Le (s s' : Scope) : Prop := ∀ k v, s.get? k = some v → s'.get? k = some v

namespace LateCheck

/-- The scope has no value of the field of the bound. -/
def Unknown (c : LateCheck) (s : Scope) : Prop := s.get? c.bound.field = none

/-- A bound agrees with its field whatever other fields are known. -/
theorem verify_mono {c : LateCheck} {s s' : Scope} (h : s.Le s') (hc : c.verify s = .ok ()) :
    c.verify s' = .ok () := by
  unfold verify at hc ⊢
  cases hv : s.get? c.bound.field with
  | none => simp [hv] at hc
  | some v => simpa only [hv, h _ v hv] using hc

end LateCheck

namespace Unmarshal

variable {env : Env} {O O' : ScopeId → Prop} {s t u : State} {i : ScopeId} {c : LateCheck}
  {α β : Type}

/-! ### What becomes of bounds -/

/-- The bound agrees with the scope, or waits for it. -/
def State.Heeds (s : State) (i : ScopeId) (c : LateCheck) : Prop :=
  c.verify (s.scopeAt i) = .ok () ∨ c ∈ s.due i

/-- What happens to scopes and to bounds from `s` to `t`, where the scopes of `O` are filled. No field
and no bound is forgotten, and a bound that is kept for a scope that is not filled has no field there. -/
structure Postpones (O : ScopeId → Prop) (s t : State) : Prop where
  size : s.scopes.size ≤ t.scopes.size
  same : ∀ i < s.scopes.size, ¬O i → t.scopeAt i = s.scopeAt i
  grows : ∀ i < s.scopes.size, (s.scopeAt i).Le (t.scopeAt i)
  kept : ∀ i < s.scopes.size, ∀ c ∈ s.due i, c ∈ t.due i
  unknown : ∀ i < t.scopes.size, ¬O i → ∀ c ∈ t.due i,
    (i < s.scopes.size ∧ c ∈ s.due i) ∨ c.Unknown (t.scopeAt i)

namespace Postpones

theorem refl (O : ScopeId → Prop) (s : State) : Postpones O s s where
  size := Nat.le_refl _
  same _ _ _ := rfl
  grows _ _ _ _ h := h
  kept _ _ _ h := h
  unknown _ hi _ _ hc := .inl ⟨hi, hc⟩

theorem trans (h : Postpones O s t) (h' : Postpones O t u) : Postpones O s u where
  size := Nat.le_trans h.size h'.size
  same i hi hO := (h'.same i (Nat.lt_of_lt_of_le hi h.size) hO).trans (h.same i hi hO)
  grows i hi k v hv := h'.grows i (Nat.lt_of_lt_of_le hi h.size) k v (h.grows i hi k v hv)
  kept i hi c hc := h'.kept i (Nat.lt_of_lt_of_le hi h.size) c (h.kept i hi c hc)
  unknown i hi hO c hc := by
    rcases h'.unknown i hi hO c hc with ⟨ht, hc⟩ | hc
    · rcases h.unknown i ht hO c hc with hc | hc
      · exact .inl hc
      · exact .inr (by rwa [LateCheck.Unknown, h'.same i ht hO])
    · exact .inr hc

theorem mono (h : Postpones O s t) (hO : ∀ i, O i → O' i) : Postpones O' s t where
  size := h.size
  same i hi hn := h.same i hi fun ho => hn (hO i ho)
  grows := h.grows
  kept := h.kept
  unknown i hi hn := h.unknown i hi fun ho => hn (hO i ho)

/-- A change of neither the scopes nor what waits for them. -/
theorem of_eq (hs : t.scopes = s.scopes) (hl : t.late = s.late) : Postpones O s t := by
  have hscope : ∀ i, t.scopeAt i = s.scopeAt i := fun i => by rw [State.scopeAt, hs, State.scopeAt]
  have hdue : ∀ i, t.due i = s.due i := fun i => by rw [State.due, hl, State.due]
  exact {
    size := Nat.le_of_eq (by rw [hs])
    same := fun i _ _ => hscope i
    grows := fun i _ _ _ hv => hscope i ▸ hv
    kept := fun i _ _ hc => hdue i ▸ hc
    unknown := fun i hi _ c hc => .inl ⟨hs ▸ hi, hdue i ▸ hc⟩ }

/-- A bound that is heeded stays so. -/
theorem heeds (h : Postpones O s t) (hi : i < s.scopes.size) (hc : s.Heeds i c) : t.Heeds i c := by
  rcases hc with hc | hc
  · exact .inl (LateCheck.verify_mono (h.grows i hi) hc)
  · exact .inr (h.kept i hi c hc)

end Postpones

/-- From `s` on the scope `i` is filled, and in `t` it is complete: all that waited for it was compared
with it. -/
def Concludes (i : ScopeId) (s t : State) : Prop :=
  ∃ u, Postpones (· = i) s u ∧ (∀ c ∈ u.due i, c.verify (u.scopeAt i) = .ok ()) ∧
    t = { u with late := u.late.erase i }

/-- Where a scope is completed, every bound of it agrees with it that is heeded in the meantime. -/
theorem Concludes.verify (h : Concludes i s t) (hi : i < s.scopes.size) (hc : s.Heeds i c) :
    c.verify (t.scopeAt i) = .ok () := by
  obtain ⟨u, hu, hverified, rfl⟩ := h
  rcases hu.heeds hi hc with hc | hc
  · exact hc
  · exact hverified c hc

theorem Concludes.grows (h : Concludes i s t) (hi : i < s.scopes.size) :
    (s.scopeAt i).Le (t.scopeAt i) := by
  obtain ⟨u, hu, -, rfl⟩ := h
  exact hu.grows i hi

theorem Concludes.due_eq_nil (h : Concludes i s t) : t.due i = [] := by
  obtain ⟨u, -, -, rfl⟩ := h
  rw [Lockstep.due_erase, if_pos rfl]

theorem Postpones.concludes (h : Postpones (fun _ => False) s t) (h' : Concludes i t u) :
    Concludes i s u := by
  obtain ⟨v, hv, hverified, rfl⟩ := h'
  exact ⟨v, (h.mono fun _ => False.elim).trans hv, hverified, rfl⟩

/-- A scope that is opened and completed. -/
theorem Concludes.postpones {scope : Scope}
    (h : Concludes s.scopes.size { s with scopes := s.scopes.push scope } t) :
    Postpones (fun _ => False) s t := by
  obtain ⟨u, hu, -, rfl⟩ := h
  have hscope : ∀ j < s.scopes.size,
      State.scopeAt { s with scopes := s.scopes.push scope } j = s.scopeAt j := by
    intro j hj
    simp only [State.scopeAt, Array.getElem?_push, Nat.ne_of_lt hj, if_false]
  have hsize := hu.size
  simp only [Array.size_push] at hsize
  have hbefore : ∀ {j}, j < s.scopes.size → j < (s.scopes.push scope).size := fun hj => by
    rw [Array.size_push]
    exact Nat.lt_succ_of_lt hj
  refine ⟨Nat.le_of_succ_le hsize, fun j hj _ => ?_, fun j hj k v hv => ?_, fun j hj c hc => ?_,
    fun j hj _ c hc => ?_⟩
  · exact (hu.same j (hbefore hj) (Nat.ne_of_lt hj)).trans (hscope j hj)
  · exact hu.grows j (hbefore hj) k v (by rwa [hscope j hj])
  · rw [Lockstep.due_erase, if_neg (Nat.ne_of_gt hj)]
    exact hu.kept j (hbefore hj) c hc
  · rw [Lockstep.due_erase] at hc
    split at hc
    · exact absurd hc List.not_mem_nil
    · rename_i hne
      rcases hu.unknown j hj (Ne.symm hne) c hc with ⟨hlt, hc⟩ | hc
      · rw [Array.size_push] at hlt
        exact .inl ⟨Nat.lt_of_le_of_ne (Nat.le_of_lt_succ hlt) (Ne.symm hne), hc⟩
      · exact .inr hc

/-- An action that fills no scope but its own. -/
abbrev Postponing (x : Unmarshalling α) : Prop := Moves (Postpones fun _ => False) x

/-! ### Steps -/

/-- A bound that is compared is heeded from then on. -/
theorem heeds_of_checkBound {b : Bound} {wire : Int} {a : Unit} (hb : b.isChecked)
    (e : checkBound b wire i s = .ok a t) : t.Heeds i ⟨b, wire⟩ := by
  rcases checkBound_eq_ok e with ⟨hv, rfl⟩ | ⟨-, rfl⟩
  · exact .inl (hv hb)
  · refine .inr ?_
    rw [Lockstep.due_insert, if_pos rfl]
    exact List.mem_cons_self

theorem postponing_checkBound (b : Bound) (wire : Int) (i : ScopeId) :
    Postponing (checkBound b wire i) := fun s _ t e => by
  rcases checkBound_eq_ok e with ⟨-, rfl⟩ | ⟨hunknown, rfl⟩
  · exact .refl _ _
  · refine ⟨Nat.le_refl _, fun _ _ _ => rfl, fun _ _ _ _ h => h, fun j _ c hc => ?_,
      fun j hj _ c hc => ?_⟩
    · rw [Lockstep.due_insert]
      split
      · rename_i hij
        exact hij ▸ List.mem_cons_of_mem _ hc
      · exact hc
    · rw [Lockstep.due_insert] at hc
      split at hc
      · rename_i hij
        subst hij
        rcases List.mem_cons.1 hc with rfl | hc
        · exact .inr hunknown
        · exact .inl ⟨hj, hc⟩
      · exact .inl ⟨hj, hc⟩

theorem postponing_getContext (env : Env) (direction : ContextDirection) (current : Value) :
    Postponing (getContext env direction current) := fun s _ t e => by
  obtain ⟨_, _, reader, -, -, h⟩ := getContext_eq_ok e
  rcases h with ⟨-, _, -, -, rfl⟩ | ⟨-, -, -, rfl⟩ | ⟨-, -, -, _, rfl⟩ <;> exact .of_eq rfl rfl

/-- The steps of reading inside of a scope put off what they compare. -/
theorem composes_postponing (env : Env) :
    ComposesInside env (Moves (Postpones fun _ => False)) :=
  composesInside_of_moves (fun _ _ _ _ _ => .of_eq) .trans
    (fun direction => postponing_getContext env direction _) postponing_checkBound

/-! ### Scopes -/

/-- A field that was not known is entered. -/
theorem postpones_enter {k : Nat} {v : Option Int} (hk : (s.scopeAt i).get? k = none) :
    Postpones (· = i) s { s with scopes := enter s.scopes i k v } := by
  have hsize : (enter s.scopes i k v).size = s.scopes.size := by cases v <;> simp [enter]
  refine ⟨Nat.le_of_eq hsize.symm, fun j _ hne => ?_, fun j hj k' w hw => ?_, fun _ _ _ h => h,
    fun j hj _ c hc => .inl ⟨hsize ▸ hj, hc⟩⟩
  · cases v with
    | none => rfl
    | some v => simp [enter, State.scopeAt, Array.getElem?_modify, Ne.symm hne]
  · by_cases hji : j = i
    · subst hji
      rw [Lockstep.get?_scopeAt_enter hj]
      split
      · rename_i hkk
        rw [hkk.2, hk] at hw
        exact absurd hw (by simp)
      · exact hw
    · cases v with
      | none => exact hw
      | some v => simpa [enter, State.scopeAt, Array.getElem?_modify, Ne.symm hji] using hw

/-- An action that completes a scope. -/
def Concluding (y : Site ScopeId → Unmarshalling Value) : Prop :=
  ∀ site s v t, site.scope < s.scopes.size → (∀ k, (s.scopeAt site.scope).get? k = none) →
    y site s = .ok v t → Concludes site.scope s t

/-- A struct opens a scope, and leaves none open. -/
theorem Concluding.openStruct {y : Site ScopeId → Unmarshalling Value} (hy : Concluding y)
    (count : Nat) (site : Site ScopeId) : Postponing (openStruct count site >>= y) := by
  intro s v t e
  obtain ⟨inner, s1, h1, e⟩ := bind_eq_ok.1 e
  obtain ⟨scope, _, h2, h3⟩ := bind_eq_ok.1 h1
  obtain ⟨rfl, rfl⟩ := openScope_eq_ok.1 h2
  obtain ⟨rfl, rfl⟩ := pure_eq_ok.1 h3
  refine Concludes.postpones (hy _ _ v t (by simp) (fun k => ?_) e)
  simp only [State.scopeAt, Array.getElem?_push_size, Option.getD_some, Scope.get?,
    Array.getElem?_replicate]
  split <;> rfl

/-- What is read ahead of the fields makes no difference. -/
theorem Concluding.behind {x : Unmarshalling β} {f : β → Site ScopeId → Unmarshalling Value}
    (hx : Postponing x) (hf : ∀ b, Concluding (f b)) : Concluding fun site => x >>= (f · site) := by
  intro site s v t hsite hopen e
  obtain ⟨b, u, h, e⟩ := bind_eq_ok.1 e
  have hstep := hx h
  refine hstep.concludes (hf b site u v t (Nat.lt_of_lt_of_le hsite hstep.size) (fun k => ?_) e)
  rw [hstep.same _ hsite not_false]
  exact hopen k

section Structs

variable {walk last : Walk} {site : Site ScopeId} {layout index : Nat} {ds : List Descriptor}
  {slots out : Array Value}

variable (hw : ∀ d site, Postponing (walk d site)) (hl : ∀ d site, Postponing (last d site))

include hw hl

/-- Fields fill the scope of their struct, each once. -/
theorem postpones_getFields (hsite : site.scope < s.scopes.size)
    (hopen : ∀ k, index ≤ k → (s.scopeAt site.scope).get? k = none)
    (e : getFields env walk last layout site index ds slots s = .ok out t) :
    Postpones (· = site.scope) s t := by
  induction ds generalizing index slots s with
  | nil => exact (pure_eq_ok.1 e).2 ▸ .refl _ _
  | cons d ds ih =>
    obtain ⟨walk', v, u, hwalk, hread, e⟩ := getFields_cons_eq_ok e
    have hstep : Postpones (fun _ => False) s u := by
      rcases hwalk with rfl | rfl
      · exact hw d site hread
      · exact hl d site hread
    have hfirst : Postpones (· = site.scope) s u := hstep.mono fun _ => False.elim
    have hsite' := Nat.lt_of_lt_of_le hsite hstep.size
    have hscope := hstep.same _ hsite not_false
    rcases e with ⟨slot, -, e⟩ | e
    · have henter := postpones_enter (s := u) (i := site.scope) (v := v.toInt?)
        (by rw [hscope]; exact hopen index (Nat.le_refl _))
      refine (hfirst.trans henter).trans (ih (Nat.lt_of_lt_of_le hsite' henter.size) ?_ e)
      intro k hk
      rw [Lockstep.get?_scopeAt_enter hsite', if_neg fun h => absurd h.2 (Nat.ne_of_gt hk), hscope]
      exact hopen k (Nat.le_of_succ_le hk)
    · exact hfirst.trans (ih hsite' (fun k hk => by rw [hscope]; exact hopen k hk) e)

/-- The fields of a struct complete its scope. -/
theorem concluding_getBody (align layout count : Nat) (fields : List Descriptor) :
    Concluding (getBody env walk last align layout count fields) := by
  refine Concluding.behind ((composes_postponing env).align _) fun _ site s v t hsite hopen e => ?_
  obtain ⟨slots, s2, h2, e⟩ := bind_eq_ok.1 e
  obtain ⟨_, s3, h3, e⟩ := bind_eq_ok.1 e
  obtain ⟨-, rfl⟩ := pure_eq_ok.1 e
  obtain ⟨hverified, rfl⟩ := verifyLate_eq_ok.1 h3
  exact ⟨s2, postpones_getFields hw hl hsite (fun k _ => hopen k) h2, hverified, rfl⟩

omit hl

theorem postponing_getArray (m : Modifiers) (kind : ArrayKind) (dims definition : Nat)
    (site : Site ScopeId) (preset : Option (List Nat)) :
    Postponing (getArray env walk m kind dims definition site preset) :=
  (composes_postponing env).toRelatesUnscoped.getArray (relatesWalks hw) (.refl env _)
    (fun _ _ _ _ => trivial) rfl (fun _ _ => trivial) m dims site preset

theorem postponing_getTail (extents : List Nat) (levels : Nat) (d : Descriptor)
    (site : Site ScopeId) : Postponing (getTail env walk extents levels d site) := by
  induction levels generalizing d site with
  | zero =>
    unfold getTail
    cases d.form with
    | array => exact Moves.ite (postponing_getArray hw _ _ _ _ _ _) (hw _ _)
    | struct => exact Moves.ite (hw _ _) (.throw _)
    | _ => exact hw _ _
  | succ levels ih =>
    unfold getTail
    cases d.form with
    | array => exact Moves.ite (postponing_getArray hw _ _ _ _ _ _) (hw _ _)
    | struct =>
      have hC := composes_postponing env
      refine Moves.ite (hw _ _) (hC.andThen (hC.lift _) fun s => hC.andThen (hC.lift _) fun _ => ?_)
      exact (concluding_getBody hw ih _ _ _ _).openStruct _ _
    | _ => exact hw _ _

theorem postponing_getStruct (kind : StructKind) (definition : Nat) (site : Site ScopeId) :
    Postponing (getStruct env walk kind definition site) := by
  have hC := composes_postponing env
  refine hC.andThen (hC.lift _) fun d => hC.andThen (hC.lift _) fun count =>
    Concluding.openStruct ?_ _ _
  split
  · exact concluding_getBody hw hw _ _ _ _
  · exact .behind (hC.lift _) fun _ => .behind (hC.getExtents (.refl env) _ _)
      fun _ => concluding_getBody hw (postponing_getTail hw _ _) _ _ _ _

theorem postponing_getNested (align layout : Nat) (fields : List Descriptor)
    (site : Site ScopeId) : Postponing (getNested env walk align layout fields site) :=
  (composes_postponing env).andThen ((composes_postponing env).lift _) fun _ =>
    (concluding_getBody hw hw _ _ _ _).openStruct _ _

end Structs

/-! ### Walks -/

/-- Every walk leaves the scopes as they are that were open before, and forgets no bound of them. -/
theorem postponing_walk (room : Nat) (d : Descriptor) (site : Site ScopeId) :
    Postponing (walk env room d site) :=
  (composes_postponing env).walk postponing_getStruct postponing_getNested room d site

/-! ### Operations -/

/-- Parameters fill their scope, each once. -/
theorem postpones_readParameters {params : List Value} {list : List Parameter}
    {values : List (Nat × Value)} (hnodup : (list.map Parameter.index).Nodup)
    (hi : i < s.scopes.size) (hopen : ∀ p ∈ list, (s.scopeAt i).get? p.index = none)
    (e : list.mapM (readParameter env params i) s = .ok values t) : Postpones (· = i) s t := by
  induction list generalizing s values with
  | nil =>
    rw [List.mapM_nil] at e
    exact (pure_eq_ok.1 e).2 ▸ .refl _ _
  | cons p list ih =>
    rw [List.mapM_cons] at e
    obtain ⟨_, s3, h1, e⟩ := bind_eq_ok.1 e
    obtain ⟨_, _, h2, e⟩ := bind_eq_ok.1 e
    obtain ⟨-, rfl⟩ := pure_eq_ok.1 e
    obtain ⟨current, w, s1, s2, -, hread, hflush, -, rfl⟩ := readParameter_eq_ok h1
    have hC := composes_postponing env
    have hstep := (hC.getParameter (postponing_walk _) _ current _
      (fun direction _ => postponing_getContext env direction current) hread).trans
        (hC.flush (postponing_walk _) hflush)
    have hi2 := Nat.lt_of_lt_of_le hi hstep.size
    have hscope := hstep.same i hi not_false
    have henter := postpones_enter (s := s2) (i := i) (v := correlationOf s2.heap w)
      (by rw [hscope]; exact hopen p List.mem_cons_self)
    rw [List.map_cons, List.nodup_cons] at hnodup
    refine ((hstep.mono fun _ => False.elim).trans henter).trans
      (ih hnodup.2 (Nat.lt_of_lt_of_le hi2 henter.size) (fun q hq => ?_) h2)
    have hne : q.index ≠ p.index := fun h => hnodup.1 (h ▸ List.mem_map_of_mem hq)
    rw [Lockstep.get?_scopeAt_enter hi2, if_neg fun h => hne h.2, hscope]
    exact hopen q (List.mem_cons_of_mem _ hq)

/-- An operation completes the scope of its parameters. -/
theorem concludes_getParameters {offset : Nat} {params : List Value} {values : List (Nat × Value)}
    {list : List Parameter} (hlist : env.vector.parameters offset = .ok list)
    (hnodup : (list.map Parameter.index).Nodup)
    (e : getParameters env offset params s = .ok values t) :
    Concludes s.scopes.size
      { s with scopes := s.scopes.push (parameterScope s.heap list params) } t := by
  obtain ⟨list', u, hlist', hread, hverified, rfl⟩ := getParameters_eq_ok e
  obtain rfl := Except.ok.inj (hlist.symm.trans hlist')
  refine ⟨u, postpones_readParameters hnodup (by simp) (fun p hp => ?_) hread, hverified, rfl⟩
  simp only [State.scopeAt, Array.getElem?_push_size, Option.getD_some]
  exact Lockstep.get?_parameterScope ⟨p, hp, rfl⟩

/-- **No bound is lost but one without a field.** Once an operation has succeeded, whatever still waits
to be compared is a bound by a field that its scope never had, and its scope is not that of the
parameters. -/
theorem unknown_of_due {offset : Nat} {params : List Value} {values : List (Nat × Value)}
    {list : List Parameter} (hlist : env.vector.parameters offset = .ok list)
    (hnodup : (list.map Parameter.index).Nodup) (hs : s.scopes = #[])
    (e : getParameters env offset params s = .ok values t) (hc : c ∈ t.due i) :
    c.Unknown (t.scopeAt i) ∧ i ≠ 0 := by
  have hconcludes := concludes_getParameters hlist hnodup e
  have hsize : s.scopes.size = 0 := by rw [hs]; rfl
  refine ⟨?_, fun hi => ?_⟩
  · rcases Nat.lt_or_ge i t.scopes.size with hi | hi
    · exact (hconcludes.postpones.unknown i hi not_false c hc).resolve_left fun h =>
        Nat.not_lt_zero _ (hsize ▸ h.1)
    · -- there is no such scope
      simp [LateCheck.Unknown, State.scopeAt, Array.getElem?_eq_none hi, Scope.get?]
  · rw [hi, ← hsize, hconcludes.due_eq_nil] at hc
    exact absurd hc List.not_mem_nil

/-- **Whatever an operation reads of a bound agrees with its field**, if the field comes. -/
theorem verify_of_heeds {offset : Nat} {params : List Value} {values : List (Nat × Value)}
    {list : List Parameter} (hlist : env.vector.parameters offset = .ok list)
    (hnodup : (list.map Parameter.index).Nodup) (hs : s.scopes = #[])
    (e : getParameters env offset params s = .ok values t) (hc : t.Heeds i c)
    (hknown : ¬c.Unknown (t.scopeAt i)) : c.verify (t.scopeAt i) = .ok () :=
  hc.resolve_right fun hdue => hknown (unknown_of_due hlist hnodup hs e hdue).1

end Unmarshal

end Ndr
