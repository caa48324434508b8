import Ndr.Proofs.Conversions.Level
import Ndr.Proofs.Conversions.Record
import Ndr.Proofs.Marshal.Composition
import Ndr.Proofs.Unmarshal.Composition

/-!
Every value of the wire that a routine makes, and every one that a routine is given, is released exactly
once, whether the operation succeeds or fails at any point. The steps of an operation call no routine,
but for conversions and for the release of host values; so the calls of every walk are balanced, by
induction on how deep descriptors may open one within another.
-/

namespace Ndr

open Routine (Call Balanced)

variable {σ α β : Type} {interface : Interface} {depth : Nat} {calls : σ → List Call}

/-- However an action ends, the calls are balanced that it leaves behind. -/
def Balances (interface : Interface) (depth : Nat) (calls : σ → List Call)
    (x : EStateM Fault σ α) : Prop :=
  Proceeds (fun s _ t => ∃ made, calls t = made ++ calls s ∧ Balanced interface depth (calls s) made) x

namespace Balances

/-- An action that calls no routine. -/
theorem silent {x : EStateM Fault σ α} (h : ∀ c, Keeps (fun s => calls s = c) (fun _ => True) x) :
    Balances interface depth calls x := by
  intro s
  have hends := h _ s rfl
  cases e : x s with
  | ok a t => rw [e] at hends; exact ⟨[], hends.1, .none⟩
  | error f t => rw [e] at hends; exact ⟨[], hends, .none⟩

theorem lift (x : Except Fault α) :
    Balances interface depth calls (liftM x : EStateM Fault σ α) := silent fun _ => (Keeps.lift x).weaken

theorem bind {x : EStateM Fault σ α} {f : α → EStateM Fault σ β}
    (hx : Balances interface depth calls x) (hf : ∀ a, Balances interface depth calls (f a)) :
    Balances interface depth calls (x >>= f) := by
  refine Proceeds.bind ?_ hx hf
  rintro s t u e ⟨first, ht, hfirst⟩ ⟨later, hu, hlater⟩
  exact ⟨later ++ first, by rw [hu, ht, List.append_assoc], hfirst.onward (ht ▸ hlater)⟩

/-- What follows a computation may count on its result. -/
theorem lift_bind {x : Except Fault α} {f : α → EStateM Fault σ β}
    (h : ∀ a, x = .ok a → Balances interface depth calls (f a)) :
    Balances interface depth calls (liftM x >>= f) := by
  cases x with
  | ok a => exact h a rfl
  | error e => exact silent fun _ => .throw e

/-- A check ahead of an action. -/
theorem check {c : Prop} [Decidable c] {e : Fault} {f : PUnit → EStateM Fault σ α}
    (h : Balances interface depth calls (f ⟨⟩)) :
    Balances interface depth calls (if c then MonadExcept.throw e >>= f else f ⟨⟩) := by
  split
  · exact silent fun _ => .throw e
  · exact h

theorem see {f : σ → EStateM Fault σ α} (hf : ∀ s, Balances interface depth calls (f s)) :
    Balances interface depth calls (get >>= f) := fun s => hf s s

theorem onPart {τ : Type} {get : σ → τ} {set : σ → τ → σ} (h : ∀ s t, calls (set s t) = calls s)
    (x : EStateM Fault τ α) : Balances interface depth calls (onPart get set x) :=
  silent fun _ => Keeps.onPart (fun s t hs => (h s t).trans hs) x

theorem mono {x : EStateM Fault σ α} (h : Balances interface depth calls x) {depth' : Nat}
    (hle : depth ≤ depth') : Balances interface depth' calls x := fun s => (h s).mono
  (fun _ _ ⟨made, ht, hmade⟩ => ⟨made, ht, hmade.mono hle⟩)
  fun _ _ ⟨made, ht, hmade⟩ => ⟨made, ht, hmade.mono hle⟩

end Balances

/-! ### Writing -/

namespace Marshal

variable {env : Env} {walk : Walk} {site : Site Scope}

abbrev Balancing (env : Env) (depth : Nat) (x : Marshalling α) : Prop :=
  Balances env.interface depth State.calls x

theorem balances_put (x : Put α) : Balancing env depth (put x) := by
  unfold put
  apply Balances.onPart
  intro s part
  rfl

theorem balances_onPipe (h : PipeHandle) (x : EStateM Fault Pipe α) :
    Balancing env depth (onPipe h x) := by
  unfold onPipe
  apply Balances.onPart
  intro s part
  rfl

theorem relates_balances (env : Env) (depth : Nat) :
    RelatesNodes env env (fun _ => True) fun x _ => Balancing env depth x where
  pure _ := .silent fun _ => .pure trivial
  throw e := .silent fun _ => .throw e
  bind := .bind
  align _ := balances_put _
  count _ := balances_put _
  shortCount _ := balances_put _
  scalar _ _ := balances_put _
  run _ := balances_put _
  token _ := .bind (balances_put _) fun _ => .bind (balances_put _) fun _ =>
    .bind (balances_put _) fun _ => .bind (balances_put _) fun _ => balances_put _
  sight _ := .silent fun _ => Keeps.get.bind fun _ _ => (Keeps.lift _).bind fun _ _ =>
    Keeps.bind (Keeps.modify fun _ h => h) fun _ _ => .pure trivial
  defer _ := .silent fun _ => Keeps.modify fun _ h => h
  takeDeferred hf := .bind (.silent fun _ => Keeps.modifyGet fun _ h => ⟨h, trivial⟩)
    fun ds => hf ds fun _ _ => trivial

/-- A converted value is released however its writing ends. -/
theorem balances_putConverted (index wire : Nat) (v : Value)
    (hw : ∀ d w, Balancing env depth (walk d w { site with conversions := site.conversions + 1 })) :
    Balancing env (depth + 1) (putConverted env walk index wire v site) := by
  unfold putConverted
  refine .lift_bind fun routine hroutine => .bind (.lift _) fun d => .check fun s => ?_
  show Lands _ _ (putMade walk index v d site (routine.toWire s.calls v) s)
  cases hmade : routine.toWire s.calls v with
  | error e => exact ⟨_, rfl, .refused hroutine hmade⟩
  | ok w =>
    have hlands := hw d w { s with calls := .toWire index v true :: s.calls }
    show Lands _ _ (tryFinally (walk d w _) (recordCall (.freeWire index w))
      { s with calls := .toWire index v true :: s.calls })
    unfold recordCall
    rw [tryFinally_modify]
    have hreleased : ∀ t : State, (∃ made, t.calls = made ++ .toWire index v true :: s.calls ∧
        Balanced env.interface depth (.toWire index v true :: s.calls) made) →
        ∃ made, .freeWire index w :: t.calls = made ++ s.calls ∧
          Balanced env.interface (depth + 1) s.calls made := by
      rintro t ⟨inner, ht, hinner⟩
      exact ⟨_, by rw [ht]; simp, .sent hroutine hmade hinner⟩
    generalize walk d w _ _ = r at hlands
    cases r with
    | ok a t => exact hreleased t hlands
    | error e t => exact hreleased t hlands

/-- The walk as it goes within `level` open conversions, whatever the place says. -/
def atLevel (level : Nat) (walk : Walk) : Walk :=
  fun d v site => walk d v { site with conversions := level }

theorem agreeAt_atLevel (level : Nat) (walk : Walk) : AgreeAt level walk (atLevel level walk) := by
  rintro d v site rfl
  rfl

/-- A form leaves balanced calls, where the walks do that it visits within. -/
theorem balances_putForm (d : Descriptor) (v : Value)
    (hw : ∀ e w place, place.conversions = site.conversions + d.opens →
      Balancing env (env.config.maxConversions - place.conversions) (walk e w place)) :
    Balancing env (env.config.maxConversions - site.conversions) (putForm env walk d v site) := by
  have hR := relates_balances env (env.config.maxConversions - site.conversions)
  have hlevel : RelatesWalks (fun _ _ => True)
      (fun x _ => Balancing env (env.config.maxConversions - site.conversions) x)
      (atLevel (site.conversions + d.opens) walk) (atLevel (site.conversions + d.opens) walk) := by
    intro e w place _
    exact (hw e w { place with conversions := _ } rfl).mono (by dsimp only; omega)
  have hN : ∀ ⦃b : Bool⦄ ⦃d e⦄, True → env.vector.Embeds d e → True := fun _ _ _ _ _ => trivial
  rw [putForm_agree (agreeAt_atLevel _ walk)]
  refine hR.toRelatesSilent.putForm hlevel (.refl env _) hN (.refl _ _) (fun _ _ => trivial) v
    ?_ ?_ ?_ ?_
  · intro kind props pointee _
    exact hR.putPointer hlevel (.refl env) rfl (fun _ _ => trivial) trivial kind v site
  · intro kind props index wire hform
    by_cases hlimit : env.config.maxConversions ≤ site.conversions
    · rw [putConverted_tooDeep hlimit]
      exact .lift _
    have hopens : d.opens = 1 := by
      unfold Descriptor.opens
      rw [hform]
    have hinner : ∀ e w, Balancing env (env.config.maxConversions - (site.conversions + d.opens))
        (atLevel (site.conversions + d.opens) walk e w
          { site with conversions := site.conversions + 1 }) :=
      fun e w => hw e w { site with conversions := site.conversions + d.opens } rfl
    exact (balances_putConverted index wire v hinner).mono (by omega)
  · intro props element _
    exact hR.toRelatesSilent.putPipe _ (atLevel (site.conversions + d.opens) walk) rfl v site
      fun _ h e _ _ => hR.toRelatesSilent.putStream hlevel (.refl env) trivial (balances_onPipe h)
  · intro _
    exact hR.putDeleted rfl

/-- The calls of every walk are balanced, and nest no deeper than the limit lets them where it starts. -/
theorem balances_walk (room : Nat) (d : Descriptor) (v : Value) (site : Site Scope) :
    Balancing env (env.config.maxConversions - site.conversions) (Marshal.walk env room d v site) := by
  induction room generalizing d v site with
  | zero => exact .silent fun _ => .throw _
  | succ room ih =>
    refine .bind (balances_putForm d v fun e w place _ => ih e w place) fun _ => ?_
    cases d.modifiers.freeRep with
    | none => exact .silent fun _ => .pure trivial
    | some routine =>
      exact .bind (.lift _) fun _ s => ⟨[.freeInstance routine v], rfl, .freed routine v⟩

/-- The calls of an operation that writes are balanced. -/
theorem balances_putParameters (env : Env) (offset : Nat) (params : List Value) :
    Balancing env env.config.maxConversions (putParameters env offset params) := by
  have hR := relates_balances env env.config.maxConversions
  have hw : ∀ room, RelatesWalks (fun _ _ => True)
      (fun x _ => Balancing env env.config.maxConversions x) (Marshal.walk env room)
      (Marshal.walk env room) :=
    fun room d v site _ => (balances_walk room d v site).mono (Nat.sub_le _ _)
  exact hR.toRelatesSilent.putParameters (.refl env) hw rfl (fun _ _ _ _ => trivial) fun room =>
    hR.flush (hw room) (.refl env _) fun _ _ => ⟨rfl, fun _ _ => trivial⟩

end Marshal

/-! ### Reading -/

namespace Unmarshal

variable {env : Env} {walk : Walk} {site : Site ScopeId}

abbrev Balancing (env : Env) (depth : Nat) (x : Unmarshalling α) : Prop :=
  Balances env.interface depth State.calls x

theorem balances_modify {f : State → State} (h : ∀ s, (f s).calls = s.calls) :
    Balancing env depth (modify f : Unmarshalling PUnit) :=
  .silent fun _ => Keeps.modify fun s hs => (h s).trans hs

theorem balances_fetch (x : Fetch α) : Balancing env depth (fetch x) := by
  unfold fetch
  apply Balances.onPart
  intro s part
  rfl

theorem balances_onPipe (h : PipeHandle) (x : EStateM Fault Pipe α) :
    Balancing env depth (onPipe h x) := by
  unfold onPipe
  apply Balances.onPart
  intro s part
  rfl

theorem balances_scopeOf (id : ScopeId) : Balancing env depth (scopeOf id) :=
  .see fun _ => .silent fun _ => .pure trivial

theorem balances_getContext (direction : ContextDirection) (current : Value) :
    Balancing env depth (getContext env direction current) := by
  have hadopt : ∀ (registry : Registry) held u, Balancing env depth (adoptContext registry held u) := by
    intro registry held u
    unfold adoptContext
    split
    · exact .bind (balances_modify fun _ => rfl) fun _ => .silent fun _ => .pure trivial
    · dsimp only
      split
      · exact .bind (balances_modify fun _ => rfl) fun _ => .silent fun _ => .pure trivial
      · exact .silent fun _ => .pure trivial
  rw [getContext_eq]
  refine .see fun s => ?_
  cases s.contexts with
  | none => exact .silent fun _ => .throw _
  | some registry =>
    refine .bind (balances_fetch _) fun u => ?_
    cases env.side with
    | server => exact .bind (.lift _) fun _ => .silent fun _ => .pure trivial
    | client => exact .bind (hadopt _ _ _) fun _ => .silent fun _ => .pure trivial

theorem relates_balances (env : Env) (depth : Nat) :
    RelatesUncalled env (fun _ => True) (fun _ => True) fun x _ => Balancing env depth x where
  pure _ := .silent fun _ => .pure trivial
  throw e := .silent fun _ => .throw e
  bind := .bind
  align _ := balances_fetch _
  count := balances_fetch _
  shortCount := balances_fetch _
  scalar _ := balances_fetch _
  run _ := balances_fetch _
  context := balances_getContext
  openScope _ := .silent fun _ => Keeps.modifyGet fun _ h => ⟨h, trivial⟩
  setField _ _ v := by
    cases v with
    | none => exact .silent fun _ => .pure trivial
    | some v => exact balances_modify fun _ => rfl
  scopeOf := balances_scopeOf
  keepLate _ _ := balances_modify fun _ => rfl
  verifyLate scope := .see fun _ => .bind (balances_modify fun _ => rfl) fun _ =>
    .bind (balances_scopeOf scope) fun _ => .silent fun _ =>
      Keeps.forM (P := fun _ => True) (fun _ _ => (Keeps.lift _).weaken) fun _ _ => trivial
  seeHeap hf := .see fun s => hf s.heap
  store _ _ := .silent fun _ => Keeps.get.bind fun _ _ => .ite (Keeps.modify fun _ h => h) (.throw _)
  takeDeferred hf := .bind (.silent fun _ => Keeps.modifyGet fun _ h => ⟨h, trivial⟩)
    fun ds => hf ds fun _ _ => ⟨trivial, trivial⟩
  allocate hf := .bind (.silent fun _ => Keeps.get.bind fun _ _ => (Keeps.lift _).bind fun _ _ =>
    Keeps.get.bind fun _ _ => Keeps.bind (Keeps.modify fun _ h => h) fun _ _ => .pure trivial)
    fun c => hf c trivial
  register _ _ := .silent fun _ => Keeps.get.bind fun _ _ => (Keeps.lift _).bind fun _ _ =>
    Keeps.modify fun _ h => h
  sight _ := balances_modify fun _ => rfl
  defer _ _ := balances_modify fun _ => rfl
  seeNodes hf := .see fun s => hf s.nodes

theorem balances_getDeleted (env : Env) (depth : Nat) : Balancing env depth (getDeleted env) :=
  (relates_balances env depth).toRelatesSilent.getDeleted fun _ => balances_modify fun _ => rfl

/-- A value that was read is released whatever its routine makes of it. -/
theorem balances_getConverted (index wire : Nat)
    (hw : ∀ d, Balancing env depth (walk d { site with conversions := site.conversions + 1 })) :
    Balancing env (depth + 1) (getConverted env walk index wire site) := by
  unfold getConverted
  refine .lift_bind fun routine hroutine => .bind (.lift _) fun d => .check fun s => ?_
  refine Lands.bind (P := fun _ t => ∃ inner, t.calls = inner ++ s.calls ∧
    Balanced env.interface depth s.calls inner) ((hw d s).mono (fun _ _ h => h) ?_) ?_
  · rintro e t ⟨inner, ht, hinner⟩
    exact ⟨inner, ht, hinner.mono (Nat.le_succ _)⟩
  · rintro w t ⟨inner, ht, hinner⟩
    have hbalanced : ∃ made, .freeWire index w ::
        .fromWire index w (Routine.succeeded (routine.fromWire t.calls w)) :: t.calls = made ++ s.calls ∧
          Balanced env.interface (depth + 1) s.calls made := by
      rw [ht]
      exact ⟨_, rfl, .received hroutine hinner⟩
    show Lands _ _ ((liftM (routine.fromWire t.calls w) : Unmarshalling Value) _)
    cases hresult : routine.fromWire t.calls w with
    | ok v => rw [hresult] at hbalanced; exact hbalanced
    | error e => rw [hresult] at hbalanced; exact hbalanced

/-- The walk as it goes within `level` open conversions, whatever the place says. -/
def atLevel (level : Nat) (walk : Walk) : Walk :=
  fun d site => walk d { site with conversions := level }

theorem agreeAt_atLevel (level : Nat) (walk : Walk) : AgreeAt level walk (atLevel level walk) := by
  rintro d site rfl
  rfl

/-- A form leaves balanced calls, where the walks do that it visits within. -/
theorem balances_getForm (d : Descriptor)
    (hw : ∀ e place, place.conversions = site.conversions + d.opens →
      Balancing env (env.config.maxConversions - place.conversions) (walk e place)) :
    Balancing env (env.config.maxConversions - site.conversions) (getForm env walk d site) := by
  have hR := relates_balances env (env.config.maxConversions - site.conversions)
  have hlevel : RelatesWalks (fun _ => True)
      (fun x _ => Balancing env (env.config.maxConversions - site.conversions) x)
      (atLevel (site.conversions + d.opens) walk) (atLevel (site.conversions + d.opens) walk) := by
    intro e _ place
    exact (hw e { place with conversions := _ } rfl).mono (by dsimp only; omega)
  have hN : ∀ ⦃d e⦄, True → env.vector.Embeds d e → True := fun _ _ _ _ => trivial
  rw [getForm_agree (agreeAt_atLevel _ walk)]
  refine hR.toRelatesSilent.getForm hlevel (.refl env _) hN (.refl _ _) (fun _ _ => trivial)
    ?_ ?_ site ?_
  · intro kind props pointee _ place
    exact hR.getPointer hlevel (.refl env) trivial rfl (fun _ _ => trivial) kind place
  · intro _
    exact balances_getDeleted env _
  · intro kind props index wire hform
    by_cases hlimit : env.config.maxConversions ≤ site.conversions
    · rw [getConverted_tooDeep hlimit]
      exact .lift _
    have hopens : d.opens = 1 := by
      unfold Descriptor.opens
      rw [hform]
    have hinner : ∀ e, Balancing env (env.config.maxConversions - (site.conversions + d.opens))
        (atLevel (site.conversions + d.opens) walk e
          { site with conversions := site.conversions + 1 }) :=
      fun e => hw e { site with conversions := site.conversions + d.opens } rfl
    exact (balances_getConverted index wire hinner).mono (by omega)

/-- The calls of every walk are balanced, and nest no deeper than the limit lets them where it starts. -/
theorem balances_walk (room : Nat) (d : Descriptor) (site : Site ScopeId) :
    Balancing env (env.config.maxConversions - site.conversions) (Unmarshal.walk env room d site) := by
  induction room generalizing d site with
  | zero => exact .silent fun _ => .throw _
  | succ room ih => exact balances_getForm d fun e place _ => ih e place

/-- The calls of an operation that reads are balanced. -/
theorem balances_getParameters (env : Env) (offset : Nat) (params : List Value) :
    Balancing env env.config.maxConversions (getParameters env offset params) := by
  have hR := relates_balances env env.config.maxConversions
  have hw : ∀ room, RelatesWalks (fun _ => True)
      (fun x _ => Balancing env env.config.maxConversions x) (Unmarshal.walk env room)
      (Unmarshal.walk env room) :=
    fun room d _ site => (balances_walk room d site).mono (Nat.sub_le _ _)
  refine hR.toRelatesSilent.getParameters (.refl env) hw rfl (fun _ _ _ _ => trivial) ?_ fun room => ?_
  · intro d props element _ _ room current site
    refine hR.toRelatesSilent.getPipe _ (Unmarshal.walk env room) rfl current fun h e _ _ => ?_
    exact .bind (balances_onPipe h _) fun _ => .bind (.see fun s =>
      hR.toRelatesSilent.getPieces (hw room) (.refl env) (balances_onPipe h) trivial site.inside _)
      fun _ => .silent fun _ => .pure trivial
  · exact .see fun s => hR.takeDeferred
      (g := getDeferred env (Unmarshal.walk env room) (s.reader.rest.length + 1)) fun ds hds =>
      hR.getDeferred (hw room) (fun _ _ => ⟨rfl, fun _ _ => trivial⟩) _ hds

end Unmarshal

/-! ### Operations -/

namespace Machine

/-- The calls behind those `before` are balanced: every routine releases as many values as it made and
was given, each in its turn, and at no moment more than `limit` values are out. -/
def Releases (interface : Interface) (limit : Nat) (before after : List Call) : Prop :=
  ∃ made, after = made ++ before ∧ Balanced interface limit before made ∧
    (∀ index, made.countP (Call.isFreeWire index)
      = made.countP (Call.isMade index) + made.countP (Call.isFromWire index)) ∧
    Routine.OutWithin limit made

theorem Releases.of_balanced {limit : Nat} {before after : List Call}
    (h : ∃ made, after = made ++ before ∧ Balanced interface limit before made) :
    Releases interface limit before after := by
  obtain ⟨made, hafter, hmade⟩ := h
  exact ⟨made, hafter, hmade, hmade.released, hmade.outWithin⟩

theorem marshal_releases (m : Machine) (world : Surroundings) (offset : Nat) (params : List Value)
    (sink : Sink) : Releases m.interface m.config.maxConversions world.calls
      (m.marshal world offset params sink).surroundings.calls := by
  have hbalanced := Marshal.balances_putParameters { m.startOperation, world with } offset params
    { world with writer := .new sink m.startOperation.config }
  unfold marshal
  dsimp only at hbalanced ⊢
  generalize Marshal.putParameters _ offset params _ = r at hbalanced
  cases r with
  | error e s => exact .of_balanced hbalanced
  | ok a s =>
    dsimp only
    cases Writer.finish s.writer with
    | ok n w => exact .of_balanced hbalanced
    | error e w => exact .of_balanced hbalanced

theorem unmarshal_releases (m : Machine) (world : Surroundings) (offset : Nat) (params : List Value)
    (source : Source) : Releases m.interface m.config.maxConversions world.calls
      (m.unmarshal world offset params source).surroundings.calls := by
  have hbalanced := Unmarshal.balances_getParameters { m.startOperation with } offset params
    { world with reader := { source } }
  unfold unmarshal
  dsimp only at hbalanced ⊢
  generalize Unmarshal.getParameters _ offset params _ = r at hbalanced
  cases r with
  | error e s => exact .of_balanced hbalanced
  | ok a s => exact .of_balanced hbalanced

end Machine

end Ndr
