import Ndr.Proofs.Marshal.Traversal
import Ndr.Proofs.Unmarshal.Invariant

/-!
Operations cannot tell interfaces apart whose vectors say the same about the types that their
parameters lead to: in the same byte order and with the same nodes to delete they do the same.
-/

namespace Ndr

/-! ### Writing -/

namespace Marshal

variable {M : Nat → Prop} {env env' : Env} {offset : Nat}

/-- Only pointees of which `M` holds were put off. -/
def Defers (M : Nat → Prop) (s : State) : Prop := ∀ d ∈ s.deferred, M d.pointee

theorem keeps_defers_put {α : Type} (x : Put α) : Keeps (Defers M) (fun _ => True) (put x) := by
  unfold put
  exact Keeps.onPart (fun _ _ hs d hd => hs d hd) x

/-- The steps of writing put off what they are asked to, and nothing else. -/
theorem relates_agree (hT : env.Twin env') (horder : env'.order = env.order) (M : Nat → Prop) :
    RelatesSteps env env' M fun x y => Agree (Defers M) x y := by
  obtain ⟨vector, integers, deleted, rfl⟩ := hT
  obtain rfl : integers = env.representation.integers := horder
  exact {
    pure := fun _ => .self (.pure trivial)
    throw := fun e => .self (.throw e)
    bind := .bind
    align := fun _ => .self (keeps_defers_put _)
    count := fun _ => .self (keeps_defers_put _)
    shortCount := fun _ => .self (keeps_defers_put _)
    scalar := fun _ _ => .self (keeps_defers_put _)
    run := fun _ => .self (keeps_defers_put _)
    token := fun _ => .bind (.self (keeps_defers_put _)) fun _ => .bind (.self (keeps_defers_put _))
      fun _ => .bind (.self (keeps_defers_put _)) fun _ => .bind (.self (keeps_defers_put _))
      fun _ => .self (keeps_defers_put _)
    onPipe := fun _ _ _ => .self <| by
      unfold onPipe
      exact Keeps.onPart (fun _ _ hs d hd => hs d hd) _
    call := fun _ => .self (Keeps.modify fun _ hs => hs)
    recorded := fun _ hx => hx.tryFinally (Keeps.modify fun _ hs => hs)
    seeCalls := fun h => .see h
    sight := fun _ => .self <| Keeps.get.bind fun _ _ => (Keeps.lift _).bind fun _ _ =>
      Keeps.bind (Keeps.modify fun _ hs => hs) fun _ _ => .pure trivial
    defer := fun hd => .self <| Keeps.modify fun _ hs e he => by
      rcases List.mem_cons.1 he with rfl | he
      · exact hd
      · exact hs e he
    takeDeferred := fun h => by
      have htake : Keeps (Defers M) (fun ds => ∀ d ∈ ds, M d.pointee) takeDeferred :=
        Keeps.modifyGet fun _ hs => ⟨by simp [Defers], fun d hd => hs d (List.mem_reverse.1 hd)⟩
      exact (Agree.self htake.weaken).bind_of htake h }

/-- Parameters are written in the same way along vectors that say the same about them. -/
theorem putParameters_alike (env env' : Env)
    (hlist : env'.vector.parameters offset = env.vector.parameters offset)
    (horder : env'.order = env.order)
    (hE : ∀ list, env.vector.parameters offset = .ok list →
      env.Alike env' fun _ => env.vector.Reached list)
    (hdeleted : ∀ list d, env.vector.parameters offset = .ok list → env.vector.Reached list d →
      d.form = .deletedNodes → env'.deleted = env.deleted)
    (params : List Value) {s : State} (hs : s.deferred = []) :
    putParameters env offset params s = putParameters env' offset params s := by
  cases hfound : env.vector.parameters offset with
  | error e =>
    have herror : ∀ {env : Env}, env.vector.parameters offset = .error e →
        putParameters env offset params s = .error e s := fun h => bind_of_error (by rw [h]; rfl) _
    rw [herror hfound, herror (hlist.trans hfound)]
  | ok list =>
    have hE := hE list hfound
    let M (p : Nat) : Prop := env'.vector.stream p = env.vector.stream p ∧
      ∀ e, env.vector.stream p = .ok e → env.vector.Reached list e
    have hN := (env.vector.closed_reached list).atHand
    have hR := relates_agree hE.twin horder M
    have hdel : ∀ (_ : Bool) d, env.vector.Reached list d → d.form = .deletedNodes →
        Agree (Defers M) (putDeleted env) (putDeleted env') := by
      intro _ d hd hform
      unfold putDeleted
      rw [hdeleted list d hfound hd hform]
      exact hR.check (f := fun _ => do
        putCount env env.deleted.length
        env.deleted.forM (putCount env)) (g := fun _ => do
        putCount env' env.deleted.length
        env.deleted.forM (putCount env'))
        (hR.bind (hR.count _) fun _ => hR.forM fun _ _ => hR.count _)
    have hpointer : ∀ {walk walk' : Walk},
        RelatesWalks (fun _ => env.vector.Reached list) (fun x y => Agree (Defers M) x y) walk walk' →
          ∀ {d kind props pointee} {site : Site Scope}, env.vector.Reached list d →
            d.form = .pointer kind props pointee → ∀ v,
              Agree (Defers M) (putPointer env walk kind pointee v site)
                (putPointer env' walk' kind pointee v site) := by
      intro walk walk' hw d kind props pointee site hd hform v
      have hsame := (hE.same (b := true) hd).pointee hform
      have hpointee : ∀ e, env.vector.stream pointee = .ok e → env.vector.Reached list e :=
        fun e he => hd.step (.pointee hform he)
      exact hR.putPointer hw hE.twin hsame hpointee ⟨hsame, hpointee⟩ _ v _
    have hagree : Agree (Defers M) (putParameters env offset params)
        (putParameters env' offset params) := hR.putParameters hE hN hdel hpointer hlist
      (fun list' hlist' p hp => by
        obtain rfl := Except.ok.inj (hfound.symm.trans hlist')
        exact .parameter hp)
      fun room => hR.flush (hR.walk hE hN hdel hpointer room) hE fun _ hp => hp
    exact (hagree s (by simp [Defers, hs])).1

end Marshal

/-! ### Reading -/

namespace Unmarshal

variable {M : Nat → Prop} {D : List Nat → Prop} {env env' : Env} {offset : Nat}

/-- Only pointees of which `M` holds were put off, and `D` holds of the nodes that were deleted. -/
structure Defers (M : Nat → Prop) (D : List Nat → Prop) (s : State) : Prop where
  deferred : ∀ d ∈ s.deferred, M d.pointee
  deleted : D s.deleted

theorem Defers.of_eq {s t : State} (h : Defers M D s) (hd : t.deferred = s.deferred)
    (hn : t.deleted = s.deleted) : Defers M D t := ⟨hd ▸ h.deferred, hn ▸ h.deleted⟩

theorem Defers.frame (s t : State) (he : t.effect = s.effect) (hs : Defers M D s) :
    Defers M D t := by
  simp only [State.effect, Prod.mk.injEq] at he
  exact hs.of_eq he.2.2.1 he.2.2.2.2

theorem keeps_defers_modify {f : State → State}
    (h : ∀ s, (f s).deferred = s.deferred ∧ (f s).deleted = s.deleted) :
    Keeps (Defers M D) (fun _ => True) (modify f : Unmarshalling PUnit) :=
  Keeps.modify fun s hs => hs.of_eq (h s).1 (h s).2

/-- The steps of reading put off what they are asked to, and delete nothing. -/
theorem relates_agree (env : Env) (M : Nat → Prop) (D : List Nat → Prop) :
    RelatesSteps env (fun _ => True) M fun x y => Agree (Defers M D) x y where
  pure _ := .self (.pure trivial)
  throw e := .self (.throw e)
  bind := .bind
  align _ := .self (holds_fetch_of_frame Defers.frame _)
  count := .self (holds_fetch_of_frame Defers.frame _)
  shortCount := .self (holds_fetch_of_frame Defers.frame _)
  scalar _ := .self (holds_fetch_of_frame Defers.frame _)
  run _ := .self (holds_fetch_of_frame Defers.frame _)
  context direction current := .self (holds_getContext_of_frame Defers.frame env direction current)
  onPipe _ _ _ := .self <| by
    unfold onPipe
    exact Keeps.onPart (fun _ _ hs => hs.of_eq rfl rfl) _
  call _ := .self (keeps_defers_modify fun _ => ⟨rfl, rfl⟩)
  openScope _ := .self (Keeps.modifyGet fun _ hs => ⟨hs.of_eq rfl rfl, trivial⟩)
  setField _ _ v := .self <| by
    cases v with
    | none => exact .pure trivial
    | some v => exact keeps_defers_modify fun _ => ⟨rfl, rfl⟩
  scopeOf id := .self (holds_scopeOf id)
  keepLate _ _ := .self (keeps_defers_modify fun _ => ⟨rfl, rfl⟩)
  verifyLate scope := .self <| Keeps.get.bind fun _ _ =>
    Keeps.bind (keeps_defers_modify fun _ => ⟨rfl, rfl⟩) fun _ _ =>
      (holds_scopeOf scope).bind fun _ _ =>
        Keeps.forM (P := fun _ => True) (fun _ _ => (Keeps.lift _).weaken) fun _ _ => trivial
  seeHeap h := .see h
  seeCalls h := .see h
  seeNodes h := .see h
  store _ _ := .self (holds_store_of_frame (fun _ _ _ hd hn hs => hs.of_eq hd hn) _ _)
  takeDeferred h := by
    have htake : Keeps (Defers M D) (fun ds => ∀ d ∈ ds, True ∧ M d.pointee) takeDeferred :=
      Keeps.modifyGet fun _ hs => ⟨⟨by simp, hs.deleted⟩, fun d hd =>
        ⟨trivial, hs.deferred d (List.mem_reverse.1 hd)⟩⟩
    exact (Agree.self htake.weaken).bind_of htake h
  allocate h :=
    (Agree.self (holds_allocate_of_frame fun _ _ _ hd hn hs => hs.of_eq hd hn)).bind
      fun c => h c trivial
  register _ _ := .self <| Keeps.get.bind fun _ _ => (Keeps.lift _).bind fun _ _ =>
    keeps_defers_modify fun _ => ⟨rfl, rfl⟩
  sight _ := .self (keeps_defers_modify fun _ => ⟨rfl, rfl⟩)
  defer _ he := .self <| Keeps.modify fun _ hs => ⟨fun d hd => by
    rcases List.mem_cons.1 hd with rfl | hd
    · exact he
    · exact hs.deferred d hd, hs.deleted⟩

/-- Parameters are read in the same way along vectors that say the same about them, and `D` holds
of the nodes deleted where it does wherever ids of deleted nodes are read. -/
theorem getParameters_alike (env env' : Env)
    (hlist : env'.vector.parameters offset = env.vector.parameters offset)
    (hE : ∀ list, env.vector.parameters offset = .ok list →
      env.Alike env' (env.vector.Reached list))
    (hdeleted : ∀ list d, env.vector.parameters offset = .ok list → env.vector.Reached list d →
      d.form = .deletedNodes → ∀ M, Agree (Defers M D) (getDeleted env) (getDeleted env'))
    (params : List Value) {s : State} (hs : s.deferred = []) (hn : D s.deleted) :
    getParameters env offset params s = getParameters env' offset params s ∧
      Ends (fun t => D t.deleted) (fun _ => True) (getParameters env offset params s) := by
  cases hfound : env.vector.parameters offset with
  | error e =>
    have herror : ∀ {env : Env}, env.vector.parameters offset = .error e →
        getParameters env offset params s = .error e s := fun h => bind_of_error (by rw [h]; rfl) _
    rw [herror hfound, herror (hlist.trans hfound)]
    exact ⟨rfl, hn⟩
  | ok list =>
    have hE := hE list hfound
    let M (p : Nat) : Prop := env'.vector.stream p = env.vector.stream p ∧
      ∀ e, env.vector.stream p = .ok e → env.vector.Reached list e
    have hN := env.vector.closed_reached list
    have hR := relates_agree env M D
    have hdel : ∀ {d}, env.vector.Reached list d → d.form = .deletedNodes →
        Agree (Defers M D) (getDeleted env) (getDeleted env') :=
      fun hd hform => hdeleted list _ hfound hd hform M
    have hpointer : ∀ {walk walk' : Walk}, RelatesWalks (env.vector.Reached list)
        (fun x y => Agree (Defers M D) x y) walk walk' →
          ∀ {d kind props pointee}, env.vector.Reached list d →
            d.form = .pointer kind props pointee → ∀ site,
              Agree (Defers M D) (getPointer env walk kind pointee site)
                (getPointer env' walk' kind pointee site) := by
      intro walk walk' hw d kind props pointee hd hform site
      have hsame := (hE.same hd).pointee hform
      have hpointee : ∀ e, env.vector.stream pointee = .ok e → env.vector.Reached list e :=
        fun e he => hd.step (.pointee hform he)
      exact hR.getPointer hw hE.twin ⟨hsame, hpointee⟩ hsame hpointee _ site
    have hwalk := hR.walk hE hN hdel hpointer
    have hagree : Agree (Defers M D) (getParameters env offset params)
        (getParameters env' offset params) := hR.getParameters hE hN hdel hpointer hlist
      (fun list' hlist' p hp => by
        obtain rfl := Except.ok.inj (hfound.symm.trans hlist')
        exact .parameter hp)
      (fun room handle e site he => Agree.see (h := fun s => s.reader.rest.length)
        (f := fun n => getPieces env (walk env room) handle e site (n + 1))
        (g := fun n => getPieces env' (walk env' room) handle e site (n + 1))
        fun n => hR.getPieces (hwalk room) hE.twin (hR.onPipe handle) he site (n + 1))
      fun room => Agree.see (h := fun s => s.reader.rest.length)
        (f := fun n => takeDeferred >>= getDeferred env (walk env room) (n + 1))
        (g := fun n => takeDeferred >>= getDeferred env' (walk env' room) (n + 1))
        fun n => hR.takeDeferred fun _ hds =>
          hR.getDeferred (hwalk room) (fun _ hp => hp) (n + 1) hds
    obtain ⟨he, hends⟩ := hagree s ⟨by simp [hs], hn⟩
    refine ⟨he, ?_⟩
    cases hr : getParameters env offset params s with
    | ok a t => rw [hr] at hends; exact ⟨hends.1.deleted, trivial⟩
    | error e t => rw [hr] at hends; exact hends.deleted

end Unmarshal

end Ndr
