import Ndr.Proofs.Deferral.Basic
import Ndr.Proofs.Unmarshal.Composition

/-!
Reading comes to an end. Every word takes bytes of the message, and a pointee is put off only behind
a word; so pointees that put off others, and the pieces of a pipe, are fewer than the bytes that are
left, and the bounds on their numbers are none.
-/

namespace Ndr

namespace Reader

variable {α β : Type} {k n : Nat} {r r' : Reader}

/-- A step that passes bytes at the front of the message where it succeeds, at least `n` of them. -/
def Passes (n : Nat) (x : Fetch α) : Prop :=
  ∀ ⦃r a r'⦄, x r = .ok a r' → ∃ bytes, n ≤ bytes.length ∧ r.rest = bytes ++ r'.rest

namespace Passes

theorem pure (a : α) : Passes 0 (pure a) := fun _ _ _ e => by
  obtain ⟨-, rfl⟩ := pure_eq_ok.1 e
  exact ⟨[], Nat.le_refl _, rfl⟩

theorem lift (x : Except Fault α) : Passes 0 (liftM x : Fetch α) := fun _ _ _ e => by
  obtain ⟨-, rfl⟩ := lift_eq_ok.1 e
  exact ⟨[], Nat.le_refl _, rfl⟩

theorem get : Passes 0 (get : Fetch Reader) := fun _ _ _ e => by
  obtain ⟨-, rfl⟩ := get_eq_ok.1 e
  exact ⟨[], Nat.le_refl _, rfl⟩

theorem mono {x : Fetch α} (h : Passes n x) (hk : k ≤ n) : Passes k x := fun _ _ _ e => by
  obtain ⟨bytes, hn, hr⟩ := h e
  exact ⟨bytes, Nat.le_trans hk hn, hr⟩

theorem bind {x : Fetch α} {f : α → Fetch β} (hx : Passes n x) (hf : ∀ a, Passes 0 (f a)) :
    Passes n (x >>= f) := fun _ _ _ e => by
  obtain ⟨a, r1, h1, h2⟩ := bind_eq_ok.1 e
  obtain ⟨bytes1, hn, hr1⟩ := hx h1
  obtain ⟨bytes2, -, hr2⟩ := hf a h2
  refine ⟨bytes1 ++ bytes2, ?_, by rw [hr1, hr2, List.append_assoc]⟩
  rw [List.length_append]
  exact Nat.le_add_right_of_le hn

theorem behind {x : Fetch α} {f : α → Fetch β} (hx : Passes 0 x) (hf : ∀ a, Passes n (f a)) :
    Passes n (x >>= f) := fun _ _ _ e => by
  obtain ⟨a, r1, h1, h2⟩ := bind_eq_ok.1 e
  obtain ⟨bytes1, -, hr1⟩ := hx h1
  obtain ⟨bytes2, hn, hr2⟩ := hf a h2
  refine ⟨bytes1 ++ bytes2, ?_, by rw [hr1, hr2, List.append_assoc]⟩
  rw [List.length_append]
  exact Nat.le_add_left_of_le hn

end Passes

/-! ### Steps -/

theorem rest_ensureFrom {ds : List Delivery} (hd : r.source.pending = ds)
    (e : ensureFrom n ds r = .ok () r') : r'.rest = r.rest ∧ n ≤ r'.current.length := by
  induction ds generalizing r with
  | nil =>
    unfold ensureFrom at e
    split at e
    · cases e
      exact ⟨rfl, hasAtLeast_iff.1 ‹_›⟩
    · exact absurd e (by simp)
  | cons d ds ih =>
    cases d with
    | fault f =>
      unfold ensureFrom at e
      split at e
      · cases e
        exact ⟨rfl, hasAtLeast_iff.1 ‹_›⟩
      · exact absurd e (by simp)
    | chunk bytes =>
      unfold ensureFrom at e
      split at e
      · cases e
        exact ⟨rfl, hasAtLeast_iff.1 ‹_›⟩
      · obtain ⟨hr, hn⟩ := ih (r := r.take bytes ds) rfl e
        refine ⟨hr.trans ?_, hn⟩
        simp [rest, Reader.take, Source.bytes, hd, Source.bytes.go]

theorem rest_ensure (e : ensure n r = .ok () r') : r'.rest = r.rest ∧ n ≤ r'.current.length := by
  obtain ⟨t, u, h1, h2⟩ := bind_eq_ok.1 e
  obtain ⟨rfl, rfl⟩ := get_eq_ok.1 h1
  exact rest_ensureFrom rfl h2

theorem passes_ensure : Passes 0 (ensure n) := fun _ _ _ e =>
  ⟨[], Nat.le_refl _, (rest_ensure e).1.symm⟩

theorem passes_getTogether : Passes n (getTogether n) := fun r a r' e => by
  obtain ⟨_, t, h1, h2⟩ := bind_eq_ok.1 e
  obtain ⟨hr, hn⟩ := rest_ensure h1
  obtain ⟨rfl, rfl⟩ := Prod.mk.inj (modifyGet_eq_ok.1 h2)
  refine ⟨t.current.take n, Nat.le_of_eq (List.length_take_of_le hn).symm, ?_⟩
  rw [← hr, rest, pass, rest, ← List.append_assoc, List.take_append_drop]

theorem passes_align (alignment : Nat) : Passes 0 (align alignment) :=
  Passes.get.bind fun r => by
    dsimp only
    split
    · exact (passes_getTogether.mono (Nat.zero_le _)).bind fun _ => .pure _
    · exact .pure _

theorem passes_getRunFrom (fuel n : Nat) (before : List (List UInt8)) :
    Passes 0 (getRunFrom fuel n before) := by
  induction fuel generalizing n before with
  | zero => cases n <;> exact .pure _
  | succ fuel ih =>
    cases n with
    | zero => exact .pure _
    | succ n =>
      have hpiece : Passes 0 (modifyGet fun r : Reader =>
          let bytes := r.current.take (n + 1)
          (bytes, { r with
            current := r.current.drop (n + 1)
            position := r.position + bytes.length }) : Fetch (List UInt8)) := fun r a r' e => by
        obtain ⟨rfl, rfl⟩ := Prod.mk.inj (modifyGet_eq_ok.1 e)
        refine ⟨r.current.take (n + 1), Nat.zero_le _, ?_⟩
        rw [rest, rest, ← List.append_assoc, List.take_append_drop]
      have hrest := hpiece.bind fun bytes => ih (n + 1 - bytes.length) (bytes :: before)
      refine Passes.get.bind fun r => ?_
      dsimp only
      split
      · exact passes_ensure.bind fun _ => hrest
      · exact hrest

theorem passes_getRun (n : Nat) : Passes 0 (getRun n) := passes_getRunFrom _ _ _

theorem passes_getWord (order : ByteOrder) (width : Nat) : Passes width (getWord order width) :=
  passes_getTogether.bind fun _ => .pure _

theorem passes_getAligned (order : ByteOrder) (width : Nat) :
    Passes width (getAligned order width) :=
  (passes_align width).behind fun _ => passes_getWord order width

theorem passes_getScalar (r : Representation) (kind : Scalar) : Passes 0 (getScalar r kind) :=
  (passes_align _).bind fun _ => (Passes.lift _).bind fun _ =>
    ((passes_getWord _ _).mono (Nat.zero_le _)).bind fun _ => (Passes.lift _).bind fun _ => .pure _

end Reader

namespace Unmarshal

variable {α β : Type} {k n : Nat} {s t : State}

/-! ### What a message can still lead to -/

/-- What is left of the message, with a word for every pointee that is put off. -/
def State.budget (s : State) : Nat := s.reader.rest.length + 4 * s.deferred.length

/-- Behind a step that succeeds no more of the message is left than before, and at most `debt` more
is put off than was read for it. -/
structure Spent (debt : Nat) (s t : State) : Prop where
  rest : t.reader.rest.length ≤ s.reader.rest.length
  budget : t.budget ≤ s.budget + debt

def Spends (debt : Nat) (x : Unmarshalling α) : Prop :=
  ∀ ⦃s a t⦄, x s = .ok a t → Spent debt s t

theorem Spent.of_eq (hr : t.reader = s.reader) (hd : t.deferred = s.deferred) : Spent 0 s t :=
  ⟨hr ▸ Nat.le_refl _, by unfold State.budget; rw [hr, hd]; exact Nat.le_refl _⟩

theorem Spent.trans {u : State} (h : Spent k s t) (h' : Spent n t u) : Spent (k + n) s u where
  rest := Nat.le_trans h'.rest h.rest
  budget := by have := h.budget; have := h'.budget; omega

namespace Spends

/-- A step that neither reads nor puts pointees off. -/
theorem quiet {x : Unmarshalling α}
    (h : ∀ s a t, x s = .ok a t → t.reader = s.reader ∧ t.deferred = s.deferred) : Spends 0 x :=
  fun s a t e => .of_eq (h s a t e).1 (h s a t e).2

theorem pure (a : α) : Spends 0 (pure a) := quiet fun _ _ _ e => by
  obtain ⟨-, rfl⟩ := pure_eq_ok.1 e
  exact ⟨rfl, rfl⟩

theorem throw (e : Fault) : Spends n (throw e : Unmarshalling α) :=
  fun _ _ _ h => absurd h throw_ne_ok

theorem modify {f : State → State} (hr : ∀ s, (f s).reader = s.reader)
    (hd : ∀ s, (f s).deferred = s.deferred) : Spends 0 (modify f : Unmarshalling PUnit) :=
  quiet fun s _ _ e => by
    obtain rfl := modify_eq_ok.1 e
    exact ⟨hr s, hd s⟩

theorem bind {x : Unmarshalling α} {f : α → Unmarshalling β} (hx : Spends 0 x)
    (hf : ∀ a, Spends n (f a)) : Spends n (x >>= f) := fun _ _ _ e => by
  obtain ⟨a, u, h1, h2⟩ := bind_eq_ok.1 e
  exact Nat.zero_add n ▸ (hx h1).trans (hf a h2)

/-- Nothing more is put off behind a step. -/
theorem bind_quiet {x : Unmarshalling α} {f : α → Unmarshalling β} (hx : Spends n x)
    (hf : ∀ a, Spends 0 (f a)) : Spends n (x >>= f) := fun _ _ _ e => by
  obtain ⟨a, u, h1, h2⟩ := bind_eq_ok.1 e
  exact (hx h1).trans (hf a h2)

theorem mono {x : Unmarshalling α} (h : Spends k x) (hk : k ≤ n) : Spends n x := fun _ _ _ e =>
  ⟨(h e).rest, Nat.le_trans (h e).budget (Nat.add_le_add_left hk _)⟩

/-- An action that depends on what it sees in the state. -/
theorem see {γ : Type} {g : State → γ} {f : γ → Unmarshalling α} (h : ∀ c, Spends n (f c)) :
    Spends n (get >>= fun s => f (g s)) := fun _ _ _ e => by
  obtain ⟨_, _, h1, h2⟩ := bind_eq_ok.1 e
  obtain ⟨rfl, rfl⟩ := get_eq_ok.1 h1
  exact h _ h2

theorem fetch {x : Fetch α} (hx : Reader.Passes n x) : Spends 0 (fetch x) := fun s a t e => by
  obtain ⟨r, h, rfl⟩ := onPart_eq_ok.1 e
  obtain ⟨bytes, -, hr⟩ := hx h
  have hlength : r.rest.length ≤ s.reader.rest.length := by
    rw [hr, List.length_append]
    exact Nat.le_add_left _ _
  exact ⟨hlength, Nat.add_le_add_right hlength _⟩

theorem onPipe (h : PipeHandle) (x : EStateM Fault Pipe α) : Spends 0 (onPipe h x) :=
  quiet fun _ _ _ e => by
    unfold Unmarshal.onPipe at e
    obtain ⟨_, -, rfl⟩ := onPart_eq_ok.1 e
    exact ⟨rfl, rfl⟩

end Spends

/-! #### Steps -/

/-- A word takes four bytes. -/
theorem rest_getCount {env : Env} {id : Nat} (e : getCount env s = .ok id t) :
    t.reader.rest.length + 4 ≤ s.reader.rest.length ∧ t.deferred = s.deferred := by
  unfold getCount Unmarshal.fetch at e
  obtain ⟨r, h, rfl⟩ := onPart_eq_ok.1 e
  obtain ⟨bytes, hn, hr⟩ := Reader.passes_getAligned env.order 4 h
  rw [hr, List.length_append, Nat.add_comm]
  exact ⟨Nat.add_le_add_right hn _, rfl⟩

theorem spends_getCount (env : Env) : Spends 0 (getCount env) :=
  .fetch (Reader.passes_getAligned env.order 4)

/-- A pointee that is put off is paid for by a word ahead of it. -/
theorem Spends.count_bind {env : Env} {f : Nat → Unmarshalling α} (hf : ∀ id, Spends 4 (f id)) :
    Spends 0 (getCount env >>= f) := fun s a t e => by
  obtain ⟨id, u, h1, h2⟩ := bind_eq_ok.1 e
  obtain ⟨hrest, hdeferred⟩ := rest_getCount h1
  have hspent := hf id h2
  refine ⟨Nat.le_trans hspent.rest (by omega), Nat.le_trans hspent.budget ?_⟩
  unfold State.budget
  rw [hdeferred]
  omega

theorem passes_getToken (order : ByteOrder) : Reader.Passes 4 (getToken order) :=
  (Reader.passes_getAligned _ _).bind fun _ =>
    ((Reader.passes_getAligned _ _).mono (Nat.zero_le _)).bind fun _ =>
    ((Reader.passes_getWord _ _).mono (Nat.zero_le _)).bind fun _ =>
    ((Reader.passes_getWord _ _).mono (Nat.zero_le _)).bind fun _ =>
    (Reader.passes_getRun _).bind fun _ => .pure _

theorem spends_getContext (env : Env) (direction : ContextDirection) (current : Value) :
    Spends 0 (getContext env direction current) := fun s v t e => by
  obtain ⟨registry, token, reader, -, hreader, h⟩ := getContext_eq_ok e
  have hfetch : Spent 0 s { s with reader } :=
    Spends.fetch (passes_getToken env.order) (onPart_eq_ok.2 ⟨reader, hreader, rfl⟩)
  have hquiet : t.reader = reader ∧ t.deferred = s.deferred := by
    rcases h with ⟨-, _, -, -, rfl⟩ | ⟨-, -, -, rfl⟩ | ⟨-, -, -, _, rfl⟩ <;> exact ⟨rfl, rfl⟩
  exact hfetch.trans (.of_eq hquiet.1 hquiet.2)

theorem spends_takeDeferred : Spends 0 takeDeferred := fun s _ _ e => by
  obtain ⟨-, rfl⟩ := takeDeferred_eq_ok.1 e
  exact ⟨Nat.le_refl _, by simp [State.budget]⟩

theorem composes_spends (env : Env) : ComposesCells env (fun _ => True) (Spends 0) where
  pure := .pure
  throw := .throw
  bind := .bind
  align n := .fetch (Reader.passes_align n)
  count := spends_getCount env
  shortCount := .fetch (Reader.passes_getAligned _ _)
  scalar kind := .fetch (Reader.passes_getScalar _ kind)
  run n := .fetch (Reader.passes_getRun n)
  context := spends_getContext env
  onPipe h _ x := .onPipe h x
  call _ := .modify (fun _ => rfl) fun _ => rfl
  store _ _ := .quiet fun _ _ _ e => by
    obtain ⟨-, rfl⟩ := store_eq_ok.1 e
    exact ⟨rfl, rfl⟩
  takeDeferred h := spends_takeDeferred.bind fun ds => h ds fun _ _ => trivial
  delete _ := .modify (fun _ => rfl) fun _ => rfl
  openScope _ := .quiet fun _ _ _ e => by
    obtain ⟨-, rfl⟩ := openScope_eq_ok.1 e
    exact ⟨rfl, rfl⟩
  setField _ _ _ := .quiet fun _ _ _ e => by
    obtain rfl := setField_eq_ok.1 e
    exact ⟨rfl, rfl⟩
  scopeOf _ := .see (g := fun s => s.scopes[_]?.getD #[]) (f := fun scope => return scope)
    fun _ => .pure _
  keepLate _ _ := .modify (fun _ => rfl) fun _ => rfl
  verifyLate _ := .quiet fun _ _ _ e => by
    obtain ⟨-, rfl⟩ := verifyLate_eq_ok.1 e
    exact ⟨rfl, rfl⟩
  seeHeap h := .see h
  seeCalls h := .see h
  seeRest h := .see h

/-! ### Pointers -/

theorem spends_allocate : Spends 0 allocate := .quiet fun _ _ _ e => by
  obtain ⟨-, -, rfl⟩ := allocate_eq_ok.1 e
  exact ⟨rfl, rfl⟩

section

variable {env : Env} {walk : Walk} (hw : ∀ d site, Spends 0 (walk d site))

include hw

theorem spends_placePointee (cell : CellId) (pointee : Nat) (site : Site ScopeId) :
    Spends (if site.embedded then 4 else 0) (placePointee env walk cell pointee site) := by
  unfold placePointee
  split
  · intro s _ t e
    obtain rfl := defer_eq_ok.1 e
    exact ⟨Nat.le_refl _, by simp [State.budget]; omega⟩
  · exact (composes_spends env).getPointee hw trivial _ _

/-- What a pointer puts off is paid for by the word that it reads itself. -/
theorem spends_getPointer (kind : PointerKind) (pointee : Nat) (site : Site ScopeId) :
    Spends 0 (getPointer env walk kind pointee site) := by
  have hsight : ∀ p, Spends 0 (sight p) := fun _ => .modify (fun _ => rfl) fun _ => rfl
  have hplace : ∀ id cell, Spends (if site.embedded then 4 else 0) (do
      sight { id, pointee, cell }
      placePointee env walk cell pointee site
      return Value.pointer (some cell)) := fun _ _ =>
    (hsight _).bind fun _ => (spends_placePointee hw _ _ _).bind_quiet fun _ => .pure _
  by_cases hk : kind = .ref
  · -- a reference reads a word only where its pointee is put off
    have hrest := spends_allocate.bind fun cell => hplace none cell
    unfold getPointer getReference
    rw [if_pos hk]
    split
    · rw [if_pos ‹_›] at hrest
      exact .count_bind fun _ => hrest
    · rw [if_neg ‹_›] at hrest
      exact hrest
  · have hdebt : (if site.embedded then 4 else 0) ≤ 4 := by split <;> omega
    rw [getPointer_eq env walk hk]
    refine .count_bind fun id => ?_
    split
    · exact (Spends.pure _).mono (Nat.zero_le _)
    refine .see fun nodes => ?_
    unfold pointTo
    cases nodes.cellOf? id with
    | some cell => exact ((hsight _).bind fun _ => Spends.pure _).mono (Nat.zero_le _)
    | none =>
      have hregister : ∀ cell, Spends 0 (register id cell) := fun cell => .quiet fun _ _ _ e => by
        obtain ⟨_, -, rfl⟩ := register_eq_ok.1 e
        exact ⟨rfl, rfl⟩
      exact (spends_allocate.bind fun cell => (hregister cell).bind fun _ =>
        hplace (some id) cell).mono hdebt

end

theorem composesWalks_spends (env : Env) : ComposesWalks env (fun _ => True) (Spends 0) where
  toComposesCells := composes_spends env
  pointer hw := spends_getPointer hw

/-! ### Pointees that are put off -/

section

open Deferral (Visit Rises within)

variable {env : Env} {walk : Walk}

/-- Read a pointee that was put off, and take those that are put off in it. -/
def getNext (env : Env) (walk : Walk) : Visit State (Deferred ScopeId) := fun d => do
  getPointee env walk d.cell d.pointee { scope := d.scope, embedded := false }
  takeDeferred

theorem getDeferred_eq_within (env : Env) (walk : Walk) (depth : Nat)
    (ds : List (Deferred ScopeId)) :
    getDeferred env walk depth ds = within (getNext env walk) .endlessReferences depth ds := by
  induction depth generalizing ds with
  | zero => cases ds <;> rfl
  | succ depth ih =>
    cases ds with
    | nil => rfl
    | cons d ds =>
      have hone : (fun d : Deferred ScopeId => (do
          getPointee env walk d.cell d.pointee { scope := d.scope, embedded := false }
          getDeferred env walk depth (← takeDeferred) : Unmarshalling Unit)) =
          fun d => getNext env walk d >>= within (getNext env walk) .endlessReferences depth := by
        funext d
        rw [getNext, bind_assoc]
        exact congrArg _ (funext fun _ => congrArg _ (funext ih))
      exact congrArg (List.forM (d :: ds)) hone

/-- Each pointee that puts others off takes bytes from the message. -/
theorem rises_getNext (hw : ∀ d site, Spends 0 (walk d site)) :
    Rises (getNext env walk) (fun s => s.deferred = []) (fun s => - s.reader.rest.length) := by
  have hstep : ∀ {d s es t}, s.deferred = [] → getNext env walk d s = .ok es t →
      t.deferred = [] ∧ t.reader.rest.length ≤ s.reader.rest.length ∧
        (es ≠ [] → t.reader.rest.length < s.reader.rest.length) := by
    intro d s es t hd e
    obtain ⟨_, u, e1, e2⟩ := bind_eq_ok.1 e
    obtain ⟨rfl, rfl⟩ := takeDeferred_eq_ok.1 e2
    have hspent := (composes_spends env).getPointee hw trivial _ _ e1
    refine ⟨rfl, hspent.rest, fun hes => ?_⟩
    have hpos := List.length_pos_iff.2 fun h => hes (List.reverse_eq_nil_iff.2 h)
    have hbudget := hspent.budget
    unfold State.budget at hbudget
    rw [hd, List.length_nil] at hbudget
    dsimp only
    omega
  refine ⟨fun hs e => (hstep hs e).1, fun hs e => ?_, fun hs e h => ?_⟩
  · have := (hstep hs e).2.1
    omega
  · have := (hstep hs e).2.2 h
    omega

end

/-! ### Bounds that are none -/

section

variable {env : Env} {walk : Walk} (hw : ∀ d site, Spends 0 (walk d site))

include hw

/-- Pointees lead to others at most as often as there are bytes left: any greater bound gives the
same. -/
theorem getDeferred_eq {depth depth' : Nat} (ds : List (Deferred ScopeId)) (hs : s.deferred = [])
    (h : s.reader.rest.length < depth) (h' : s.reader.rest.length < depth') :
    getDeferred env walk depth ds s = getDeferred env walk depth' ds s := by
  have hbelow : ∀ s : State, s.deferred = [] → (- s.reader.rest.length : Int) < 1 :=
    fun s _ => by omega
  rw [getDeferred_eq_within, getDeferred_eq_within]
  exact (rises_getNext hw).within_eq hbelow hs (by omega) (by omega)

omit hw in
/-- A piece of a pipe is handed over in at most as many pieces as it has elements. -/
theorem getPiece_eq {h : PipeHandle} {element : Descriptor} {site : Site ScopeId}
    {fuel fuel' n : Nat} (hn : n ≤ fuel) (hn' : n ≤ fuel') :
    getPiece walk h element site fuel n = getPiece walk h element site fuel' n := by
  induction fuel generalizing fuel' n with
  | zero =>
    obtain rfl := Nat.le_zero.1 hn
    cases fuel' <;> rfl
  | succ fuel ih =>
    cases n with
    | zero => cases fuel' <;> rfl
    | succ n =>
      obtain ⟨fuel', rfl⟩ := Nat.exists_eq_succ_of_ne_zero (by omega : fuel' ≠ 0)
      unfold getPiece
      refine bind_congr fun granted => bind_congr fun piece => bind_congr fun _ =>
        bind_congr fun _ => ?_
      exact ih (by omega) (by omega)

/-- A message holds fewer pieces of a pipe than bytes: any greater bound gives the same. -/
theorem getPieces_eq {h : PipeHandle} {element : Descriptor} {site : Site ScopeId}
    {fuel fuel' : Nat} (hs : s.reader.rest.length < fuel) (hs' : s.reader.rest.length < fuel') :
    getPieces env walk h element site fuel s = getPieces env walk h element site fuel' s := by
  have hP := composes_spends env
  induction fuel generalizing fuel' s with
  | zero => exact absurd hs (Nat.not_lt_zero _)
  | succ fuel ih =>
    obtain ⟨fuel', rfl⟩ := Nat.exists_eq_succ_of_ne_zero (Nat.ne_zero_of_lt hs')
    unfold getPieces
    cases e : getCount env s with
    | error f u => rw [bind_of_error e, bind_of_error e]
    | ok n u =>
      rw [bind_of_ok e, bind_of_ok e]
      split
      · rfl
      · cases hc : checkCount env n with
        | error f => rfl
        | ok =>
          have hrest := (rest_getCount e).1
          show (_ >>= fun _ => getPieces env walk h element site fuel) u
            = (_ >>= fun _ => getPieces env walk h element site fuel') u
          cases ep : getPiece walk h element site n n u with
          | error f v => rw [bind_of_error ep, bind_of_error ep]
          | ok a v =>
            have hpiece := (hP.getPiece hw h element site n n ep).rest
            rw [bind_of_ok ep, bind_of_ok ep]
            exact ih (by omega) (by omega)

end

/-- **Pointees come to an end**: what was put off is read to its end, at any depth that no message
of this length reaches. -/
theorem flush_eq (env : Env) (room : Nat) {depth : Nat} (h : s.reader.rest.length < depth) :
    flush env (walk env room) s
      = (do getDeferred env (walk env room) depth (← takeDeferred) : Unmarshalling Unit) s := by
  have hw := (composesWalks_spends env).walk room
  have htake : takeDeferred s = .ok s.deferred.reverse { s with deferred := [] } := rfl
  calc flush env (walk env room) s
      = getDeferred env (walk env room) (s.reader.rest.length + 1) s.deferred.reverse
          { s with deferred := [] } := rfl
    _ = getDeferred env (walk env room) depth s.deferred.reverse { s with deferred := [] } :=
        getDeferred_eq hw _ rfl (Nat.lt_succ_self _) h
    _ = _ := (bind_of_ok htake _).symm

/-- **Pipes come to an end**: a pipe is read up to its empty piece, whatever number of pieces no
message of this length has is allowed. -/
theorem getPieces_walk_eq (env : Env) (room : Nat) {h : PipeHandle} {element : Descriptor}
    {site : Site ScopeId} {fuel : Nat} (hs : s.reader.rest.length < fuel) :
    getPieces env (walk env room) h element site (s.reader.rest.length + 1) s
      = getPieces env (walk env room) h element site fuel s :=
  getPieces_eq ((composesWalks_spends env).walk room) (Nat.lt_succ_self _) hs

end Unmarshal

end Ndr
