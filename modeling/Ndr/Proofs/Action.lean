import Mathlib.Data.List.Forall2
import Ndr.Fault
import Ndr.Part
import Ndr.Repetition
import Ndr.Shape

/-!
Actions on a state: what their steps did where they succeed, and what they keep whether they
succeed or fail.
-/

namespace Ndr

variable {σ τ α β : Type}

/-! ### Steps of a computation that may fail -/

theorem Except.bind_eq_ok {x : Except Fault α} {f : α → Except Fault β} {b : β} :
    x >>= f = .ok b ↔ ∃ a, x = .ok a ∧ f a = .ok b := by
  cases x with
  | error e => simp [bind, Except.bind]
  | ok a => simp [bind, Except.bind]

theorem Except.map_eq_ok {x : Except Fault α} {f : α → β} {b : β} :
    f <$> x = .ok b ↔ ∃ a, x = .ok a ∧ f a = b := by
  cases x <;> simp [Functor.map, Except.map]

theorem Except.pure_eq_ok {a b : α} : (pure a : Except Fault α) = .ok b ↔ a = b := by
  simp [pure, Except.pure]

/-- What is related to the members of a list in order is related to each of them. -/
theorem exists_of_forall₂ {R : α → β → Prop} {as : List α} {bs : List β} (h : List.Forall₂ R as bs)
    {a : α} (ha : a ∈ as) : ∃ b ∈ bs, R a b := by
  induction h with
  | nil => exact absurd ha List.not_mem_nil
  | cons h _ ih =>
    rcases List.mem_cons.1 ha with rfl | ha
    · exact ⟨_, List.mem_cons_self, h⟩
    · obtain ⟨b, hb, hab⟩ := ih ha
      exact ⟨b, List.mem_cons_of_mem _ hb, hab⟩


theorem Except.mapM_eq_ok {f : α → Except Fault β} {as : List α} {bs : List β} :
    as.mapM f = .ok bs ↔ List.Forall₂ (fun a b => f a = .ok b) as bs := by
  induction as generalizing bs with
  | nil =>
    rw [List.mapM_nil, Except.pure_eq_ok]
    constructor
    · rintro rfl; exact .nil
    · rintro ⟨⟩; rfl
  | cons a as ih =>
    rw [List.mapM_cons, Except.bind_eq_ok]
    constructor
    · rintro ⟨b, hb, h⟩
      obtain ⟨bs, hbs, h⟩ := Except.bind_eq_ok.1 h
      obtain rfl := Except.pure_eq_ok.1 h
      exact .cons hb (ih.1 hbs)
    · rintro (_ | ⟨hb, hbs⟩)
      exact ⟨_, hb, Except.bind_eq_ok.2 ⟨_, ih.2 hbs, rfl⟩⟩

theorem Except.throw_ne_ok {e : Fault} {a : α} : (throw e : Except Fault α) ≠ .ok a := by
  simp [throw, throwThe, MonadExceptOf.throw]

/-! ### Steps of an action that succeeds -/

section Success

variable {s t : σ} {a : α} {b : β}

theorem bind_eq_ok {x : EStateM Fault σ α} {f : α → EStateM Fault σ β} :
    (x >>= f) s = .ok b t ↔ ∃ a u, x s = .ok a u ∧ f a u = .ok b t := by
  show EStateM.bind x f s = _ ↔ _
  unfold EStateM.bind
  cases x s with
  | ok a u =>
    constructor
    · exact fun h => ⟨a, u, rfl, h⟩
    · rintro ⟨_, _, ⟨⟩, h⟩; exact h
  | error e u => simp

theorem bind_of_ok {x : EStateM Fault σ α} (h : x s = .ok a t) (f : α → EStateM Fault σ β) :
    (x >>= f) s = f a t := by
  show EStateM.bind x f s = _
  unfold EStateM.bind
  rw [h]

theorem bind_of_error {x : EStateM Fault σ α} {e : Fault} (h : x s = .error e t)
    (f : α → EStateM Fault σ β) : (x >>= f) s = .error e t := by
  show EStateM.bind x f s = _
  unfold EStateM.bind
  rw [h]

theorem map_eq_ok {x : EStateM Fault σ α} {f : α → β} :
    (f <$> x) s = .ok b t ↔ ∃ a, x s = .ok a t ∧ f a = b := by
  show EStateM.map f x s = _ ↔ _
  unfold EStateM.map
  cases x s with
  | ok a u =>
    constructor
    · rintro ⟨⟩; exact ⟨a, rfl, rfl⟩
    · rintro ⟨_, ⟨⟩, rfl⟩; rfl
  | error e u => simp

theorem map_of_error {x : EStateM Fault σ α} {e : Fault} (h : x s = .error e t) (f : α → β) :
    (f <$> x) s = .error e t := by
  show EStateM.map f x s = _
  unfold EStateM.map
  rw [h]

theorem pure_eq_ok {c : α} : (pure c : EStateM Fault σ α) s = .ok a t ↔ c = a ∧ s = t := by
  simp [pure, EStateM.pure]

theorem throw_ne_ok {e : Fault} : (throw e : EStateM Fault σ α) s ≠ .ok a t := by
  show EStateM.Result.error e s ≠ _
  simp

/-- What follows a check that was passed. -/
theorem check_eq_ok {c : Prop} [Decidable c] {e : Fault} {f : PUnit → EStateM Fault σ α} :
    (if c then MonadExcept.throw e >>= f else f ⟨⟩) s = .ok a t ↔ ¬ c ∧ f ⟨⟩ s = .ok a t := by
  split
  · rename_i h
    refine ⟨fun e => ?_, fun e => absurd h e.1⟩
    obtain ⟨_, _, e, -⟩ := bind_eq_ok.1 e
    exact absurd e throw_ne_ok
  · rename_i h
    simp [h]

theorem get_eq_ok {u : σ} : (get : EStateM Fault σ σ) s = .ok u t ↔ s = u ∧ s = t := by
  show EStateM.Result.ok s s = _ ↔ _
  simp

theorem set_eq_ok {u : σ} {c : PUnit} : (set u : EStateM Fault σ PUnit) s = .ok c t ↔ u = t := by
  show EStateM.Result.ok PUnit.unit u = _ ↔ _
  simp

theorem modify_eq_ok {f : σ → σ} {c : PUnit} :
    (modify f : EStateM Fault σ PUnit) s = .ok c t ↔ f s = t := by
  show EStateM.Result.ok PUnit.unit (f s) = _ ↔ _
  simp

theorem modifyGet_eq_ok {f : σ → α × σ} :
    (modifyGet f : EStateM Fault σ α) s = .ok a t ↔ f s = (a, t) := by
  show EStateM.Result.ok (f s).1 (f s).2 = _ ↔ _
  simp [Prod.ext_iff]

theorem lift_eq_ok {x : Except Fault α} :
    (liftM x : EStateM Fault σ α) s = .ok a t ↔ x = .ok a ∧ s = t := by
  cases x with
  | error e =>
    show EStateM.Result.error e s = _ ↔ _
    simp
  | ok c =>
    show EStateM.Result.ok c s = _ ↔ _
    simp

theorem onPart_eq_ok {get : σ → τ} {set : σ → τ → σ} {x : EStateM Fault τ α} :
    onPart get set x s = .ok a t ↔ ∃ u, x (get s) = .ok a u ∧ set s u = t := by
  unfold onPart
  cases x (get s) with
  | ok c u =>
    constructor
    · rintro ⟨⟩; exact ⟨u, rfl, rfl⟩
    · rintro ⟨_, ⟨⟩, rfl⟩; rfl
  | error e u => simp

theorem forM_lift_eq_ok {f : α → Except Fault PUnit} {l : List α} {u : PUnit} :
    (l.forM fun a => liftM (f a) : EStateM Fault σ PUnit) s = .ok u t ↔
      (∀ a ∈ l, f a = .ok ⟨⟩) ∧ s = t := by
  induction l generalizing s with
  | nil => exact pure_eq_ok.trans (by simp)
  | cons a l ih =>
    refine bind_eq_ok.trans ?_
    simp only [lift_eq_ok, ih, List.forall_mem_cons]
    constructor
    · rintro ⟨_, _, ⟨h, rfl⟩, hl, rfl⟩
      exact ⟨⟨h, hl⟩, rfl⟩
    · rintro ⟨⟨h, hl⟩, rfl⟩
      exact ⟨_, _, ⟨h, rfl⟩, hl, rfl⟩

theorem forM_append_eq_ok {f : α → EStateM Fault σ PUnit} {l l' : List α} {c : PUnit} :
    (l ++ l').forM f s = .ok c t ↔ ∃ u, l.forM f s = .ok ⟨⟩ u ∧ l'.forM f u = .ok c t := by
  have h : (l ++ l').forM f = (do l.forM f; l'.forM f) := List.forM_append
  rw [h, bind_eq_ok]
  constructor
  · rintro ⟨_, u, h1, h2⟩
    exact ⟨u, h1, h2⟩
  · rintro ⟨u, h1, h2⟩
    exact ⟨_, u, h1, h2⟩

theorem tryFinally_eq_ok {x : EStateM Fault σ α} {y : EStateM Fault σ β} :
    tryFinally x y s = .ok a t ↔ ∃ u b, x s = .ok a u ∧ y u = .ok b t := by
  show EStateM.map Prod.fst (fun s => tryFinally' x (fun _ => y) s) s = _ ↔ _
  simp only [EStateM.map, tryFinally']
  cases x s with
  | error e u => cases h : y u <;> simp [h]
  | ok c u =>
    constructor
    · cases h : y u with
      | error e v => simp [h]
      | ok b v =>
        simp only [h, EStateM.Result.ok.injEq]
        rintro ⟨rfl, rfl⟩
        exact ⟨u, b, ⟨rfl, rfl⟩, h⟩
    · rintro ⟨_, b, ⟨⟩, h⟩
      simp [h]

end Success

/-- An end with a last change. -/
def withLast (f : σ → σ) : EStateM.Result Fault σ α → EStateM.Result Fault σ α
  | .ok a t => .ok a (f t)
  | .error e t => .error e (f t)

/-- A change that is made however an action ends. -/
theorem tryFinally_modify (x : EStateM Fault σ α) (f : σ → σ) (s : σ) :
    tryFinally x (modify f) s = withLast f (x s) := by
  show EStateM.map Prod.fst (fun s => tryFinally' x (fun _ => modify f) s) s = _
  simp only [EStateM.map, tryFinally']
  cases x s <;> rfl

/-! ### Changes that make no difference -/

/-- An action takes no notice of a change. -/
def Blind (f : σ → σ) (x : EStateM Fault σ α) : Prop := ∀ s, x (f s) = withLast f (x s)

namespace Blind

variable {f : σ → σ} {x : EStateM Fault σ α}

theorem pure (a : α) : Blind f (pure a) := fun _ => rfl

theorem throw (e : Fault) : Blind f (throw e : EStateM Fault σ α) := fun _ => rfl

theorem bind {g : α → EStateM Fault σ β} (hx : Blind f x) (hg : ∀ a, Blind f (g a)) :
    Blind f (x >>= g) := by
  intro s
  have hs := hx s
  cases hr : x s with
  | ok a t =>
    rw [hr] at hs
    rw [bind_of_ok hs, bind_of_ok hr]
    exact hg a t
  | error e t =>
    rw [hr] at hs
    rw [bind_of_error hs, bind_of_error hr]
    rfl

theorem lift (x : Except Fault α) : Blind f (liftM x : EStateM Fault σ α) := by
  cases x with
  | ok a => exact .pure a
  | error e => exact .throw e

theorem modify {g : σ → σ} (h : ∀ s, g (f s) = f (g s)) :
    Blind f (modify g : EStateM Fault σ PUnit) := by
  intro s
  show EStateM.Result.ok PUnit.unit (g (f s)) = _
  rw [h]
  rfl

theorem onPart {τ : Type} {get : σ → τ} {set : σ → τ → σ} (hget : ∀ s, get (f s) = get s)
    (hset : ∀ s t, set (f s) t = f (set s t)) (x : EStateM Fault τ α) :
    Blind f (onPart get set x) := by
  intro s
  unfold Ndr.onPart
  rw [hget]
  cases x (get s) with
  | ok a t => exact congrArg _ (hset s t)
  | error e t => exact congrArg _ (hset s t)

end Blind

/-! ### How an action ends -/

/-- An end where `Q` holds after a success with some result, or `J` after some fault. -/
def Lands (Q : α → σ → Prop) (J : Fault → σ → Prop) : EStateM.Result Fault σ α → Prop
  | .ok a t => Q a t
  | .error e t => J e t

namespace Lands

variable {P : α → σ → Prop} {Q : β → σ → Prop} {J J' : Fault → σ → Prop}

theorem bind {x : EStateM Fault σ α} {f : α → EStateM Fault σ β} {s : σ}
    (hx : Lands P J (x s)) (hf : ∀ a t, P a t → Lands Q J (f a t)) : Lands Q J ((x >>= f) s) := by
  show Lands Q J (EStateM.bind x f s)
  unfold EStateM.bind
  cases e : x s with
  | ok a t => rw [e] at hx; exact hf a t hx
  | error e' t => rw [e] at hx; exact hx

theorem mono {P' : α → σ → Prop} {r : EStateM.Result Fault σ α} (h : Lands P J r)
    (hP : ∀ a t, P a t → P' a t) (hJ : ∀ e t, J e t → J' e t) : Lands P' J' r := by
  cases r with
  | ok a t => exact hP a t h
  | error e t => exact hJ e t h

theorem and {P' : α → σ → Prop} {r : EStateM.Result Fault σ α} (h : Lands P J r)
    (h' : Lands P' J' r) : Lands (fun a t => P a t ∧ P' a t) (fun e t => J e t ∧ J' e t) r := by
  cases r with
  | ok a t => exact ⟨h, h'⟩
  | error e t => exact ⟨h, h'⟩

/-- What is there however an action ends, along with what holds of it then. -/
theorem exists_of {ι κ : Type} {C : ι → κ → Prop} {P : ι → κ → α → σ → Prop}
    {J : ι → κ → Fault → σ → Prop} {r : EStateM.Result Fault σ α}
    (h : Lands (fun a t => ∃ i k, C i k ∧ P i k a t) (fun e t => ∃ i k, C i k ∧ J i k e t) r) :
    ∃ i k, C i k ∧ Lands (P i k) (J i k) r := by
  cases r with
  | ok a t => exact h
  | error e t => exact h

end Lands

/-- From each state the action leads to one that `S` relates it to, along with the fault that it ends
in, if it does. -/
def Proceeds (S : σ → Option Fault → σ → Prop) (x : EStateM Fault σ α) : Prop :=
  ∀ s, Lands (fun _ t => S s none t) (fun e t => S s (some e) t) (x s)

namespace Proceeds

variable {S : σ → Option Fault → σ → Prop}

theorem bind (htrans : ∀ {s t u e}, S s none t → S t e u → S s e u) {x : EStateM Fault σ α}
    {f : α → EStateM Fault σ β} (hx : Proceeds S x) (hf : ∀ a, Proceeds S (f a)) :
    Proceeds S (x >>= f) := fun s => (hx s).bind fun a t ht =>
  (hf a t).mono (fun _ _ hu => htrans ht hu) fun _ _ hu => htrans ht hu

/-- A change that is made however an action ends. -/
theorem tryFinally_modify {f : σ → σ} (hf : ∀ {s e t}, S s e t → S s e (f t))
    {x : EStateM Fault σ α} (hx : Proceeds S x) : Proceeds S (tryFinally x (modify f)) := by
  intro s
  have hlands := hx s
  rw [Ndr.tryFinally_modify]
  cases e : x s with
  | ok a t => rw [e] at hlands; exact hf hlands
  | error e t => rw [e] at hlands; exact hf hlands

end Proceeds

/-! ### What an action keeps -/

/-- An end where `I` holds, after a success with a result of which `Q` holds or after a fault. -/
def Ends (I : σ → Prop) (Q : α → Prop) : EStateM.Result Fault σ α → Prop
  | .ok a t => I t ∧ Q a
  | .error _ t => I t

theorem Ends.mono {I : σ → Prop} {P Q : α → Prop} {r : EStateM.Result Fault σ α}
    (h : Ends I P r) (hQ : ∀ a, P a → Q a) : Ends I Q r := by
  cases r with
  | ok a t => exact ⟨h.1, hQ a h.2⟩
  | error e t => exact h

theorem Ends.imp {I J : σ → Prop} {Q : α → Prop} {r : EStateM.Result Fault σ α} (h : Ends I Q r)
    (hI : ∀ t, I t → J t) : Ends J Q r := by
  cases r with
  | ok a t => exact ⟨hI t h.1, h.2⟩
  | error e t => exact hI t h

theorem Ends.exists_state {I : σ → Prop} {Q : α → Prop} {r : EStateM.Result Fault σ α}
    (h : Ends I Q r) : ∃ t, I t := by
  cases r with
  | ok a t => exact ⟨t, h.1⟩
  | error e t => exact ⟨t, h⟩

theorem Ends.bind {I : σ → Prop} {P : α → Prop} {Q : β → Prop} {x : EStateM Fault σ α}
    {f : α → EStateM Fault σ β} {s : σ} (hx : Ends I P (x s))
    (hf : ∀ a t, x s = .ok a t → I t → P a → Ends I Q (f a t)) : Ends I Q ((x >>= f) s) := by
  show Ends I Q (EStateM.bind x f s)
  unfold EStateM.bind
  cases e : x s with
  | ok a t => rw [e] at hx; exact hf a t e hx.1 hx.2
  | error e' t => rw [e] at hx; exact hx

/-- An action that starts where `I` holds ends where `I` holds, whether it succeeds or fails,
and gives only results of which `Q` holds. -/
def Keeps (I : σ → Prop) (Q : α → Prop) (x : EStateM Fault σ α) : Prop :=
  ∀ s, I s → Ends I Q (x s)

namespace Keeps

variable {I : σ → Prop} {P : α → Prop} {Q : β → Prop}

theorem ok {x : EStateM Fault σ α} {s t : σ} {a : α} (h : Keeps I P x) (hs : I s)
    (e : x s = .ok a t) : I t ∧ P a := by
  have := h s hs
  rwa [e] at this

theorem mono {P' : α → Prop} {x : EStateM Fault σ α} (h : Keeps I P x) (hP : ∀ a, P a → P' a) :
    Keeps I P' x := fun s hs => (h s hs).mono hP

theorem weaken {x : EStateM Fault σ α} (h : Keeps I P x) : Keeps I (fun _ => True) x :=
  h.mono fun _ _ => trivial

theorem pure {a : α} (h : P a) : Keeps I P (pure a) := fun _ hs => ⟨hs, h⟩

theorem throw (e : Fault) : Keeps I P (throw e) := fun _ hs => hs

theorem bind {x : EStateM Fault σ α} {f : α → EStateM Fault σ β} (hx : Keeps I P x)
    (hf : ∀ a, P a → Keeps I Q (f a)) : Keeps I Q (x >>= f) :=
  fun s hs => (hx s hs).bind fun a t _ ht ha => hf a ha t ht

theorem map {x : EStateM Fault σ α} {f : α → β} (hx : Keeps I P x) (hf : ∀ a, P a → Q (f a)) :
    Keeps I Q (f <$> x) := by
  rw [map_eq_pure_bind]
  exact hx.bind fun a ha => .pure (hf a ha)

theorem ite {c : Prop} [Decidable c] {x y : EStateM Fault σ α} (hx : Keeps I P x)
    (hy : Keeps I P y) : Keeps I P (if c then x else y) := by
  split
  · exact hx
  · exact hy

/-- A check ahead of an action. -/
theorem check {c : Prop} [Decidable c] {e : Fault} {f : PUnit → EStateM Fault σ α}
    (h : Keeps I P (f ⟨⟩)) : Keeps I P (if c then MonadExcept.throw e >>= f else f ⟨⟩) :=
  ite (Keeps.bind (P := fun _ => False) (Keeps.throw e) fun _ hu => hu.elim) h

theorem lift (x : Except Fault α) : Keeps I (fun a => x = .ok a) (liftM x) := by
  intro s hs
  cases x with
  | ok a => exact ⟨hs, rfl⟩
  | error e => exact hs

theorem ofTrue (x : EStateM Fault σ α) : Keeps (fun _ => True) (fun _ => True) x := fun s _ => by
  unfold Ends
  split <;> trivial

theorem get : Keeps I I (get : EStateM Fault σ σ) := fun _ hs => ⟨hs, hs⟩

protected theorem modify {f : σ → σ} (h : ∀ s, I s → I (f s)) :
    Keeps I (fun _ => True) (modify f : EStateM Fault σ PUnit) := fun s hs => ⟨h s hs, trivial⟩

/-- A change that is made however an action ends. -/
theorem tryFinally_modify {x : EStateM Fault σ α} {f : σ → σ} (hx : Keeps I P x)
    (h : ∀ s, I s → I (f s)) : Keeps I P (tryFinally x (modify f)) := by
  intro s hs
  have hends := hx s hs
  rw [Ndr.tryFinally_modify]
  generalize x s = r at hends
  cases r with
  | ok a t => exact ⟨h t hends.1, hends.2⟩
  | error e t => exact h t hends

theorem modifyGet {f : σ → α × σ} (h : ∀ s, I s → I (f s).2 ∧ P (f s).1) :
    Keeps I P (modifyGet f : EStateM Fault σ α) := fun s hs => h s hs

theorem onPart {get : σ → τ} {set : σ → τ → σ} (h : ∀ s t, I s → I (set s t))
    (x : EStateM Fault τ α) : Keeps I (fun _ => True) (onPart get set x) := by
  intro s hs
  unfold Ndr.onPart
  cases x (get s) with
  | ok a t => exact ⟨h s t hs, trivial⟩
  | error e t => exact h s t hs

theorem onPart_of {get : σ → τ} {set : σ → τ → σ} {x : EStateM Fault τ α}
    (h : Keeps (fun _ => True) P x) : Keeps (fun _ => True) P (Ndr.onPart get set x) := by
  intro s _
  have hends := h (get s) trivial
  unfold Ndr.onPart
  cases e : x (get s) with
  | error fault t => trivial
  | ok a t =>
    rw [e] at hends
    exact hends

/-! #### Repeated steps -/

theorem forM {f : α → EStateM Fault σ PUnit} (h : ∀ a, P a → Keeps I (fun _ => True) (f a)) :
    ∀ {l : List α}, (∀ a ∈ l, P a) → Keeps I (fun _ => True) (l.forM f)
  | [], _ => .pure trivial
  | a :: l, hl => by
    show Keeps I _ (f a >>= fun _ => l.forM f)
    exact (h a (hl a List.mem_cons_self)).bind fun _ _ =>
      forM h fun b hb => hl b (List.mem_cons_of_mem _ hb)

theorem mapM_forall₂ {R : α → β → Prop} {f : α → EStateM Fault σ β} {l : List α}
    (h : ∀ a ∈ l, Keeps I (R a) (f a)) : Keeps I (List.Forall₂ R l) (l.mapM f) := by
  induction l with
  | nil => rw [List.mapM_nil]; exact .pure .nil
  | cons a l ih =>
    rw [List.mapM_cons]
    exact (h a List.mem_cons_self).bind fun b hb =>
      (ih fun c hc => h c (List.mem_cons_of_mem _ hc)).bind fun bs hbs => .pure (.cons hb hbs)

theorem repeatM_all {x : EStateM Fault σ α} (h : Keeps I P x) (n : Nat) :
    Keeps I (fun l => l.length = n ∧ ∀ a ∈ l, P a) (Ndr.repeatM n x) := by
  induction n with
  | zero => exact .pure ⟨rfl, fun a ha => absurd ha List.not_mem_nil⟩
  | succ n ih =>
    rw [repeatM_succ]
    refine h.bind fun a ha => ih.map fun l hl => ⟨congrArg (· + 1) hl.1, ?_⟩
    exact List.forall_mem_cons.2 ⟨ha, hl.2⟩

theorem repeatM {x : EStateM Fault σ α} (h : Keeps I (fun _ => True) x) (n : Nat) :
    Keeps I (fun _ => True) (repeatM n x) := (repeatM_all h n).weaken

end Keeps

/-! ### Steps in turn -/

theorem lift_bind (x : Except Fault α) (f : α → Except Fault β) :
    (liftM (x >>= f) : EStateM Fault σ β) = (do let a ← liftM x; liftM (f a)) := by
  cases x <;> rfl

theorem lift_ok_bind (a : α) (f : α → EStateM Fault σ β) :
    (liftM (Except.ok a : Except Fault α) >>= f) = f a := rfl

/-- What follows depends on how an action ends, and on nothing else. -/
theorem bind_of_eq {x y : EStateM Fault σ α} {s t : σ} (h : x s = y t)
    (f : α → EStateM Fault σ β) : (x >>= f) s = (y >>= f) t := by
  simp only [bind, EStateM.bind, h]

/-- What follows an action may count on what its results have in common. -/
theorem bind_congr_of {P : α → Prop} {x : EStateM Fault σ α} {f g : α → EStateM Fault σ β}
    (hx : Keeps (fun _ => True) P x) (h : ∀ a, P a → f a = g a) : x >>= f = x >>= g := by
  funext s
  have hends := hx s trivial
  cases e : x s with
  | error fault t => rw [bind_of_error e, bind_of_error e]
  | ok a t =>
    rw [e] at hends
    rw [bind_of_ok e, bind_of_ok e, h a hends.2]

theorem lift_bind_congr {x : Except Fault α} {f g : α → EStateM Fault σ β}
    (h : ∀ a, x = .ok a → f a = g a) :
    ((liftM x : EStateM Fault σ α) >>= f) = (liftM x : EStateM Fault σ α) >>= g :=
  bind_congr_of (Keeps.lift x) h

theorem mapM_congr {f g : α → EStateM Fault σ β} {l : List α} (h : ∀ a ∈ l, f a = g a) :
    l.mapM f = l.mapM g := by
  induction l with
  | nil => rw [List.mapM_nil, List.mapM_nil]
  | cons a l ih =>
    rw [List.mapM_cons, List.mapM_cons, h a List.mem_cons_self, ih fun b hb => h b (List.mem_cons_of_mem _ hb)]

theorem Except.bind_congr_of {x : Except Fault α} {f g : α → Except Fault β}
    (h : ∀ a, x = .ok a → f a = g a) : x >>= f = x >>= g := by
  cases x with
  | error e => rfl
  | ok a => exact h a rfl

/-! ### Actions that do the same -/

/-- Two actions that do the same wherever `I` holds, and end where it holds. -/
def Agree (I : σ → Prop) (x y : EStateM Fault σ α) : Prop :=
  ∀ s, I s → x s = y s ∧ Ends I (fun _ => True) (x s)

namespace Agree

variable {I : σ → Prop} {x y : EStateM Fault σ α}

theorem self (h : Keeps I (fun _ => True) x) : Agree I x x := fun s hs => ⟨rfl, h s hs⟩

theorem keeps (h : Agree I x y) : Keeps I (fun _ => True) x := fun s hs => (h s hs).2

/-- What follows may count on what the results of the first action have in common. -/
theorem bind_of {P : α → Prop} {f g : α → EStateM Fault σ β} (hx : Agree I x y) (hP : Keeps I P x)
    (h : ∀ a, P a → Agree I (f a) (g a)) : Agree I (x >>= f) (y >>= g) := by
  intro s hs
  obtain ⟨he, -⟩ := hx s hs
  have hends := hP s hs
  cases e : x s with
  | error fault t =>
    rw [e] at hends
    rw [bind_of_error e, bind_of_error (he ▸ e)]
    exact ⟨rfl, hends⟩
  | ok a t =>
    rw [e] at hends
    rw [bind_of_ok e, bind_of_ok (he ▸ e)]
    exact h a hends.2 t hends.1

theorem bind {f g : α → EStateM Fault σ β} (hx : Agree I x y) (h : ∀ a, Agree I (f a) (g a)) :
    Agree I (x >>= f) (y >>= g) := hx.bind_of hx.keeps fun a _ => h a

/-- Actions that depend in the same way on what they see in the state. -/
theorem see {γ : Type} {h : σ → γ} {f g : γ → EStateM Fault σ α} (hf : ∀ c, Agree I (f c) (g c)) :
    Agree I (get >>= fun s => f (h s)) (get >>= fun s => g (h s)) :=
  fun s hs => hf (h s) s hs

/-- An action that follows however the first one ends. -/
theorem tryFinally {z : EStateM Fault σ β} (hx : Agree I x y) (hz : Keeps I (fun _ => True) z) :
    Agree I (tryFinally x z) (tryFinally y z) := by
  intro s hs
  obtain ⟨he, hends⟩ := hx s hs
  show EStateM.map Prod.fst (fun s => tryFinally' x (fun _ => z) s) s
      = EStateM.map Prod.fst (fun s => tryFinally' y (fun _ => z) s) s ∧
    Ends I _ (EStateM.map Prod.fst (fun s => tryFinally' x (fun _ => z) s) s)
  simp only [EStateM.map, tryFinally', ← he]
  refine ⟨trivial, ?_⟩
  cases e : x s with
  | ok a t =>
    rw [e] at hends
    have hlast := hz t hends.1
    dsimp only
    cases e' : z t with
    | ok b u => rw [e'] at hlast; exact ⟨hlast.1, trivial⟩
    | error f u => rw [e'] at hlast; exact hlast
  | error f t =>
    rw [e] at hends
    have hlast := hz t hends
    dsimp only
    cases e' : z t with
    | ok b u => rw [e'] at hlast; exact hlast.1
    | error f u => rw [e'] at hlast; exact hlast

end Agree

/-! ### Two runs -/

/-- Two ends in related states, both after a success with the same result or both after the same
fault. -/
inductive EndsAlike (I : σ → τ → Prop) :
    EStateM.Result Fault σ α → EStateM.Result Fault τ α → Prop where
  | ok {a : α} {s : σ} {t : τ} : I s t → EndsAlike I (.ok a s) (.ok a t)
  | error {e : Fault} {s : σ} {t : τ} : I s t → EndsAlike I (.error e s) (.error e t)

/-- Two actions that go the same way in related states, and end in related states. -/
def Tandem (I : σ → τ → Prop) (x : EStateM Fault σ α) (y : EStateM Fault τ α) : Prop :=
  ∀ s t, I s t → EndsAlike I (x s) (y t)

namespace Tandem

variable {I : σ → τ → Prop}

theorem pure (a : α) : Tandem I (pure a) (pure a) := fun _ _ h => .ok h

theorem throw (e : Fault) : Tandem I (throw e : EStateM Fault σ α) (throw e) := fun _ _ h => .error h

theorem lift (x : Except Fault α) : Tandem I (liftM x) (liftM x) := by
  cases x with
  | ok a => exact .pure a
  | error e => exact .throw e

theorem bind {x : EStateM Fault σ α} {y : EStateM Fault τ α} {f : α → EStateM Fault σ β}
    {g : α → EStateM Fault τ β} (hxy : Tandem I x y) (h : ∀ a, Tandem I (f a) (g a)) :
    Tandem I (x >>= f) (y >>= g) := by
  intro s t hst
  have hends := hxy s t hst
  generalize hx : x s = r, hy : y t = r' at hends
  cases hends with
  | ok hst' =>
    rw [bind_of_ok hx, bind_of_ok hy]
    exact h _ _ _ hst'
  | error hst' =>
    rw [bind_of_error hx, bind_of_error hy]
    exact .error hst'

theorem ite {c : Prop} [Decidable c] {x x' : EStateM Fault σ α} {y y' : EStateM Fault τ α}
    (hx : Tandem I x y) (hx' : Tandem I x' y') :
    Tandem I (if c then x else x') (if c then y else y') := by
  split
  · exact hx
  · exact hx'

theorem modify {f : σ → σ} {g : τ → τ} (h : ∀ s t, I s t → I (f s) (g t)) :
    Tandem I (modify f : EStateM Fault σ PUnit) (modify g) := fun _ _ hst => .ok (h _ _ hst)

/-- Actions that depend on the states they start in. -/
theorem see {f : σ → EStateM Fault σ α} {g : τ → EStateM Fault τ α}
    (h : ∀ s t, I s t → EndsAlike I (f s s) (g t t)) : Tandem I (get >>= f) (get >>= g) := h

/-- An action on a part that related states have in common. -/
theorem onPart {I : σ → σ → Prop} {get : σ → τ} {set : σ → τ → σ}
    (h : ∀ s t, I s t → get t = get s ∧ ∀ u, I (set s u) (set t u)) (x : EStateM Fault τ α) :
    Tandem I (onPart get set x) (onPart get set x) := by
  intro s t hst
  obtain ⟨hget, hset⟩ := h s t hst
  unfold Ndr.onPart
  rw [hget]
  cases x (get s) with
  | ok a u => exact .ok (hset u)
  | error e u => exact .error (hset u)

/-- An action that follows however the first one ends. -/
theorem tryFinally {x : EStateM Fault σ α} {y : EStateM Fault τ α} {z : EStateM Fault σ β}
    {z' : EStateM Fault τ β} (hxy : Tandem I x y) (hz : Tandem I z z') :
    Tandem I (tryFinally x z) (tryFinally y z') := by
  intro s t hst
  have hends := hxy s t hst
  show EndsAlike I (EStateM.map Prod.fst (fun s => tryFinally' x (fun _ => z) s) s)
    (EStateM.map Prod.fst (fun s => tryFinally' y (fun _ => z') s) t)
  simp only [EStateM.map, tryFinally']
  generalize x s = r, y t = r' at hends
  cases hends with
  | @ok a s' t' hst' =>
    have hlast := hz s' t' hst'
    dsimp only
    generalize z s' = q, z' t' = q' at hlast
    cases hlast with
    | ok h => exact .ok h
    | error h => exact .error h
  | @error e s' t' hst' =>
    have hlast := hz s' t' hst'
    dsimp only
    generalize z s' = q, z' t' = q' at hlast
    cases hlast with
    | ok h => exact .error h
    | error h => exact .error h

end Tandem

/-! ### A run that may stop early -/

/-- Two runs of an action end alike, or the first fails ahead of the second, and `H` relates where it
failed to where the second ends. -/
def Shadows (A : σ → σ → Prop) (H : Fault → σ → σ → Prop) (r r' : EStateM.Result Fault σ α) : Prop :=
  EndsAlike A r r' ∨ ∃ e s, r = .error e s ∧ Ends (H e s) (fun _ => True) r'

/-- From states that `A` relates, the first run of an action may stop early; when it has, the second
goes on where `H` holds. -/
structure Shadowing (A : σ → σ → Prop) (H : Fault → σ → σ → Prop) (x : EStateM Fault σ α) : Prop where
  step : ∀ s t, A s t → Shadows A H (x s) (x t)
  onward : ∀ e s, Keeps (H e s) (fun _ => True) x

namespace Shadowing

variable {A : σ → σ → Prop} {H : Fault → σ → σ → Prop}

theorem pure (a : α) : Shadowing A H (pure a) := ⟨fun _ _ h => .inl (.ok h), fun _ _ => .pure trivial⟩

theorem throw (e : Fault) : Shadowing A H (throw e : EStateM Fault σ α) :=
  ⟨fun _ _ h => .inl (.error h), fun _ _ => .throw e⟩

theorem lift (x : Except Fault α) : Shadowing A H (liftM x : EStateM Fault σ α) := by
  cases x with
  | ok a => exact pure a
  | error e => exact throw e

theorem bind {x : EStateM Fault σ α} {f : α → EStateM Fault σ β} (hx : Shadowing A H x)
    (hf : ∀ a, Shadowing A H (f a)) : Shadowing A H (x >>= f) := by
  refine ⟨fun s t hst => ?_, fun e s => (hx.onward e s).bind fun a _ => (hf a).onward e s⟩
  rcases hx.step s t hst with h | ⟨e, s', he, h⟩
  · generalize hs : x s = r, ht : x t = r' at h
    cases h with
    | ok h =>
      rw [bind_of_ok hs, bind_of_ok ht]
      exact (hf _).step _ _ h
    | error h =>
      rw [bind_of_error hs, bind_of_error ht]
      exact .inl (.error h)
  · exact .inr ⟨e, s', bind_of_error he f, h.bind fun a t' _ ht' _ => (hf a).onward e s' t' ht'⟩

/-- Actions that depend on what both runs see alike. -/
theorem see {f : σ → EStateM Fault σ α} (hA : ∀ s t, A s t → f t = f s)
    (hf : ∀ s, Shadowing A H (f s)) : Shadowing A H (get >>= f) where
  step s t hst := by
    show Shadows A H (f s s) (f t t)
    rw [hA s t hst]
    exact (hf s).step s t hst
  onward e s t ht := (hf t).onward e s t ht

theorem ite {c : Prop} [Decidable c] {x y : EStateM Fault σ α} (hx : Shadowing A H x)
    (hy : Shadowing A H y) : Shadowing A H (if c then x else y) := by
  split
  · exact hx
  · exact hy

theorem forM {f : β → EStateM Fault σ PUnit} (hf : ∀ b, Shadowing A H (f b)) (l : List β) :
    Shadowing A H (l.forM f) := by
  induction l with
  | nil => exact pure _
  | cons b l ih => exact (hf b).bind fun _ => ih

protected theorem modify {f : σ → σ} (hA : ∀ s t, A s t → A (f s) (f t))
    (hH : ∀ e s t, H e s t → H e s (f t)) :
    Shadowing A H (modify f : EStateM Fault σ PUnit) :=
  ⟨fun _ _ h => .inl (.ok (hA _ _ h)), fun e s => Keeps.modify (hH e s)⟩

/-- A change that is made however the action ends. -/
theorem tryFinally_modify {x : EStateM Fault σ α} {f : σ → σ} (hx : Shadowing A H x)
    (hA : ∀ s t, A s t → A (f s) (f t)) (hfirst : ∀ e s t, H e s t → H e (f s) t)
    (hsecond : ∀ e s t, H e s t → H e s (f t)) : Shadowing A H (tryFinally x (modify f)) := by
  refine ⟨fun s t hst => ?_, fun e s t ht => ?_⟩
  · rw [Ndr.tryFinally_modify, Ndr.tryFinally_modify]
    rcases hx.step s t hst with hends | ⟨e, u, he, hends⟩
    · generalize x s = r, x t = r' at hends
      cases hends with
      | ok h => exact .inl (.ok (hA _ _ h))
      | error h => exact .inl (.error (hA _ _ h))
    · rw [he]
      refine .inr ⟨e, f u, rfl, ?_⟩
      generalize x t = r' at hends
      cases r' with
      | ok a t' => exact ⟨hfirst _ _ _ (hsecond _ _ _ hends.1), trivial⟩
      | error e t' => exact hfirst _ _ _ (hsecond _ _ _ hends)
  · have hends := hx.onward e s t ht
    rw [Ndr.tryFinally_modify]
    generalize x t = r at hends
    cases r with
    | ok a t' => exact ⟨hsecond _ _ _ hends.1, trivial⟩
    | error e t' => exact hsecond _ _ _ hends

end Shadowing

end Ndr
