import Mathlib.Data.List.Forall2
import Ndr.Proofs.Action

/-!
Work that is put off. To do an item is an action that hands back the items put off in it. They are
done before the items behind it: by recursion, or in a loop that keeps the batches under way on a
stack. Both do the same items in the same order and in the same states, and end alike.
-/

namespace Ndr.Deferral

variable {σ δ : Type}

/-- What is done for an item; the items put off in it are handed back in their order. -/
abbrev Visit (σ δ : Type) := δ → EStateM Fault σ (List δ)

/-- The items that were done, in order, each with the state in which it was begun. -/
abbrev Tour (σ δ : Type) := List (δ × σ)

/-- What an action comes to that has no result of its own. -/
abbrev End (σ : Type) := EStateM.Result Fault σ Unit

section

variable (visit : Visit σ δ)

/-! ### Recursion -/

/-- Items are done one after the other, each followed by those put off in it, to any depth. -/
inductive Each : List δ → σ → Tour σ δ → End σ → Prop where
  | nil (s : σ) : Each [] s [] (.ok () s)
  | fault {d : δ} {ds : List δ} {s t : σ} {e : Fault} (here : visit d s = .error e t) :
      Each (d :: ds) s [(d, s)] (.error e t)
  | faultWithin {d : δ} {ds es : List δ} {s t u : σ} {e : Fault} {c : Tour σ δ}
      (here : visit d s = .ok es t) (within : Each es t c (.error e u)) :
      Each (d :: ds) s ((d, s) :: c) (.error e u)
  | cons {d : δ} {ds es : List δ} {s t u : σ} {c c' : Tour σ δ} {r : End σ}
      (here : visit d s = .ok es t) (within : Each es t c (.ok () u)) (behind : Each ds u c' r) :
      Each (d :: ds) s ((d, s) :: c ++ c') r

/-! ### The loop -/

/-- Put a batch on the stack, unless it is empty. -/
def push (batch : List δ) (stack : List (List δ)) : List (List δ) :=
  if batch.isEmpty then stack else batch :: stack

/-- The loop over a stack of batches. Every turn takes the next item of the batch on top, or that
batch away where it has none. -/
inductive Loop : List (List δ) → σ → Tour σ δ → End σ → Prop where
  | done (s : σ) : Loop [] s [] (.ok () s)
  | pop {stack : List (List δ)} {s : σ} {c : Tour σ δ} {r : End σ} (rest : Loop stack s c r) :
      Loop ([] :: stack) s c r
  | fault {d : δ} {ds : List δ} {stack : List (List δ)} {s t : σ} {e : Fault}
      (here : visit d s = .error e t) : Loop ((d :: ds) :: stack) s [(d, s)] (.error e t)
  | turn {d : δ} {ds es : List δ} {stack : List (List δ)} {s t : σ} {c : Tour σ δ} {r : End σ}
      (here : visit d s = .ok es t) (rest : Loop (push es (ds :: stack)) t c r) :
      Loop ((d :: ds) :: stack) s ((d, s) :: c) r

/-! ### Recursion with a bound -/

/-- The recursion to a depth, with the fault beyond. -/
def within (limit : Fault) : Nat → List δ → EStateM Fault σ Unit
  | _, [] => return
  | 0, _ :: _ => throw limit
  | depth + 1, d :: ds => (d :: ds).forM fun d => do within limit depth (← visit d)

end

/-- An action that puts items off, followed by what `Rest` says of these. -/
inductive Followed (Rest : List δ → σ → Tour σ δ → End σ → Prop) (x : EStateM Fault σ (List δ))
    (s : σ) : Tour σ δ → End σ → Prop where
  | fault {e : Fault} {t : σ} (here : x s = .error e t) : Followed Rest x s [] (.error e t)
  | done {ds : List δ} {t : σ} {c : Tour σ δ} {r : End σ} (here : x s = .ok ds t)
      (rest : Rest ds t c r) : Followed Rest x s c r

variable {visit : Visit σ δ} {d : δ} {ds es : List δ} {s t u : σ} {c c' : Tour σ δ}
  {r r' : End σ} {stack : List (List δ)} {x : EStateM Fault σ (List δ)}

theorem Followed.mono {R R' : List δ → σ → Tour σ δ → End σ → Prop} (h : Followed R x s c r)
    (hR : ∀ ds t c r, R ds t c r → R' ds t c r) : Followed R' x s c r := by
  cases h with
  | fault here => exact .fault here
  | done here rest => exact .done here (hR _ _ _ _ rest)

/-! ### Recursion on lists put together -/

/-- Items in a row are done up to a fault, or all of them and then those behind. -/
theorem each_append : Each visit (ds ++ es) s c r ↔
    (∃ e t, r = .error e t ∧ Each visit ds s c r) ∨
      ∃ c₁ u c₂, c = c₁ ++ c₂ ∧ Each visit ds s c₁ (.ok () u) ∧ Each visit es u c₂ r := by
  induction ds generalizing s c with
  | nil =>
    constructor
    · exact fun h => .inr ⟨[], s, c, rfl, .nil s, h⟩
    · rintro (⟨e, t, rfl, h⟩ | ⟨c₁, u, c₂, rfl, h, h'⟩)
      · nomatch h
      · cases h
        exact h'
  | cons d ds ih =>
    constructor
    · intro h
      cases h with
      | fault here => exact .inl ⟨_, _, rfl, .fault here⟩
      | faultWithin here within => exact .inl ⟨_, _, rfl, .faultWithin here within⟩
      | cons here within behind =>
        rcases ih.1 behind with ⟨e, t, rfl, h⟩ | ⟨c₁, u, c₂, rfl, h, h'⟩
        · exact .inl ⟨e, t, rfl, .cons here within h⟩
        · exact .inr ⟨_, u, c₂, (List.append_assoc _ _ _).symm, .cons here within h, h'⟩
    · rintro (⟨e, t, rfl, h⟩ | ⟨c₁, u, c₂, rfl, h, h'⟩)
      · cases h with
        | fault here => exact .fault here
        | faultWithin here within => exact .faultWithin here within
        | cons here within behind =>
          exact .cons here within (ih.2 (.inl ⟨e, t, rfl, behind⟩))
      · cases h with
        | cons here within behind =>
          rw [List.append_assoc]
          exact .cons here within (ih.2 (.inr ⟨_, u, c₂, rfl, behind, h'⟩))

/-- What was put off in an item may as well stand ahead of the items behind it. -/
theorem Each.of_append (here : visit d s = .ok es t) (h : Each visit (es ++ ds) t c r) :
    Each visit (d :: ds) s ((d, s) :: c) r := by
  rcases each_append.1 h with ⟨e, u, rfl, h⟩ | ⟨c₁, u, c₂, rfl, h, h'⟩
  · exact .faultWithin here h
  · exact .cons here h h'

/-- The tour and the end of a recursion are determined by its start. -/
theorem Each.unique (h : Each visit ds s c r) (h' : Each visit ds s c' r') : c = c' ∧ r = r' := by
  induction h generalizing c' r' with
  | nil =>
    cases h'
    exact ⟨rfl, rfl⟩
  | fault here =>
    cases h' with
    | fault here' =>
      cases here.symm.trans here'
      exact ⟨rfl, rfl⟩
    | faultWithin here' => cases here.symm.trans here'
    | cons here' => cases here.symm.trans here'
  | faultWithin here _ ih =>
    cases h' with
    | fault here' => cases here.symm.trans here'
    | faultWithin here' within =>
      cases here.symm.trans here'
      obtain ⟨rfl, hr⟩ := ih within
      exact ⟨rfl, hr⟩
    | cons here' within =>
      cases here.symm.trans here'
      exact nomatch (ih within).2
  | cons here _ _ ih ihb =>
    cases h' with
    | fault here' => cases here.symm.trans here'
    | faultWithin here' within =>
      cases here.symm.trans here'
      exact nomatch (ih within).2
    | cons here' within behind =>
      cases here.symm.trans here'
      obtain ⟨rfl, hu⟩ := ih within
      cases hu
      obtain ⟨rfl, rfl⟩ := ihb behind
      exact ⟨rfl, rfl⟩

theorem Followed.unique (h : Followed (Each visit) x s c r)
    (h' : Followed (Each visit) x s c' r') : c = c' ∧ r = r' := by
  cases h with
  | fault here =>
    cases h' with
    | fault here' =>
      cases here.symm.trans here'
      exact ⟨rfl, rfl⟩
    | done here' => cases here.symm.trans here'
  | done here rest =>
    cases h' with
    | fault here' => cases here.symm.trans here'
    | done here' rest' =>
      cases here.symm.trans here'
      exact rest.unique rest'

/-! ### The loop is the recursion -/

theorem flatten_push (batch : List δ) (stack : List (List δ)) :
    (push batch stack).flatten = batch ++ stack.flatten := by
  unfold push
  split
  · rename_i h
    rw [List.isEmpty_iff.1 h, List.nil_append]
  · rfl

/-- The loop does what is on its stack, from top to bottom. -/
theorem Loop.each (h : Loop visit stack s c r) : Each visit stack.flatten s c r := by
  induction h with
  | done s => exact .nil s
  | pop _ ih => exact ih
  | fault here => exact .fault here
  | turn here _ ih =>
    rw [flatten_push] at ih
    exact .of_append here ih

/-- How the loop goes on after a batch that came to an end: with the stack below it, or no
further. -/
def Resumes (visit : Visit σ δ) (stack : List (List δ)) : End σ → Tour σ δ → End σ → Prop
  | .ok _ u, c, r => Loop visit stack u c r
  | .error e t, c, r => c = [] ∧ r = .error e t

theorem Loop.push (h : Loop visit (ds :: stack) s c r) : Loop visit (push ds stack) s c r := by
  unfold Deferral.push
  split
  · rename_i hd
    rw [List.isEmpty_iff.1 hd] at h
    cases h with
    | pop rest => exact rest
  · exact h

/-- A batch on top of the stack is done as the recursion does it. -/
theorem Each.loop (h : Each visit ds s c r) (hr : Resumes visit stack r c' r') :
    Loop visit (ds :: stack) s (c ++ c') r' := by
  induction h generalizing stack c' r' with
  | nil => exact .pop hr
  | fault here =>
    obtain ⟨rfl, rfl⟩ := hr
    exact .fault here
  | faultWithin here _ ih =>
    exact .turn here (Loop.push (ih hr))
  | cons here _ _ ih ihb =>
    rw [List.cons_append, List.cons_append, List.append_assoc]
    exact .turn here (Loop.push (ih (ihb hr)))

/-- **The loop keeps the order of the recursion**: from a batch alone on the stack it does the same
items, each in the same state, and ends alike. -/
theorem loop_iff_each : Loop visit [ds] s c r ↔ Each visit ds s c r := by
  constructor
  · intro h
    have := h.each
    rwa [List.flatten_singleton] at this
  · intro h
    have hr : Resumes visit [] r [] r := by
      cases r with
      | ok => exact .done _
      | error => exact ⟨rfl, rfl⟩
    have := h.loop hr
    rwa [List.append_nil] at this

/-- An action and the loop behind it. -/
theorem looped_iff :
    Followed (fun ds => Loop visit [ds]) x s c r ↔ Followed (Each visit) x s c r :=
  ⟨fun h => h.mono fun _ _ _ _ => loop_iff_each.1, fun h => h.mono fun _ _ _ _ => loop_iff_each.2⟩

/-! ### The recursion with a bound -/

section

variable {limit : Fault} {depth : Nat}

theorem within_nil : within visit limit depth [] s = .ok () s := by
  cases depth <;> rfl

theorem within_cons : within visit limit (depth + 1) (d :: ds) =
    (visit d >>= within visit limit depth) >>= fun _ => within visit limit (depth + 1) ds := by
  cases ds <;> rfl

theorem within_of_error {e : Fault} (here : visit d s = .error e t) :
    within visit limit (depth + 1) (d :: ds) s = .error e t := by
  rw [within_cons]
  exact bind_of_error (bind_of_error here _) _

theorem within_of_ok (here : visit d s = .ok es t) :
    within visit limit (depth + 1) (d :: ds) s =
      (within visit limit depth es >>= fun _ => within visit limit (depth + 1) ds) t := by
  have hhere : (visit d >>= within visit limit depth) s = within visit limit depth es t :=
    bind_of_ok here _
  rw [within_cons]
  cases hw : within visit limit depth es t with
  | error e u => rw [bind_of_error (hhere.trans hw), bind_of_error hw]
  | ok a u => rw [bind_of_ok (hhere.trans hw), bind_of_ok hw]

/-- Where it is enough, the bound is none. -/
theorem exists_each {E : Nat → List δ → σ → Prop} (hpos : ∀ {d ds s}, ¬ E 0 (d :: ds) s)
    (hin : ∀ {n d ds s es t}, E (n + 1) (d :: ds) s → visit d s = .ok es t → E n es t)
    (hbehind : ∀ {n d ds s es t u}, E (n + 1) (d :: ds) s → visit d s = .ok es t →
      within visit limit n es t = .ok () u → E (n + 1) ds u)
    (h : E depth ds s) : ∃ c, Each visit ds s c (within visit limit depth ds s) := by
  induction depth generalizing ds s with
  | zero =>
    cases ds with
    | nil => exact ⟨[], .nil s⟩
    | cons d ds => exact absurd h hpos
  | succ depth ih =>
    induction ds generalizing s with
    | nil => exact ⟨[], .nil s⟩
    | cons d ds ihds =>
      cases here : visit d s with
      | error e t => exact ⟨_, by rw [within_of_error here]; exact .fault here⟩
      | ok es t =>
        obtain ⟨c, hc⟩ := ih (hin h here)
        rw [within_of_ok here]
        cases hw : within visit limit depth es t with
        | error e u =>
          rw [bind_of_error hw]
          exact ⟨_, .faultWithin here (hw ▸ hc)⟩
        | ok a u =>
          rw [bind_of_ok hw]
          obtain ⟨c', hc'⟩ := ihds (hbehind h here hw)
          exact ⟨_, .cons here (hw ▸ hc) hc'⟩

/-- A recursion that does not end with the bound is one without it. -/
theorem each_of_within (h : ∀ t, within visit limit depth ds s ≠ .error limit t) :
    ∃ c, Each visit ds s c (within visit limit depth ds s) := by
  refine exists_each (E := fun n ds s => ∀ t, within visit limit n ds s ≠ .error limit t)
    (fun h => h _ rfl) (fun h here t ht => ?_) (fun h here hw t ht => ?_) h
  · exact h t ((within_of_ok here).trans (bind_of_error ht _))
  · exact h t ((within_of_ok here).trans ((bind_of_ok hw _).trans ht))

/-- Every item leaves `Inv` as it is, and `level` goes up where it puts others off. -/
structure Rises (visit : Visit σ δ) (Inv : σ → Prop) (level : σ → Int) : Prop where
  inv : ∀ {d s es t}, Inv s → visit d s = .ok es t → Inv t
  le : ∀ {d s es t}, Inv s → visit d s = .ok es t → level s ≤ level t
  lt : ∀ {d s es t}, Inv s → visit d s = .ok es t → es ≠ [] → level s < level t

variable {Inv : σ → Prop} {level : σ → Int}

theorem Each.rises (hv : Rises visit Inv level) (h : Each visit ds s c r) (hs : Inv s) :
    ∀ {t}, r = .ok () t → Inv t ∧ level s ≤ level t := by
  induction h with
  | nil =>
    rintro t ⟨⟩
    exact ⟨hs, Int.le_refl _⟩
  | fault => nofun
  | faultWithin => nofun
  | cons here _ _ ih ihb =>
    intro w hr
    obtain ⟨hu, hle⟩ := ih (hv.inv hs here) rfl
    obtain ⟨hw, hle'⟩ := ihb hu hr
    exact ⟨hw, Int.le_trans (hv.le hs here) (Int.le_trans hle hle')⟩

/-- A recursion whose items all begin below a level goes no deeper than there are levels. -/
theorem Each.within_eq (hv : Rises visit Inv level) (h : Each visit ds s c r) (hs : Inv s)
    {top : Int} (hc : ∀ p ∈ c, level p.2 < top) (hd : top ≤ depth + level s) :
    within visit limit depth ds s = r := by
  -- an item begins below the top, so there is a level left for it
  have hroom : ∀ {depth : Nat} {s : σ}, level s < top → top ≤ depth + level s →
      ∃ n, depth = n + 1 := fun hlt hle => Nat.exists_eq_succ_of_ne_zero (by omega)
  induction h generalizing depth with
  | nil => exact within_nil
  | fault here =>
    obtain ⟨n, rfl⟩ := hroom (hc _ List.mem_cons_self) hd
    exact within_of_error here
  | faultWithin here hwithin ih =>
    obtain ⟨hlt, hc⟩ := List.forall_mem_cons.1 hc
    obtain ⟨n, rfl⟩ := hroom hlt hd
    have hup := hv.lt hs here (by rintro rfl; nomatch hwithin)
    rw [within_of_ok here]
    exact bind_of_error (ih (hv.inv hs here) hc (by omega)) _
  | @cons d ds es s t u c c' r here hwithin _ ih ihb =>
    obtain ⟨hlt, hc⟩ := List.forall_mem_cons.1 hc
    obtain ⟨hc, hc'⟩ := List.forall_mem_append.1 hc
    obtain ⟨n, rfl⟩ := hroom hlt hd
    obtain ⟨hu, hle⟩ := hwithin.rises hv (hv.inv hs here) rfl
    have hup := hv.le hs here
    have hes : within visit limit n es t = .ok () u := by
      cases es with
      | nil =>
        cases hwithin
        exact within_nil
      | cons e es =>
        have hup := hv.lt hs here (List.cons_ne_nil e es)
        exact ih (hv.inv hs here) hc (by omega)
    rw [within_of_ok here, bind_of_ok hes]
    exact ihb hu hc' (by omega)

/-- No item begins at the top, and so the recursion comes to an end. -/
theorem Rises.exists_each (hv : Rises visit Inv level) {top : Int} (htop : ∀ s, Inv s → level s < top)
    (hs : Inv s) (hd : top ≤ depth + level s) :
    ∃ c, Each visit ds s c (within visit limit depth ds s) := by
  refine Deferral.exists_each
    (E := fun n ds s => Inv s ∧ (ds = [] ∨ top ≤ n + level s)) ?_ ?_ ?_ ⟨hs, .inr hd⟩
  · rintro d ds s ⟨hs, hd⟩
    have hlt := htop s hs
    have hd := hd.resolve_left (List.cons_ne_nil d ds)
    omega
  · rintro n d ds s es t ⟨hs, hd⟩ here
    refine ⟨hv.inv hs here, (Classical.em (es = [])).imp_right fun hes => ?_⟩
    have hup := hv.lt hs here hes
    have hd := hd.resolve_left (List.cons_ne_nil d ds)
    omega
  · rintro n d ds s es t u ⟨hs, hd⟩ here hw
    obtain ⟨c, hc⟩ := each_of_within (fun u hu => nomatch hw.symm.trans hu)
    obtain ⟨hu, hle⟩ := (hw ▸ hc).rises hv (hv.inv hs here) rfl
    have hup := hv.le hs here
    have hd := hd.resolve_left (List.cons_ne_nil d ds)
    exact ⟨hu, .inr (by omega)⟩

/-- Any greater bound gives the same. -/
theorem Rises.within_eq (hv : Rises visit Inv level) {top : Int} (htop : ∀ s, Inv s → level s < top)
    (hs : Inv s) {depth' : Nat} (hd : top ≤ depth + level s) (hd' : top ≤ depth' + level s) :
    within visit limit depth ds s = within visit limit depth' ds s := by
  obtain ⟨c, h⟩ := hv.exists_each htop hs hd
  obtain ⟨c', h'⟩ := hv.exists_each htop hs hd'
  exact (h.unique h').2

end

/-! ### Two recursions in step -/

section

variable {τ ε : Type} {visit' : Visit τ ε} {P : List δ → σ → List ε → τ → Prop}

/-- `P` pairs the items that are ahead of two recursions, and with each item that the one does to
its end the other does one, which is its partner, and as many are put off in both. -/
structure InStep (visit : Visit σ δ) (visit' : Visit τ ε)
    (P : List δ → σ → List ε → τ → Prop) : Prop where
  nil : ∀ {s es u}, P [] s es u → es = []
  cons : ∀ {d ds s es u new t}, P (d :: ds) s es u → visit d s = .ok new t →
    ∃ d' es' new' v, es = d' :: es' ∧ visit' d' u = .ok new' v ∧ P (new ++ ds) t (new' ++ es') v

/-- What a recursion does that comes to its end, one item at a time. -/
theorem each_cons_ok : Each visit (d :: ds) s c (.ok () u) ↔
    ∃ es t c', visit d s = .ok es t ∧ c = (d, s) :: c' ∧ Each visit (es ++ ds) t c' (.ok () u) := by
  constructor
  · intro h
    cases h with
    | cons here within behind =>
      exact ⟨_, _, _, here, rfl, each_append.2 (.inr ⟨_, _, _, rfl, within, behind⟩)⟩
  · rintro ⟨es, t, c', here, rfl, h⟩
    exact .of_append here h

/-- **The n-th item of the one is the partner of the n-th of the other.** -/
theorem Each.inStep (hP : InStep visit visit' P) {es : List ε} {v : τ}
    (h : Each visit ds s c (.ok () t)) (hp : P ds s es v) :
    ∃ c' w, Each visit' es v c' (.ok () w) ∧ P [] t [] w ∧
      List.Forall₂ (fun p q => ∃ ds es, P (p.1 :: ds) p.2 (q.1 :: es) q.2) c c' := by
  induction c generalizing ds s es v with
  | nil =>
    cases h
    obtain rfl := hP.nil hp
    exact ⟨[], v, .nil v, hp, .nil⟩
  | cons p c ih =>
    cases ds with
    | nil => nomatch h
    | cons d ds =>
      obtain ⟨new, t', c', here, hc, hrest⟩ := each_cons_ok.1 h
      cases hc
      obtain ⟨d', es', new', v', rfl, here', hp'⟩ := hP.cons hp here
      obtain ⟨c'', w, h', hend, hall⟩ := ih hrest hp'
      exact ⟨_, w, .of_append here' h', hend, .cons ⟨ds, es', hp⟩ hall⟩

end

end Ndr.Deferral
