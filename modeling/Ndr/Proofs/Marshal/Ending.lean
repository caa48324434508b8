import Mathlib.Algebra.Order.Ring.Nat
import Mathlib.Data.Finset.Card
import Mathlib.Tactic.Linarith
import Mathlib.Tactic.Positivity
import Mathlib.Tactic.Ring
import Ndr.Proofs.Deferral.Basic
import Ndr.Proofs.Marshal.Growth
import Ndr.Proofs.TypeVector.References

/-!
Where writing comes to an end. A pointee is put off because its cell was met for the first time, or
behind an embedded reference, for which no cell is looked up. So pointees come to an end where no
type refers to itself, whatever the heap, and the bound on their depth is none. Where references of
the heap go round, they are written without end.
-/

namespace Ndr.Marshal

variable {env : Env} {X : Nat → Prop} {N : Bool → Descriptor → Prop} {α β : Type} {s t u : State}

/-! ### What a step puts off -/

/-- Cells keep their ids, and of what was put off the type is among `X` or the cell was met for the
first time. -/
structure Steered (X : Nat → Prop) (s t : State) : Prop where
  nodes : ∀ c, (s.nodes.idOf? c).isSome → (t.nodes.idOf? c).isSome
  deferred : ∃ new, t.deferred = new ++ s.deferred ∧ ∀ d ∈ new, X d.pointee ∨
    s.nodes.idOf? d.cell = none ∧ (t.nodes.idOf? d.cell).isSome

namespace Steered

theorem of_eq (hn : t.nodes = s.nodes) (hd : t.deferred = s.deferred) : Steered X s t where
  nodes c h := hn ▸ h
  deferred := ⟨[], hd, by simp⟩

theorem trans (h : Steered X s t) (h' : Steered X t u) : Steered X s u where
  nodes c hc := h'.nodes c (h.nodes c hc)
  deferred := by
    obtain ⟨new, ht, hnew⟩ := h.deferred
    obtain ⟨newer, hu, hnewer⟩ := h'.deferred
    refine ⟨newer ++ new, by rw [hu, ht, List.append_assoc], fun d hd => ?_⟩
    rcases List.mem_append.1 hd with hd | hd
    · -- a cell that was new in the second step was new in the first
      refine (hnewer d hd).imp_right fun ⟨hnone, hsome⟩ => ⟨?_, hsome⟩
      rw [← Option.not_isSome_iff_eq_none] at hnone ⊢
      exact fun hs => hnone (h.nodes _ hs)
    · exact (hnew d hd).imp_right fun ⟨hnone, hsome⟩ => ⟨hnone, h'.nodes _ hsome⟩

theorem mem_deferred (h : Steered X s t) {d : Deferred Scope} (hd : d ∈ s.deferred) :
    d ∈ t.deferred := by
  obtain ⟨new, ht, -⟩ := h.deferred
  rw [ht]
  exact List.mem_append_right _ hd

end Steered

/-- An action that puts off nothing but pointees of types among `X` and cells that it meets for the
first time. -/
abbrev Steers (X : Nat → Prop) (x : Marshalling α) : Prop := Moves (Steered X) x

theorem composes_steers (env : Env) (X : Nat → Prop) : Composes env (Steers X) :=
  composes_moves (fun _ _ => .of_eq) .trans

theorem steers_sight (c : CellId) : Steers X (sight c) := fun s found t e => by
  obtain ⟨nodes, h, rfl⟩ := sight_eq_ok.1 e
  cases hc : s.nodes.idOf? c with
  | some id =>
    rw [NodeTable.sight_of_known hc] at h
    cases h
    exact .of_eq rfl rfl
  | none =>
    obtain ⟨-, -, rfl⟩ := NodeTable.sight_eq_ok_of_new hc h
    refine ⟨fun d hd => ?_, [], rfl, by simp⟩
    rw [NodeTable.idOf?_next]
    split
    · rfl
    · exact hd

/-- The cell of a pointer that has no id is met for the first time. -/
theorem idOf?_of_sight {c : CellId} {id : Nat} (e : sight c s = .ok (.first id) t) :
    s.nodes.idOf? c = none ∧ (t.nodes.idOf? c).isSome := by
  obtain ⟨nodes, h, rfl⟩ := sight_eq_ok.1 e
  cases hc : s.nodes.idOf? c with
  | some id' =>
    rw [NodeTable.sight_of_known hc] at h
    cases h
  | none =>
    obtain ⟨-, -, rfl⟩ := NodeTable.sight_eq_ok_of_new hc h
    exact ⟨rfl, by rw [NodeTable.idOf?_next, if_pos rfl]; rfl⟩

/-! ### Pointers -/

theorem putPointee_eq_ok {walk : Walk} {cell : CellId} {pointee : Nat} {site : Site Scope}
    {a : Unit} : putPointee env walk cell pointee site s = .ok a t ↔
      ∃ d v, env.vector.stream pointee = .ok d ∧ env.heap.load cell = .ok v ∧
        walk d v { site with embedded := false } s = .ok a t := by
  unfold putPointee
  simp only [bind_eq_ok, lift_eq_ok]
  constructor
  · rintro ⟨d, _, ⟨hd, rfl⟩, v, _, ⟨hv, rfl⟩, e⟩
    exact ⟨d, v, hd, hv, e⟩
  · rintro ⟨d, v, hd, hv, e⟩
    exact ⟨d, s, ⟨hd, rfl⟩, v, s, ⟨hv, rfl⟩, e⟩

section

variable {walk : Walk}
  (hw : ∀ d v (site : Site Scope), N site.embedded d → Steers X (walk d v site))
  {pointee : Nat} {site : Site Scope}
  (he : ∀ e, site.embedded = false → env.vector.stream pointee = .ok e → N false e)

include hw he

/-- What is put off behind a pointer is its own pointee, or is put off in that. -/
theorem steered_placePointee {cell : CellId} {a : Unit} (h : Steered X s t)
    (hX : site.embedded = true → X pointee ∨
      s.nodes.idOf? cell = none ∧ (t.nodes.idOf? cell).isSome)
    (e : placePointee env walk cell pointee site t = .ok a u) : Steered X s u := by
  unfold placePointee at e
  split at e
  · rename_i hembedded
    obtain rfl := modify_eq_ok.1 e
    obtain ⟨new, ht, hnew⟩ := h.deferred
    refine ⟨h.nodes, _ :: new, by rw [ht, List.cons_append], List.forall_mem_cons.2 ⟨?_, hnew⟩⟩
    exact hX hembedded
  · rename_i hembedded
    obtain ⟨d, v, hd, -, hwalk⟩ := putPointee_eq_ok.1 e
    exact h.trans (hw d v _ (he d (Bool.eq_false_iff.2 hembedded) hd) hwalk)

/-- What a pointer puts off is behind an embedded reference, or its cell is met for the first
time. -/
theorem steers_putPointer {kind : PointerKind}
    (hX : site.embedded = true → kind = .ref → X pointee) (v : Value) :
    Steers X (putPointer env walk kind pointee v site) := by
  have hP := composes_steers env X
  have htarget : ∀ cell, Steers X (putTarget env walk pointee cell site) := by
    intro cell s a t e
    obtain ⟨found, u, h1, h2⟩ := bind_eq_ok.1 e
    have hsight := steers_sight (X := X) cell h1
    cases found with
    | again id => exact hsight.trans (hP.count id h2)
    | first id =>
      obtain ⟨_, w, h3, h4⟩ := bind_eq_ok.1 h2
      have hcount := hP.count id h3
      obtain ⟨hnone, hsome⟩ := idOf?_of_sight h1
      exact steered_placePointee hw he (hsight.trans hcount)
        (fun _ => .inr ⟨hnone, hcount.nodes _ hsome⟩) h4
  have href : kind = .ref → ∀ cell, Steers X (placePointee env walk cell pointee site) :=
    fun hk _ _ _ _ e => steered_placePointee hw he (.of_eq rfl rfl) (fun h => .inl (hX h hk)) e
  unfold putPointer
  cases v with
  | pointer target =>
    cases kind <;> cases target
    · exact hP.throw _
    · exact Composes.ite (P := Steers X) (hP.bind (hP.count _) fun _ => href rfl _) (href rfl _)
    · exact hP.count 0
    · exact htarget _
    · exact hP.count 0
    · exact htarget _
  | _ => exact hP.throw _

end

/-- Walks put off what the embedded references among the types at hand refer to, and cells that they
meet for the first time. -/
theorem steers_walk (env : Env) (hN : env.vector.ClosedAtHand N)
    (hX : ∀ {d props q}, N true d → d.form = .pointer .ref props q → X q) (room : Nat)
    (d : Descriptor) (v : Value) (site : Site Scope) (hd : N site.embedded d) :
    Steers X (walk env room d v site) := by
  refine (composes_steers env X).walk hN ?_ room d v site hd
  intro walk hw d kind props pointee site hd hform v
  refine steers_putPointer hw (fun e hembedded he => ?_) (fun hembedded hk => ?_) v
  · rw [hembedded] at hd
    exact hN.pointee hd hform he
  · rw [hembedded] at hd
    subst hk
    exact hX hd hform

/-! ### Pointees without a bound -/

open Deferral (Visit Tour End Each within each_of_within)

/-- Write a pointee that was put off, and take those that are put off in it. -/
def putNext (env : Env) (walk : Walk) : Visit State (Deferred Scope) := fun d => do
  putPointee env walk d.cell d.pointee { scope := d.scope, embedded := false }
  takeDeferred

theorem putDeferred_eq (env : Env) (walk : Walk) (depth : Nat) (ds : List (Deferred Scope)) :
    putDeferred env walk depth ds = within (putNext env walk) .endlessReferences depth ds := by
  induction depth generalizing ds with
  | zero => cases ds <;> rfl
  | succ depth ih =>
    cases ds with
    | nil => rfl
    | cons d ds =>
      have hone : (fun d : Deferred Scope => (do
          putPointee env walk d.cell d.pointee { scope := d.scope, embedded := false }
          putDeferred env walk depth (← takeDeferred) : Marshalling Unit)) =
          fun d => putNext env walk d >>= within (putNext env walk) .endlessReferences depth := by
        funext d
        rw [putNext, bind_assoc]
        exact congrArg _ (funext fun _ => congrArg _ (funext ih))
      exact congrArg (List.forM (d :: ds)) hone

theorem putNext_eq_ok {walk : Walk} {d : Deferred Scope} {es : List (Deferred Scope)} :
    putNext env walk d s = .ok es t ↔
      ∃ u, putPointee env walk d.cell d.pointee { scope := d.scope, embedded := false } s
        = .ok () u ∧ es = u.deferred.reverse ∧ t = { u with deferred := [] } := by
  constructor
  · intro e
    obtain ⟨_, u, here, htake⟩ := bind_eq_ok.1 e
    exact ⟨u, here, takeDeferred_eq_ok.1 htake⟩
  · rintro ⟨u, here, rfl, rfl⟩
    exact bind_of_ok here _

theorem putNext_eq_error {walk : Walk} {d : Deferred Scope} {e : Fault} :
    putNext env walk d s = .error e t ↔
      putPointee env walk d.cell d.pointee { scope := d.scope, embedded := false } s
        = .error e t := by
  refine ⟨fun e => ?_, fun e => bind_of_error e _⟩
  cases here : putPointee env walk d.cell d.pointee { scope := d.scope, embedded := false } s with
  | error e' u =>
    cases (bind_of_error here fun _ => takeDeferred).symm.trans e
    rfl
  | ok a u => exact nomatch (putNext_eq_ok.2 ⟨u, here, rfl, rfl⟩).symm.trans e

/-- How pointees that were put off are written one after the other, each followed by those that are
put off in it, whatever number of cells they lead on. -/
inductive Fills (env : Env) (walk : Walk) :
    List (Deferred Scope) → State → EStateM.Result Fault State Unit → Prop where
  | nil (s : State) : Fills env walk [] s (.ok () s)
  | fault {d : Deferred Scope} {ds : List (Deferred Scope)} {s t : State} {e : Fault}
      (here : putPointee env walk d.cell d.pointee { scope := d.scope, embedded := false } s
        = .error e t) : Fills env walk (d :: ds) s (.error e t)
  | faultWithin {d : Deferred Scope} {ds : List (Deferred Scope)} {s t u : State} {e : Fault}
      (here : putPointee env walk d.cell d.pointee { scope := d.scope, embedded := false } s
        = .ok () t)
      (within : Fills env walk t.deferred.reverse { t with deferred := [] } (.error e u)) :
      Fills env walk (d :: ds) s (.error e u)
  | cons {d : Deferred Scope} {ds : List (Deferred Scope)} {s t u : State}
      {r : EStateM.Result Fault State Unit}
      (here : putPointee env walk d.cell d.pointee { scope := d.scope, embedded := false } s
        = .ok () t)
      (within : Fills env walk t.deferred.reverse { t with deferred := [] } (.ok () u))
      (behind : Fills env walk ds u r) : Fills env walk (d :: ds) s r

namespace Fills

variable {walk : Walk} {ds : List (Deferred Scope)}

/-- Nothing is put off any more behind pointees with all that was put off in them. -/
theorem deferred {r : EStateM.Result Fault State Unit} (h : Fills env walk ds s r)
    (hs : s.deferred = []) : ∀ ⦃a t⦄, r = .ok a t → t.deferred = [] := by
  induction h with
  | nil =>
    rintro _ _ ⟨⟩
    exact hs
  | fault => nofun
  | faultWithin => nofun
  | cons _ _ _ ihw ihb => exact ihb (ihw rfl rfl)

/-- Cells keep their ids. -/
theorem nodes (hw : ∀ d v site, Steers (fun _ => True) (walk d v site))
    {r : EStateM.Result Fault State Unit} (h : Fills env walk ds s r) :
    ∀ ⦃a t⦄, r = .ok a t → ∀ c, (s.nodes.idOf? c).isSome → (t.nodes.idOf? c).isSome := by
  induction h with
  | nil =>
    rintro _ _ ⟨⟩ _ hc
    exact hc
  | fault => nofun
  | faultWithin => nofun
  | cons here _ _ ihw ihb =>
    obtain ⟨d, v, -, -, hwalk⟩ := putPointee_eq_ok.1 here
    exact fun _ _ hr c hc => ihb hr c (ihw rfl c ((hw d v _ hwalk).nodes c hc))

/-- A recursion over what was put off writes so. -/
theorem of_each {c : Tour State (Deferred Scope)} {r : End State}
    (h : Each (putNext env walk) ds s c r) : Fills env walk ds s r := by
  induction h with
  | nil s => exact .nil s
  | fault here => exact .fault (putNext_eq_error.1 here)
  | faultWithin here _ ih =>
    obtain ⟨u, h, rfl, rfl⟩ := putNext_eq_ok.1 here
    exact .faultWithin h ih
  | cons here _ _ ih ihb =>
    obtain ⟨u, h, rfl, rfl⟩ := putNext_eq_ok.1 here
    exact .cons h ih ihb

/-- What is written so, a recursion writes. -/
theorem exists_each {r : End State} (h : Fills env walk ds s r) :
    ∃ c, Each (putNext env walk) ds s c r := by
  induction h with
  | nil s => exact ⟨[], .nil s⟩
  | fault here => exact ⟨_, .fault (putNext_eq_error.2 here)⟩
  | faultWithin here _ ih =>
    obtain ⟨c, h⟩ := ih
    exact ⟨_, .faultWithin (putNext_eq_ok.2 ⟨_, here, rfl, rfl⟩) h⟩
  | cons here _ _ ih ihb =>
    obtain ⟨c, h⟩ := ih
    obtain ⟨c', h'⟩ := ihb
    exact ⟨_, .cons (putNext_eq_ok.2 ⟨_, here, rfl, rfl⟩) h h'⟩

/-- Pointees are written in one way at most. -/
theorem unique {r r' : End State} (h : Fills env walk ds s r) (h' : Fills env walk ds s r') :
    r = r' := by
  obtain ⟨c, hc⟩ := h.exists_each
  obtain ⟨c', hc'⟩ := h'.exists_each
  exact (hc.unique hc').2

end Fills

/-- Pointees that are written within a bound are written without one. -/
theorem fills_of_putDeferred {walk : Walk} {depth : Nat} {ds : List (Deferred Scope)} {a : Unit}
    (e : putDeferred env walk depth ds s = .ok a t) : Fills env walk ds s (.ok a t) := by
  rw [putDeferred_eq] at e
  obtain ⟨c, hc⟩ := each_of_within fun u hu => nomatch e.symm.trans hu
  exact .of_each (e ▸ hc)

/-! ### Types that do not refer to themselves -/

/-- The cells of the heap that have no id. -/
def unmet (env : Env) (s : State) : Finset CellId :=
  (Finset.range env.heap.allocations).filter fun c => s.nodes.idOf? c = none

theorem card_unmet_le (env : Env) (s : State) : (unmet env s).card ≤ env.heap.allocations :=
  (Finset.card_filter_le _ _).trans_eq (Finset.card_range _)

theorem unmet_subset (env : Env) (h : ∀ c, (s.nodes.idOf? c).isSome → (t.nodes.idOf? c).isSome) :
    unmet env t ⊆ unmet env s := by
  refine Finset.monotone_filter_right _ fun c _ hc => ?_
  rw [← Option.not_isSome_iff_eq_none] at hc ⊢
  exact fun hs => hc (h c hs)

/-- A cell that was met for the first time is one less. -/
theorem card_unmet_lt (h : ∀ c, (s.nodes.idOf? c).isSome → (t.nodes.idOf? c).isSome) {c : CellId}
    (hc : c < env.heap.allocations) (hs : s.nodes.idOf? c = none) (ht : (t.nodes.idOf? c).isSome) :
    (unmet env t).card < (unmet env s).card := by
  have hmem : c ∈ unmet env s := Finset.mem_filter.2 ⟨Finset.mem_range.2 hc, hs⟩
  refine Finset.card_lt_card (Finset.ssubset_iff_subset_ne.2 ⟨unmet_subset env h, fun heq => ?_⟩)
  rw [← heq] at hmem
  rw [(Finset.mem_filter.1 hmem).2] at ht
  exact absurd ht (by simp)

/-- References lead on from a pointee fewer than `depth` times: it comes last in a row of types that
refer to one another, and between two such rows a cell is met for the first time. A pointee without
a cell ends at once. -/
def Suffices (env : Env) (s : State) (depth : Nat) (d : Deferred Scope) : Prop :=
  0 < depth ∧ ∀ v, env.heap.load d.cell = .ok v →
    ∃ ps, env.vector.Trail (d.pointee :: ps) ∧
      (unmet env s).card * (env.vector.size + 1) + (env.vector.size - ps.length) + 1 < depth

theorem Suffices.mono {depth : Nat} {d : Deferred Scope} (h : Suffices env s depth d)
    (hn : ∀ c, (s.nodes.idOf? c).isSome → (t.nodes.idOf? c).isSome) : Suffices env t depth d := by
  refine ⟨h.1, fun v hv => ?_⟩
  obtain ⟨ps, hps, hlt⟩ := h.2 v hv
  have hle := Nat.mul_le_mul_right (env.vector.size + 1) (Finset.card_le_card (unmet_subset env hn))
  exact ⟨ps, hps, by omega⟩

/-- One level less suffices for what is put off in a pointee. -/
theorem Suffices.step (hT : env.vector.ReferencesEnd) {depth : Nat} {d e : Deferred Scope}
    {v : Value} (h : Suffices env s (depth + 1) d) (hv : env.heap.load d.cell = .ok v)
    (hst : Steered (env.vector.Refers d.pointee) s t) (hs : s.deferred = [])
    (he : e ∈ t.deferred) : Suffices env t depth e := by
  obtain ⟨ps, hps, hlt⟩ := h.2 v hv
  refine ⟨by omega, fun w hw => ?_⟩
  obtain ⟨new, ht, hnew⟩ := hst.deferred
  rw [ht, hs, List.append_nil] at he
  rcases hnew e he with hrefers | ⟨hnone, hsome⟩
  · -- the row of types gets longer
    have hrow : env.vector.Trail (e.pointee :: d.pointee :: ps) :=
      List.isChain_cons_cons.2 ⟨hrefers, hps⟩
    have hlen := hrow.length_le hT
    rw [List.length_cons] at hlen
    have hle := Nat.mul_le_mul_right (env.vector.size + 1)
      (Finset.card_le_card (unmet_subset env hst.nodes))
    exact ⟨d.pointee :: ps, hrow, by rw [List.length_cons]; omega⟩
  · -- a new row begins behind a cell that is met for the first time
    have hcell := Heap.lt_of_load? (Heap.load_eq_ok_iff.1 hw)
    have hle := Nat.mul_le_mul_right (env.vector.size + 1)
      (card_unmet_lt hst.nodes hcell hnone hsome)
    rw [Nat.succ_mul] at hle
    exact ⟨[], List.IsChain.singleton _, by rw [List.length_nil]; omega⟩

/-- The bound on the depth suffices for any pointee. -/
theorem suffices_referenceDepth (env : Env) (s : State) (d : Deferred Scope) :
    Suffices env s (referenceDepth env) d := by
  unfold Suffices referenceDepth
  refine ⟨by positivity, fun v hv => ⟨[], List.IsChain.singleton _, Nat.lt_add_right _ ?_⟩⟩
  have hcell : 0 < env.heap.allocations :=
    Nat.zero_lt_of_lt (Heap.lt_of_load? (Heap.load_eq_ok_iff.1 hv))
  have hle := Nat.mul_le_mul_right (env.vector.size + 1) (card_unmet_le env s)
  rw [List.length_nil, Nat.sub_zero]
  generalize env.heap.allocations = a at *
  generalize env.vector.size = n at *
  calc (unmet env s).card * (n + 1) + n + 1 ≤ (a + 1) * (n + 1) := by rw [Nat.add_mul]; omega
    _ < (a + 1) * (n + 1) * ((a + 1) ^ 2 * (n + 1)) := by
        have h1 : 1 < (a + 1) ^ 2 * (n + 1) := by nlinarith
        exact lt_mul_of_one_lt_right (by positivity) h1
    _ = (a + 1) ^ 3 * (n + 1) ^ 2 := by ring

/-- Where no type refers to itself, pointees are written without a bound as they are with one that
suffices. -/
theorem fills_putDeferred (hT : env.vector.ReferencesEnd) (room : Nat) {depth : Nat}
    {ds : List (Deferred Scope)} (hs : s.deferred = [])
    (h : ∀ d ∈ ds, Suffices env s depth d) :
    Fills env (walk env room) ds s (putDeferred env (walk env room) depth ds s) := by
  have hw : ∀ d v site, Steers (fun _ => True) (walk env room d v site) := fun d v site =>
    steers_walk env (TypeVector.closed_true _).atHand (fun _ _ => trivial) room d v site trivial
  rw [putDeferred_eq]
  have hend : ∃ c, Each (putNext env (walk env room)) ds s c
      (within (putNext env (walk env room)) .endlessReferences depth ds s) := by
    refine Deferral.exists_each (E := fun n ds s => s.deferred = [] ∧ ∀ d ∈ ds, Suffices env s n d)
      (fun h => Nat.lt_irrefl 0 (h.2 _ List.mem_cons_self).1) ?_ ?_ ⟨hs, h⟩
    · -- what is put off in a pointee
      rintro n d ds s es t h e
      obtain ⟨u, here, rfl, rfl⟩ := putNext_eq_ok.1 e
      obtain ⟨site, v, hsite, hv, hwalk⟩ := putPointee_eq_ok.1 here
      have hst : Steered (env.vector.Refers d.pointee) s u :=
        steers_walk env (env.vector.closedAtHand_atHand d.pointee)
          (fun hd hform => ⟨_, _, hd, hform⟩) room site v _ (.start hsite) hwalk
      have hbelow : ∀ e ∈ u.deferred, Suffices env u n e := fun e he =>
        (h.2 d List.mem_cons_self).step hT hv hst h.1 he
      exact ⟨rfl, fun e he => hbelow e (List.mem_reverse.1 he)⟩
    · -- what is behind it
      rintro n d ds s es t u h e hwithin
      obtain ⟨w, here, rfl, rfl⟩ := putNext_eq_ok.1 e
      obtain ⟨site, v, -, -, hwalk⟩ := putPointee_eq_ok.1 here
      rw [← putDeferred_eq] at hwithin
      have hfills := fills_of_putDeferred hwithin
      refine ⟨hfills.deferred rfl rfl, fun e he => ?_⟩
      refine (h.2 e (List.mem_cons_of_mem _ he)).mono fun c hc => ?_
      exact hfills.nodes hw rfl c ((hw _ _ _ hwalk).nodes c hc)
  obtain ⟨c, hc⟩ := hend
  exact .of_each hc

/-- **Pointees come to an end**: where no type refers to itself, what was put off is written to its
end, without a bound, whatever the heap, and this is what is written. -/
theorem fills_flush (hT : env.vector.ReferencesEnd) (room : Nat) (s : State) :
    Fills env (walk env room) s.deferred.reverse { s with deferred := [] }
      (flush env (walk env room) s) := by
  have htake : takeDeferred s = .ok s.deferred.reverse { s with deferred := [] } := rfl
  rw [show flush env (walk env room) s = _ from bind_of_ok htake _]
  exact fills_putDeferred hT room rfl fun d _ => suffices_referenceDepth env _ d

/-! ### References that go round -/

/-- Pointees that each put off another among them are never all written. -/
theorem Fills.exists_error {walk : Walk} {X : CellId → Nat → Prop}
    (hX : ∀ {c p}, X c p → ∀ {scope s a t},
      putPointee env walk c p { scope, embedded := false } s = .ok a t →
        ∃ d ∈ t.deferred, X d.cell d.pointee)
    {ds : List (Deferred Scope)} {r : EStateM.Result Fault State Unit}
    (h : Fills env walk ds s r) (hd : ∃ d ∈ ds, X d.cell d.pointee) : ∃ e t, r = .error e t := by
  induction h with
  | nil => exact absurd hd.choose_spec.1 List.not_mem_nil
  | fault => exact ⟨_, _, rfl⟩
  | faultWithin => exact ⟨_, _, rfl⟩
  | cons here _ _ ihw ihb =>
    obtain ⟨d, hmem, hd⟩ := hd
    rcases List.mem_cons.1 hmem with rfl | hmem
    · obtain ⟨e, he, hXe⟩ := hX hd here
      obtain ⟨_, _, herror⟩ := ihw ⟨e, List.mem_reverse.2 he, hXe⟩
      cases herror
    · exact ihb ⟨d, hmem, hd⟩

/-- The cell `c`, with a struct of the type at `p`, has an embedded reference to the cell `c'`, with
a value of the type at `q`. -/
inductive LinksTo (env : Env) (c : CellId) (p : Nat) (c' : CellId) (q : Nat) : Prop where
  | field {d e : Descriptor} {kind : StructKind} {props props' : UInt8} {definition : Nat}
      {s : StructDefinition} {slots : List Value} {before after : List Descriptor}
      (stream : env.vector.stream p = .ok d) (form : d.form = .struct kind props definition)
      (found : env.vector.structDefinition definition = .ok s)
      (held : env.heap.load c = .ok (.struct slots)) (fields : s.fields = before ++ e :: after)
      (reference : e.form = .pointer .ref props' q)
      (slot : slotValue env s.layout slots (before.countP Descriptor.isField)
        = .ok (.pointer (some c')))

section

variable {c : CellId} {q : Nat}

/-- What a walk puts off under the form of a value stays put off. -/
theorem exists_putForm_of_walk {room : Nat} {d : Descriptor} {v : Value} {site : Site Scope}
    {a : Unit} (h : walk env room d v site s = .ok a t) :
    ∃ levels u, putForm env (walk env levels) d v site s = .ok () u ∧
      Steered (fun _ => True) u t := by
  have hP := composes_steers env fun _ => True
  cases room with
  | zero => exact absurd h throw_ne_ok
  | succ levels =>
    obtain ⟨_, u, h1, h2⟩ := bind_eq_ok.1 h
    refine ⟨levels, u, h1, ?_⟩
    cases hfree : d.modifiers.freeRep with
    | none =>
      rw [hfree] at h2
      exact hP.pure _ h2
    | some routine =>
      rw [hfree] at h2
      exact hP.bind (hP.lift _) (fun _ => hP.call _) h2

/-- An embedded reference puts its pointee off. -/
theorem exists_deferred_of_reference {room : Nat} {e : Descriptor} {props : UInt8}
    (he : e.form = .pointer .ref props q) {site : Site Scope} (hembedded : site.embedded = true)
    {a : Unit} (h : walk env room e (.pointer (some c)) site s = .ok a t) :
    ∃ d ∈ t.deferred, d.cell = c ∧ d.pointee = q := by
  obtain ⟨levels, u, h1, hrest⟩ := exists_putForm_of_walk h
  have hput : putPointer env (walk env levels) .ref q (.pointer (some c)) site s = .ok () u := by
    simpa only [putForm, he] using h1
  unfold putPointer at hput
  simp only [hembedded, if_true] at hput
  obtain ⟨_, w, -, h2⟩ := bind_eq_ok.1 hput
  unfold placePointee at h2
  rw [if_pos hembedded] at h2
  obtain rfl := modify_eq_ok.1 h2
  exact ⟨_, hrest.mem_deferred List.mem_cons_self, rfl, rfl⟩

/-- The fields of a struct put off what one of them does. -/
theorem exists_deferred_putFields {walk last : Walk}
    (hw : ∀ d v site, Steers (fun _ => True) (walk d v site))
    (hl : ∀ d v site, Steers (fun _ => True) (last d v site)) {site : Site Scope} {e : Descriptor}
    {v : Value} (he : e.isField = true)
    (hput : ∀ {s a t}, walk e v site s = .ok a t ∨ last e v site s = .ok a t →
      ∃ d ∈ t.deferred, d.cell = c ∧ d.pointee = q)
    {layout : Nat} {slots : List Value} {before after : List Descriptor} {index : Nat} {a : Unit}
    (hv : slotValue env layout slots (index + before.countP Descriptor.isField) = .ok v)
    (h : putFields env walk last layout slots site index (before ++ e :: after) s = .ok a t) :
    ∃ d ∈ t.deferred, d.cell = c ∧ d.pointee = q := by
  induction before generalizing index s with
  | nil =>
    simp only [List.nil_append, List.countP_nil, Nat.add_zero] at h hv
    unfold putFields at h
    rw [if_pos he] at h
    obtain ⟨w, u, h1, h2⟩ := bind_eq_ok.1 h
    obtain ⟨hw', rfl⟩ := lift_eq_ok.1 h1
    obtain rfl := Except.ok.inj (hv.symm.trans hw')
    have hrest : ∀ {u}, (∃ d ∈ u.deferred, d.cell = c ∧ d.pointee = q) →
        putFields env walk last layout slots site (index + 1) after u = .ok a t →
        ∃ d ∈ t.deferred, d.cell = c ∧ d.pointee = q := by
      rintro u ⟨d, hd, hcell⟩ h
      have hst := (composes_steers env _).putFields hw hl _ _ _ _ _ h
      exact ⟨d, hst.mem_deferred hd, hcell⟩
    split at h2
    · obtain ⟨_, u, h3, h4⟩ := bind_eq_ok.1 h2
      exact hrest (hput (.inl h3)) h4
    · obtain ⟨_, u, h3, h4⟩ := bind_eq_ok.1 h2
      exact hrest (hput (.inr h3)) h4
  | cons b before ih =>
    rw [List.cons_append] at h
    unfold putFields at h
    by_cases hb : b.isField = true
    · rw [List.countP_cons_of_pos hb] at hv
      rw [if_pos hb] at h
      obtain ⟨w, u, -, h2⟩ := bind_eq_ok.1 h
      have hv' : slotValue env layout slots (index + 1 + before.countP Descriptor.isField)
          = .ok v := by rw [← hv, Nat.add_assoc, Nat.add_comm 1]
      split at h2
      · obtain ⟨_, u, -, h4⟩ := bind_eq_ok.1 h2
        exact ih hv' h4
      · obtain ⟨_, u, -, h4⟩ := bind_eq_ok.1 h2
        exact ih hv' h4
    · rw [List.countP_cons_of_neg hb] at hv
      rw [if_neg hb] at h
      obtain ⟨_, u, -, h4⟩ := bind_eq_ok.1 h
      exact ih hv h4

/-- A struct that has a reference to a cell puts that off. -/
theorem LinksTo.exists_deferred {room : Nat} {c' : CellId} {p : Nat} (h : LinksTo env c p c' q)
    {scope : Scope} {a : Unit}
    (hput : putPointee env (walk env room) c p { scope, embedded := false } s = .ok a t) :
    ∃ d ∈ t.deferred, d.cell = c' ∧ d.pointee = q := by
  obtain @⟨d, e, kind, props, props', definition, parts, slots, before, after, hstream, hform,
    hfound, hheld, hfields, href, hslot⟩ := h
  obtain ⟨_, _, hd, hv, hwalk⟩ := putPointee_eq_ok.1 hput
  obtain rfl := Except.ok.inj (hstream.symm.trans hd)
  obtain rfl := Except.ok.inj (hheld.symm.trans hv)
  obtain ⟨levels, u, h1, hrest⟩ := exists_putForm_of_walk hwalk
  have hw : ∀ d v site, Steers (fun _ => True) (walk env levels d v site) := fun d v site =>
    steers_walk env (TypeVector.closed_true _).atHand (fun _ _ => trivial) levels d v site trivial
  -- the reference is written alike among the fields and at their end
  have hput : ∀ {last : Walk} {site : Site Scope} {s a}, site.embedded = true →
      (∀ d v site, Steers (fun _ => True) (last d v site)) →
      (∀ v site, last e v site = walk env levels e v site) →
      putFields env (walk env levels) last parts.layout slots site 0 parts.fields s = .ok a u →
      ∃ d ∈ t.deferred, d.cell = c' ∧ d.pointee = q := by
    intro last site s a hembedded hl hlast h
    rw [hfields] at h
    have he : e.isField = true := by simp [Descriptor.isField, href]
    obtain ⟨d, hd, hcell⟩ := exists_deferred_putFields hw hl he (c := c') (q := q)
      (fun h => exists_deferred_of_reference href hembedded (by rwa [hlast, or_self] at h))
      (by rwa [Nat.zero_add]) h
    exact ⟨d, hrest.mem_deferred hd, hcell⟩
  simp only [putForm, hform] at h1
  obtain ⟨⟨parts', slots', scope'⟩, _, h2, h3⟩ := bind_eq_ok.1 h1
  obtain ⟨hs, hslots, -⟩ := structParts_eq_ok (lift_eq_ok.1 h2).1
  obtain rfl := Value.struct.inj hslots
  obtain rfl := Except.ok.inj (hfound.symm.trans hs)
  dsimp only at h3
  split at h3
  · obtain ⟨_, _, -, h4⟩ := bind_eq_ok.1 h3
    exact hput rfl hw (fun _ _ => rfl) h4
  · obtain ⟨⟨v1, shape⟩, _, -, h4⟩ := bind_eq_ok.1 h3
    obtain ⟨_, _, -, h5⟩ := bind_eq_ok.1 h4
    obtain ⟨_, _, -, h6⟩ := bind_eq_ok.1 h5
    refine hput rfl ((composes_steers env _).putTail hw shape _) (fun v site => ?_) h6
    unfold putTail
    rw [href]

end

/-- **References that go round are written without end**: where each cell among `X` has a reference
to another among them, pointees among `X` are never all written. -/
theorem exists_error_of_round {X : CellId → Nat → Prop}
    (hX : ∀ {c p}, X c p → ∃ c' q, X c' q ∧ LinksTo env c p c' q) {room : Nat}
    {ds : List (Deferred Scope)} {r : EStateM.Result Fault State Unit}
    (h : Fills env (walk env room) ds s r) (hd : ∃ d ∈ ds, X d.cell d.pointee) :
    ∃ e t, r = .error e t := by
  refine h.exists_error (fun hc _ _ _ _ hput => ?_) hd
  obtain ⟨c', q, hq, hlink⟩ := hX hc
  obtain ⟨d, hd, rfl, rfl⟩ := hlink.exists_deferred hput
  exact ⟨d, hd, hq⟩

/-- A vector whose stream at 12 is a struct with an embedded reference to such a struct. -/
def ringVector : TypeVector where
  bytes := #[8, 0, 10, 0, 1, 255, 255, 255, 0, 0, 0, 0, 15, 10, 255, 255, 24, 0, 0, 0, 254, 255,
    255, 255, 4, 10, 255, 255, 0, 0, 0, 0, 255, 255, 255, 255, 31, 10, 255, 255, 12, 0, 0, 0, 254]
  order := .little
  minor := 10

/-- A struct that refers to itself is such a cell. -/
example (env : Env) (hvector : env.interface.vector = ringVector)
    (hlayout : env.interface.layout = ⟨#[1, 0]⟩)
    (hheap : env.heap.load 0 = .ok (.struct [.pointer (some 0)])) : LinksTo env 0 12 0 12 := by
  have hslot : slotValue env 0 [.pointer (some 0)] 0 = .ok (.pointer (some 0)) := by
    unfold slotValue
    rw [hlayout]
    rfl
  have hfound : env.vector.structDefinition 24 = .ok
      { offset := 24, align := 4, props := 10, layout := 0, trailing := none,
        fields := [⟨36, {}, .pointer .ref 10 12⟩] } := by
    unfold Env.vector
    rw [hvector]
    rfl
  have hstream : env.vector.stream 12 = .ok ⟨12, {}, .struct .fixed 10 24⟩ := by
    unfold Env.vector
    rw [hvector]
    rfl
  exact .field hstream rfl hfound hheap (List.nil_append _).symm rfl hslot

end Ndr.Marshal
