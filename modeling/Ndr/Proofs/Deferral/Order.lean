import Ndr.Proofs.Marshal.Ending
import Ndr.Proofs.PointerGraph
import Ndr.Proofs.Unmarshal.Progress

/-!
The order of pointees. A parameter or a pointee is written with marks and ids in the place of its
embedded pointers, and then come their pointees in the order of the pointers, each followed by its
own. This is the order of a recursion, whatever stands for its stack, in writing as in reading.
-/

namespace Ndr

open Deferral

/-! ### Writing -/

namespace Marshal

variable {env : Env} {walk : Walk} {s t : State}

/-- What an embedded pointer puts off: the contents of its cell, where the cell is met for the first
time or the pointer is a reference. -/
def embeddedPointee (nodes : NodeTable) (kind : PointerKind) (pointee : Nat) (scope : Scope) :
    Value → List (Deferred Scope)
  | .pointer (some cell) =>
    if kind = .ref ∨ nodes.idOf? cell = none then [{ cell, pointee, scope }] else []
  | _ => []

theorem deferred_placePointee {cell : CellId} {pointee : Nat} {site : Site Scope} {a : Unit}
    (he : site.embedded = true) (e : placePointee env walk cell pointee site s = .ok a t) :
    t.deferred = { cell, pointee, scope := site.scope } :: s.deferred := by
  unfold placePointee at e
  rw [if_pos he] at e
  obtain rfl := modify_eq_ok.1 e
  rfl

theorem deferred_putCount {n : Nat} {a : Unit} (e : putCount env n s = .ok a t) :
    t.deferred = s.deferred := by
  unfold putCount put at e
  obtain ⟨w, -, rfl⟩ := onPart_eq_ok.1 e
  rfl

/-- An embedded pointer puts off its pointee behind what is put off already, or nothing. -/
theorem deferred_putPointer {kind : PointerKind} {pointee : Nat} {v : Value} {site : Site Scope}
    {a : Unit} (he : site.embedded = true) (e : putPointer env walk kind pointee v site s = .ok a t) :
    t.deferred = embeddedPointee s.nodes kind pointee site.scope v ++ s.deferred := by
  match v with
  | .pointer none =>
    have e' : putCount env 0 s = .ok a t := by
      cases kind
      · exact absurd e throw_ne_ok
      · exact e
      · exact e
    exact deferred_putCount e'
  | .pointer (some cell) =>
    by_cases hk : kind = .ref
    · subst hk
      unfold putPointer at e
      simp only [he, if_true] at e
      obtain ⟨_, u, h1, h2⟩ := bind_eq_ok.1 e
      rw [deferred_placePointee he h2, deferred_putCount h1]
      simp [embeddedPointee]
    · rw [putPointer_eq hk] at e
      obtain ⟨found, u, h1, h2⟩ := bind_eq_ok.1 e
      obtain ⟨nodes, hsight, rfl⟩ := sight_eq_ok.1 h1
      cases hc : s.nodes.idOf? cell with
      | some id =>
        rw [NodeTable.sight_of_known hc] at hsight
        cases hsight
        rw [deferred_putCount h2]
        simp [embeddedPointee, hk, hc]
      | none =>
        obtain ⟨rfl, -, -⟩ := NodeTable.sight_eq_ok_of_new hc hsight
        obtain ⟨_, w, h3, h4⟩ := bind_eq_ok.1 h2
        rw [deferred_placePointee he h4, deferred_putCount h3]
        simp [embeddedPointee, hc]
  | .void | .boolean _ | .byte _ | .char _ | .small _ | .usmall _ | .short _ | .ushort _
  | .long _ | .ulong _ | .hyper _ | .uhyper _ | .float _ | .double _ | .enum _ | .errorStatus _
  | .struct _ | .array _ | .union _ _ | .context _ | .pipe _ => exact absurd e throw_ne_ok

theorem grown_putNext (hw : GrowsAll walk) {d : Deferred Scope} {ds : List (Deferred Scope)}
    (hs : Ready s) (e : putNext env walk d s = .ok ds t) : Grown s t := by
  obtain ⟨_, u, e1, e2⟩ := bind_eq_ok.1 e
  have g := (grows_putPointee hw _ _ _ hs e1).1
  exact g.trans (grown_takeDeferred g.ready e2)

/-- Each pointee that puts others off takes bytes of the message. -/
theorem rises_putNext (hw : GrowsAll walk) :
    Rises (putNext env walk) (fun s => Ready s ∧ s.deferred = []) (fun s => s.writer.position) := by
  have hstep : ∀ {d s es t}, Ready s ∧ s.deferred = [] → putNext env walk d s = .ok es t →
      (Ready t ∧ t.deferred = []) ∧ s.writer.position ≤ t.writer.position ∧
        (es ≠ [] → s.writer.position < t.writer.position) := by
    rintro d s es t ⟨hs, hd⟩ e
    obtain ⟨u, here, rfl, rfl⟩ := putNext_eq_ok.1 e
    have g := grown_putNext hw hs e
    obtain ⟨-, p⟩ := grows_putPointee hw _ _ _ hs here
    refine ⟨⟨g.ready, rfl⟩, g.position_le, fun hes => ?_⟩
    refine p.resolve_left fun hp => hes ?_
    rw [hp, hd, List.reverse_nil]
  exact ⟨fun hs e => (hstep hs e).1, fun hs e => Int.ofNat_le.2 (hstep hs e).2.1,
    fun hs e h => Int.ofNat_lt.2 ((hstep hs e).2.2 h)⟩

/-- To flush is the recursion with a bound. -/
theorem followed_flush_eq (env : Env) (walk : Walk) (x : Marshalling Unit) :
    (do x; flush env walk : Marshalling Unit) = (do x; takeDeferred) >>=
      within (putNext env walk) .endlessReferences (referenceDepth env) := by
  rw [bind_assoc]
  refine congrArg (x >>= ·) (funext fun _ => congrArg (takeDeferred >>= ·) (funext fun ds => ?_))
  exact putDeferred_eq env walk _ ds

/-- What the recursion writes, `flush` writes, in a message with positions of 64 bits. -/
theorem flush_of_followed (hw : GrowsAll walk) {x : Marshalling Unit} (hx : Grows x) (hs : Ready s)
    {c : Tour State (Deferred Scope)} {r : End State}
    (h : Followed (Each (putNext env walk)) (do x; takeDeferred) s c r)
    (hc : ∀ p ∈ c, p.2.writer.position < 2 ^ 64) : (do x; flush env walk) s = r := by
  rw [followed_flush_eq]
  cases h with
  | fault here => exact bind_of_error here _
  | @done ds t c r here rest =>
    rw [bind_of_ok here]
    obtain ⟨_, u, e1, e2⟩ := bind_eq_ok.1 here
    have hready : Ready t ∧ t.deferred = [] := by
      refine ⟨(grown_takeDeferred (hx hs e1).1.ready e2).ready, ?_⟩
      rw [(takeDeferred_eq_ok.1 e2).2]
    have hbelow : ∀ p ∈ c, (p.2.writer.position : Int) < (2 ^ 64 : Nat) := fun p hp =>
      Int.ofNat_lt.2 (hc p hp)
    refine rest.within_eq (rises_putNext hw) hready hbelow ?_
    unfold referenceDepth
    omega

/-- What `flush` writes, the recursion writes, unless the bound is met. -/
theorem followed_of_flush {x : Marshalling Unit}
    (h : ∀ t, (do x; flush env walk) s ≠ .error .endlessReferences t) :
    ∃ c, Followed (Each (putNext env walk)) (do x; takeDeferred) s c ((do x; flush env walk) s) := by
  rw [followed_flush_eq] at h ⊢
  cases here : (do x; takeDeferred : Marshalling _) s with
  | error e t =>
    rw [bind_of_error here]
    exact ⟨[], .fault here⟩
  | ok ds t =>
    rw [bind_of_ok here] at h ⊢
    obtain ⟨c, hc⟩ := each_of_within h
    exact ⟨c, .done here hc⟩

end Marshal

/-! ### Reading -/

namespace Unmarshal

variable {env : Env} {walk : Walk} {s t : State}

theorem getCount_eq_ok {n : Nat} (e : getCount env s = .ok n t) :
    t.heap = s.heap ∧ t.deferred = s.deferred := by
  unfold getCount fetch at e
  obtain ⟨w, -, rfl⟩ := onPart_eq_ok.1 e
  exact ⟨rfl, rfl⟩

theorem placePointee_eq_ok {cell : CellId} {pointee : Nat} {site : Site ScopeId} {a : Unit}
    (he : site.embedded = true) (e : placePointee env walk cell pointee site s = .ok a t) :
    t.heap = s.heap ∧ t.deferred = { cell, pointee, scope := site.scope } :: s.deferred := by
  unfold placePointee at e
  rw [if_pos he] at e
  obtain rfl := defer_eq_ok.1 e
  exact ⟨rfl, rfl⟩

/-- An embedded pointer puts off its pointee where a cell is made for it, behind what is put off
already. -/
theorem deferred_getPointer {kind : PointerKind} {pointee : Nat} {w : Value} {site : Site ScopeId}
    (he : site.embedded = true) (e : getPointer env walk kind pointee site s = .ok w t) :
    t.deferred = if t.heap.allocations = s.heap.allocations then s.deferred
      else { cell := s.heap.allocations, pointee, scope := site.scope } :: s.deferred := by
  have hkept : ∀ {u : State}, u.heap = s.heap → u.deferred = s.deferred →
      u.deferred = if u.heap.allocations = s.heap.allocations then s.deferred
        else { cell := s.heap.allocations, pointee, scope := site.scope } :: s.deferred :=
    fun hh hd => by rw [hh, hd, if_pos rfl]
  have hmade : ∀ {u u' : State} {a : Unit},
      placePointee env walk s.heap.allocations pointee site u = .ok a u' →
      u.heap = s.heap.append .void → u.deferred = s.deferred →
      u'.deferred = if u'.heap.allocations = s.heap.allocations then s.deferred
        else { cell := s.heap.allocations, pointee, scope := site.scope } :: s.deferred := by
    intro u u' a e hheap hd
    obtain ⟨hh, hdeferred⟩ := placePointee_eq_ok he e
    rw [hdeferred, hh, hheap, hd, if_neg]
    simp [Heap.allocations, Heap.append]
  unfold getPointer at e
  split at e
  · -- a reference is put off with a cell of its own
    unfold getReference at e
    simp only [he, if_true] at e
    obtain ⟨n, u, h1, e⟩ := bind_eq_ok.1 e
    obtain ⟨hh, hd⟩ := getCount_eq_ok h1
    obtain ⟨cell, u1, h2, e⟩ := bind_eq_ok.1 e
    obtain ⟨-, rfl, rfl⟩ := allocate_eq_ok.1 h2
    obtain ⟨_, u2, h3, e⟩ := bind_eq_ok.1 e
    obtain rfl := sight_eq_ok.1 h3
    obtain ⟨_, u3, h4, e⟩ := bind_eq_ok.1 e
    obtain ⟨-, rfl⟩ := pure_eq_ok.1 e
    rw [hh] at h4
    exact hmade h4 rfl hd
  · obtain ⟨id, u, h1, e⟩ := bind_eq_ok.1 e
    obtain ⟨hh, hd⟩ := getCount_eq_ok h1
    split at e
    · obtain ⟨-, rfl⟩ := pure_eq_ok.1 e
      exact hkept hh hd
    obtain ⟨u0, _, hget, e⟩ := bind_eq_ok.1 e
    obtain ⟨rfl, rfl⟩ := get_eq_ok.1 hget
    cases hc : u.nodes.cellOf? id with
    | some cell =>
      simp only [hc] at e
      obtain ⟨_, u1, h2, e⟩ := bind_eq_ok.1 e
      obtain rfl := sight_eq_ok.1 h2
      obtain ⟨-, rfl⟩ := pure_eq_ok.1 e
      exact hkept hh hd
    | none =>
      simp only [hc] at e
      obtain ⟨cell, u1, h2, e⟩ := bind_eq_ok.1 e
      obtain ⟨-, rfl, rfl⟩ := allocate_eq_ok.1 h2
      obtain ⟨_, u2, h3, e⟩ := bind_eq_ok.1 e
      obtain ⟨nodes, -, rfl⟩ := register_eq_ok.1 h3
      obtain ⟨_, u3, h4, e⟩ := bind_eq_ok.1 e
      obtain rfl := sight_eq_ok.1 h4
      obtain ⟨_, u4, h5, e⟩ := bind_eq_ok.1 e
      obtain ⟨-, rfl⟩ := pure_eq_ok.1 e
      rw [hh] at h5
      exact hmade h5 rfl hd

/-- What `flush` reads, the recursion reads: no message leads to pointees without end. -/
theorem followed_flush (env : Env) (room : Nat) (x : Unmarshalling Unit) (s : State) :
    ∃ c, Followed (Each (getNext env (Unmarshal.walk env room))) (do x; takeDeferred) s c
      ((do x; flush env (Unmarshal.walk env room)) s) := by
  have hw := (composesWalks_spends env).walk room
  cases e : x s with
  | error e' t =>
    rw [bind_of_error e]
    exact ⟨[], .fault (bind_of_error e _)⟩
  | ok a t =>
    have htake : (do x; takeDeferred : Unmarshalling _) s
        = .ok t.deferred.reverse { t with deferred := [] } := bind_of_ok e _
    have hbelow : ∀ s : State, s.deferred = [] → (- s.reader.rest.length : Int) < 1 :=
      fun s _ => by omega
    have hend : ∃ c, Each (getNext env (Unmarshal.walk env room)) t.deferred.reverse
        { t with deferred := [] } c (within (getNext env (Unmarshal.walk env room))
          .endlessReferences (t.reader.rest.length + 1) t.deferred.reverse
          { t with deferred := [] }) :=
      (rises_getNext hw).exists_each hbelow rfl (by dsimp only; omega)
    obtain ⟨c, hc⟩ := hend
    rw [← getDeferred_eq_within] at hc
    rw [bind_of_ok e]
    exact ⟨c, .done htake hc⟩

end Unmarshal

/-! ### Writing and reading in step -/

namespace Lockstep

open Marshal (putNext grown_putNext)
open Unmarshal (getNext)

section

variable {env : Marshal.Env} {T : Terms} {N : Naming} {walk : Marshal.Walk}
  {walk' : Unmarshal.Walk} {s f : Marshal.State} {u : Unmarshal.State} {tail : List UInt8}
  {ds : List (Deferred Scope)} {es : List (Deferred ScopeId)}

/-- Pointees that are still to be written, up to a state `f`, and those that are to be read for
them. -/
structure Ahead (env : Marshal.Env) (T : Terms) (N : Naming) (walk : Marshal.Walk)
    (f : Marshal.State) (tail : List UInt8) (ds : List (Deferred Scope)) (s : Marshal.State)
    (es : List (Deferred ScopeId)) (u : Unmarshal.State) : Prop where
  ready : Marshal.Ready s
  deferred : s.deferred = []
  written : ∃ c, Each (putNext env walk) ds s c (.ok () f)
  paired : ∃ G bytes, Follows env T N G s u ∧ List.Forall₂ (Paired env T N s.nodes G) ds es ∧
    Writer.Wrote s.writer f.writer bytes ∧ u.reader.rest = bytes ++ tail

theorem grown_each (hw : Marshal.GrowsAll walk) {c : Tour Marshal.State (Deferred Scope)}
    {r : End Marshal.State} (h : Each (putNext env walk) ds s c r) (hs : Marshal.Ready s) :
    ∀ {t}, r = .ok () t → Marshal.Grown s t := by
  induction h with
  | nil =>
    rintro t ⟨⟩
    exact .refl hs
  | fault => nofun
  | faultWithin => nofun
  | cons here _ _ ih ihb =>
    intro t hr
    have g := grown_putNext hw hs here
    have g' := ih g.ready rfl
    exact (g.trans g').trans (ihb g'.ready hr)

/-- A pointee is read where it was written, and as many pointees are put off in it. -/
theorem inStep_ahead (hw : LockedWalks env T N T.value walk walk') (hN : N.Covers f.nodes)
    (side : Side) (previous : NodeTable) : InStep (putNext env walk)
      (getNext (env.receiver side previous) walk') (Ahead env T N walk f tail) where
  nil h := by
    obtain ⟨G, bytes, -, hds, -⟩ := h.paired
    exact List.forall₂_nil_left_iff.1 hds
  cons {d ds s es u new t} h e := by
    obtain ⟨G, bytes, hu, hds, hwrote, hr⟩ := h.paired
    obtain ⟨d', ds', hd, hbehind, rfl⟩ := List.forall₂_cons_left_iff.1 hds
    obtain ⟨c, hc⟩ := h.written
    obtain ⟨new', t', c', e', -, hrest⟩ := each_cons_ok.1 hc
    cases e.symm.trans e'
    have g := grown_putNext hw.grows h.ready e
    have gf := grown_each hw.grows hrest g.ready rfl
    obtain ⟨_, s1, e1, e2⟩ := bind_eq_ok.1 e
    obtain ⟨rfl, rfl⟩ := Marshal.takeDeferred_eq_ok.1 e2
    obtain ⟨g1, -⟩ := Marshal.grows_putPointee hw.grows _ _ _ h.ready e1
    obtain ⟨bytes1, hw1⟩ := g1.wrote
    obtain ⟨bytes2, hw2⟩ := gf.wrote
    obtain rfl := hwrote.unique (hw1.trans hw2)
    rw [List.append_assoc] at hr
    obtain ⟨id, hid, hcell⟩ := hd.cell
    obtain ⟨F, hF, hscope, hT⟩ := hd.frame
    obtain ⟨u1, G1, e3, r3, f3, c3⟩ := getPointee_reads side previous
      (y := { scope := d'.scope, embedded := false }) hw h.ready e1 (hN.mono gf.nodes)
      ⟨hF, hscope, rfl⟩ hT hid hcell hw1 hu hr
    refine ⟨d', ds', u1.deferred.reverse, { u1 with deferred := [] }, rfl, ?_, g.ready, rfl,
      ⟨c', hrest⟩, G1, bytes2, f3.take, ?_, hw2, r3⟩
    · rw [← hd.pointee] at e3
      exact bind_eq_ok.2 ⟨(), u1, e3, Unmarshal.takeDeferred_eq_ok.2 ⟨rfl, rfl⟩⟩
    · have hlater := hbehind.imp fun _ _ h => h.mono g1.nodes c3.frames
      exact List.rel_append (List.rel_reverse f3.deferred) hlater

/-- A pointee and its partner: of one type, in the cell that was made for the node, and at the place
where it was written. -/
structure Partners (N : Naming) (p : Deferred Scope × Marshal.State)
    (q : Deferred ScopeId × Unmarshal.State) : Prop where
  pointee : q.1.pointee = p.1.pointee
  knows : N.Knows p.1.cell
  cell : q.1.cell = N.cell p.1.cell
  position : q.2.reader.position = p.2.writer.position

theorem Ahead.partners (hw : Marshal.GrowsAll walk) (hN : N.Covers f.nodes) {d : Deferred Scope}
    {d' : Deferred ScopeId} (h : Ahead env T N walk f tail (d :: ds) s (d' :: es) u) :
    Partners N (d, s) (d', u) := by
  obtain ⟨G, bytes, hu, hds, -⟩ := h.paired
  obtain ⟨hd, -⟩ := List.forall₂_cons.1 hds
  obtain ⟨id, hid, hcell⟩ := hd.cell
  obtain ⟨c, hc⟩ := h.written
  have hknown := hN _ _ ((grown_each hw hc h.ready rfl).nodes _ _ hid)
  exact ⟨hd.pointee, ⟨id, hknown⟩,
    (Naming.cell_of_idOf? hknown (h.ready.nodes.idOf?_range hid).1 hcell).symm, hu.position⟩

/-- **Pointees of a parameter in lock-step.** A parameter that was written by the recursion is read
by it, and each pointee is the partner of the one that was written in its turn. -/
theorem partners_of_followed (hw : LockedWalks env T N T.value walk walk') (hN : N.Covers f.nodes)
    (side : Side) (previous : NodeTable) {d : Descriptor} {v : Value} {G : List Frame} {F : Frame}
    {x : Site Scope} {y : Site ScopeId} {bytes : List UInt8} (hT : T.value d v F)
    (hm : Meets G F x y) (hs : Marshal.Ready s) {c : Tour Marshal.State (Deferred Scope)}
    (h : Followed (Each (putNext env walk)) (do walk d v x; Marshal.takeDeferred) s c (.ok () f))
    (hwrote : Writer.Wrote s.writer f.writer bytes) (hu : Follows env T N G s u)
    (hr : u.reader.rest = bytes ++ tail) :
    ∃ c' w, Followed (Each (getNext (env.receiver side previous) walk'))
        (do let _ ← walk' d y; Unmarshal.takeDeferred) u c' (.ok () w) ∧
      w.reader.rest = tail ∧ List.Forall₂ (Partners N) c c' := by
  cases h with
  | @done ds t c r here rest =>
    obtain ⟨_, s1, e1, e2⟩ := bind_eq_ok.1 here
    obtain ⟨rfl, rfl⟩ := Marshal.takeDeferred_eq_ok.1 e2
    obtain ⟨g1, -⟩ := hw.grows d v x hs e1
    have g2 := Marshal.grown_takeDeferred g1.ready e2
    have gf := grown_each hw.grows rest g2.ready rfl
    obtain ⟨bytes1, hw1⟩ := g1.wrote
    obtain ⟨bytes2, hw2⟩ := gf.wrote
    obtain rfl := hwrote.unique (hw1.trans hw2)
    rw [List.append_assoc] at hr
    obtain ⟨w, u1, G1, e3, r3, f3, -, -⟩ :=
      (hw.reads hT hm).reads hs e1 (hN.mono gf.nodes) List.prefix_rfl hw1 hu hr
    have hahead : Ahead env T N walk f tail s1.deferred.reverse { s1 with deferred := [] }
        u1.deferred.reverse { u1 with deferred := [] } :=
      ⟨g2.ready, rfl, ⟨c, rest⟩, G1, bytes2, f3.take, List.rel_reverse f3.deferred, hw2, r3⟩
    obtain ⟨c', w, hc', hend, hpairs⟩ := rest.inStep (inStep_ahead hw hN side previous) hahead
    refine ⟨c', w, .done (bind_eq_ok.2 ⟨_, u1, e3, Unmarshal.takeDeferred_eq_ok.2 ⟨rfl, rfl⟩⟩) hc',
      ?_, hpairs.imp fun p q ⟨ds, es, hpq⟩ => hpq.partners hw.grows hN⟩
    obtain ⟨G, bytes, -, -, hwrote, hr⟩ := hend.paired
    obtain rfl := hwrote.unique .refl
    exact hr

end

end Lockstep

/-! ### The order of recursion -/

/-- What is written for a parameter or a pointee comes in the order of the recursion. -/
structure Marshal.AsRecursion (env : Marshal.Env) (walk : Marshal.Walk) (x : Marshalling Unit)
    (s : Marshal.State) : Prop where
  /-- The loop over a stack of batches writes the same pointees in the same states. -/
  loop : ∀ c r, Followed (fun ds => Loop (Marshal.putNext env walk) [ds])
      (do x; Marshal.takeDeferred) s c r ↔
    Followed (Each (Marshal.putNext env walk)) (do x; Marshal.takeDeferred) s c r
  /-- What the recursion comes to, `flush` comes to, in a message whose positions are 64-bit words. -/
  flush : ∀ c r, Followed (Each (Marshal.putNext env walk)) (do x; Marshal.takeDeferred) s c r →
    (∀ p ∈ c, p.2.writer.position < 2 ^ 64) → (do x; Marshal.flush env walk) s = r
  /-- What `flush` comes to, the recursion comes to. -/
  recursion : (∀ t, (do x; Marshal.flush env walk) s ≠ .error .endlessReferences t) →
    ∃ c, Followed (Each (Marshal.putNext env walk)) (do x; Marshal.takeDeferred) s c
      ((do x; Marshal.flush env walk) s)

/-- What is read for a parameter or a pointee is read in the order of the recursion. -/
structure Unmarshal.AsRecursion (env : Unmarshal.Env) (walk : Unmarshal.Walk)
    (x : Unmarshalling Unit) (s : Unmarshal.State) : Prop where
  /-- The loop over a stack of batches reads the same pointees in the same states. -/
  loop : ∀ c r, Followed (fun ds => Loop (Unmarshal.getNext env walk) [ds])
      (do x; Unmarshal.takeDeferred) s c r ↔
    Followed (Each (Unmarshal.getNext env walk)) (do x; Unmarshal.takeDeferred) s c r
  /-- What the recursion comes to, `flush` comes to. -/
  flush : ∀ c r,
    Followed (Each (Unmarshal.getNext env walk)) (do x; Unmarshal.takeDeferred) s c r →
      (do x; Unmarshal.flush env walk) s = r
  /-- What `flush` comes to, the recursion comes to: it has an end on every message. -/
  recursion : ∃ c, Followed (Each (Unmarshal.getNext env walk)) (do x; Unmarshal.takeDeferred) s c
    ((do x; Unmarshal.flush env walk) s)

namespace Deferral

/-- A vector whose only parameter list, at 12, has a struct, at 56, of two unique pointers to its
like. -/
def treeVector : TypeVector where
  bytes := #[8, 0, 10, 0, 1, 255, 255, 255, 0, 0, 0, 0, 1, 0, 0, 0, 0, 0, 0, 0,
    15, 10, 255, 255, 56, 0, 0, 0, 254, 255, 255, 255, 15, 10, 255, 255, 56, 0, 0, 0,
    254, 255, 255, 255, 15, 10, 255, 255, 56, 0, 0, 0, 254, 255, 255, 255,
    4, 10, 255, 255, 0, 0, 0, 0, 255, 255, 255, 255, 30, 10, 255, 255, 32, 0, 0, 0,
    30, 10, 255, 255, 44, 0, 0, 0, 254]
  order := .little
  minor := 10

def treeNode (offset : Nat) : Descriptor := ⟨offset, {}, .struct .fixed 10 56⟩

def treeEdge (offset pointee : Nat) : Descriptor := ⟨offset, {}, .pointer .unique 10 pointee⟩

/-- The cells 0 and 1 are below the root, and 2 is below the cell 0. -/
def treeHeap : Heap :=
  ((({} : Heap).append (.struct [.pointer (some 2), .pointer none])).append
    (.struct [.pointer none, .pointer none])).append (.struct [.pointer none, .pointer none])

def treeRoot : Value := .struct [.pointer (some 0), .pointer (some 1)]

def treeEnv : Marshal.Env :=
  Machine.writing { interface := { vector := treeVector, layout := { entries := #[2, 0, 1] } } }
    { heap := treeHeap }

def treeStart : Marshal.State :=
  { ({ heap := treeHeap } : Surroundings) with writer := .new .reliable {} }

def treeSite : Site Scope := { scope := #[none], embedded := false }

def treePut : Marshalling (List (Deferred Scope)) := do
  Marshal.walk treeEnv 32 (treeNode 20) treeRoot treeSite
  Marshal.takeDeferred

def treeStep : Visit Marshal.State (Deferred Scope) :=
  Marshal.putNext treeEnv (Marshal.walk treeEnv 32)

/-- The state that an action leaves. -/
def endState {α σ : Type} : EStateM.Result Fault σ α → σ
  | .ok _ t | .error _ t => t

def treePointee (cell pointee : Nat) : Deferred Scope := { cell, pointee, scope := #[none, none] }

def treeStates : List Marshal.State :=
  let s₁ := endState (treePut treeStart)
  let s₂ := endState (treeStep (treePointee 0 32) s₁)
  let s₃ := endState (treeStep (treePointee 2 32) s₂)
  [s₁, s₂, s₃, endState (treeStep (treePointee 1 44) s₃)]

/-- The cell 2 is written before its uncle. -/
def treeTour : Tour Marshal.State (Deferred Scope) :=
  List.zip [treePointee 0 32, treePointee 2 32, treePointee 1 44] treeStates

def treeEnd : Marshal.State := treeStates.getLast (by simp [treeStates])

theorem followed_tree : Followed (Each treeStep) treePut treeStart treeTour (.ok () treeEnd) := by
  have h0 : treePut treeStart = .ok [treePointee 0 32, treePointee 1 44] treeStates[0] := rfl
  have h1 : treeStep (treePointee 0 32) treeStates[0] = .ok [treePointee 2 32] treeStates[1] := rfl
  have h2 : treeStep (treePointee 2 32) treeStates[1] = .ok [] treeStates[2] := rfl
  have h3 : treeStep (treePointee 1 44) treeStates[2] = .ok [] treeEnd := rfl
  exact .done h0 (.cons h1 (.cons h2 (.nil _) (.nil _)) (.cons h3 (.nil _) (.nil _)))

/-- All that is met of a tree are its nodes and edges. -/
theorem met_tree {d : Descriptor} {v : Value}
    (h : Met treeEnv.interface treeHeap [⟨0, treeNode 20⟩] [treeRoot] d v) :
    (∃ n, d = treeNode n) ∨ ∃ n p, (p = 32 ∨ p = 44) ∧ d = treeEdge n p := by
  induction h with
  | parameter hp =>
    obtain rfl := List.mem_singleton.1 hp
    exact .inl ⟨20, rfl⟩
  | field _ hd hs hf _ _ ih =>
    rcases ih with ⟨n, rfl⟩ | ⟨n, p, -, rfl⟩
    · cases hd
      have hfields : treeVector.structDefinition 56
          = .ok ⟨56, 4, 10, 0, none, [treeEdge 68 32, treeEdge 76 44]⟩ := rfl
      cases hfields.symm.trans hs
      have hmem := List.mem_filter.1 (List.mem_of_getElem? hf)
      simp only [List.mem_cons, List.not_mem_nil, or_false] at hmem
      rcases hmem.1 with rfl | rfl
      · exact .inr ⟨68, 32, .inl rfl, rfl⟩
      · exact .inr ⟨76, 44, .inr rfl, rfl⟩
    · exact nomatch hd
  | nestedField _ hd _ _ _ ih =>
    rcases ih with ⟨n, rfl⟩ | ⟨n, p, -, rfl⟩ <;> exact nomatch hd
  | pointee _ hd he _ ih =>
    rcases ih with ⟨n, rfl⟩ | ⟨n, p, hp, rfl⟩
    · exact nomatch hd
    · cases hd
      have h32 : treeVector.stream 32 = .ok (treeNode 32) := rfl
      have h44 : treeVector.stream 44 = .ok (treeNode 44) := rfl
      rcases hp with rfl | rfl
      · cases h32.symm.trans he
        exact .inl ⟨32, rfl⟩
      · cases h44.symm.trans he
        exact .inl ⟨44, rfl⟩

theorem isGraph_tree {d : Descriptor} {v : Value}
    (h : Met treeEnv.interface treeHeap [⟨0, treeNode 20⟩] [treeRoot] d v) :
    d.IsGraph treeEnv.interface ∧ (d.isField = false → v = .void) := by
  rcases met_tree h with ⟨n, rfl⟩ | ⟨n, p, -, rfl⟩
  · refine ⟨⟨rfl, fun s hs => ?_⟩, fun h => nomatch h⟩
    have hfields : treeVector.structDefinition 56
        = .ok ⟨56, 4, 10, 0, none, [treeEdge 68 32, treeEdge 76 44]⟩ := rfl
    cases hfields.symm.trans hs
    intro slots hslots p hp
    have hcount : treeEnv.interface.layout.slotCount 0 = .ok 2 := rfl
    cases hcount.symm.trans hslots
    match p with
    | 0 => exact ⟨0, by decide, rfl⟩
    | 1 => exact ⟨1, by decide, rfl⟩
  · exact ⟨PointerKind.noConfusion, fun h => nomatch h⟩

end Deferral

end Ndr
