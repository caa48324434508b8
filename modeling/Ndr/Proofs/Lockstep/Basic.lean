import Mathlib.Data.List.Forall2
import Ndr.Proofs.Marshal.Growth
import Ndr.Proofs.Renaming
import Ndr.Proofs.Unmarshal.Cells

/-!
Writing and reading in lock-step: how the state in which a message is read follows the state in
which it was written, and how actions that follow each other are put together.
-/

namespace Ndr

/-- What reads the messages that are written in an environment. -/
def Marshal.Env.receiver (env : Marshal.Env) (side : Side) (previous : NodeTable) :
    Unmarshal.Env where
  interface := env.interface
  representation := env.representation
  config := env.config
  side
  previous

/-- A scope as far as it was read. -/
def Unmarshal.State.scopeAt (u : Unmarshal.State) (i : ScopeId) : Scope := u.scopes[i]?.getD #[]

namespace Lockstep

/-! ### Cells that stand for each other -/

/-- The nodes at the end of writing, and the first cell that is made in reading. -/
structure Naming where
  base : Nat
  table : NodeTable

namespace Naming

variable (N : Naming)

/-- The cell made for a node. -/
def cell (c : CellId) : CellId := N.base + ((N.table.idOf? c).getD 1 - 1)

def Knows (c : CellId) : Prop := ∃ id, N.table.idOf? c = some id

/-- The nodes of a table are among those at the end. -/
def Covers (t : NodeTable) : Prop := ∀ c id, t.idOf? c = some id → N.table.idOf? c = some id

/-- A value that was read for another: the same but for its cells, which are all known. -/
structure Copy (v w : Value) : Prop where
  eq : w = v.rename N.cell
  knows : ∀ c, v.Leads c → N.Knows c

variable {N}

theorem Covers.mono {t t' : NodeTable} (h : N.Covers t')
    (ht : ∀ c id, t.idOf? c = some id → t'.idOf? c = some id) : N.Covers t :=
  fun c id e => h c id (ht c id e)

theorem cell_of_idOf? {c c' : CellId} {id : Nat} (h : N.table.idOf? c = some id) (hid : 0 < id)
    (hc : N.base + id = c' + 1) : N.cell c = c' := by
  simp only [cell, h, Option.getD_some]
  exact Nat.add_right_cancel (m := 1) (by rw [← hc]; omega)

theorem Copy.of_word? {kind : Scalar} {v : Value} {n : Nat} (h : kind.word? v = some n) :
    N.Copy v v :=
  ⟨(Value.rename_of_word? h).symm, fun _ hc => absurd hc (Value.not_leads_of_word? h)⟩

theorem Copy.toInt? {v w : Value} (h : N.Copy v w) : w.toInt? = v.toInt? := by
  rw [h.eq, Value.toInt?_rename]

theorem Copy.void : N.Copy .void .void := ⟨rfl, fun _ h => nomatch h⟩

theorem Copy.null : N.Copy (.pointer none) (.pointer none) := ⟨rfl, fun _ h => nomatch h⟩

end Naming

/-! ### Terms -/

/-- A scope, as it is once all its fields are known, and the fields that are read into it. -/
structure Frame where
  scope : Scope
  readable : Nat → Prop
  fits : ∀ k v, scope.get? k = some v → FitsInt64 v

/-- What is asked of the values that travel, and of the cells that they lead to. -/
structure Terms where
  value : Descriptor → Value → Frame → Prop
  cell : CellId → Prop

/-! ### States that follow each other -/

section

variable (env : Marshal.Env) (T : Terms) (N : Naming)

/-- A cell that was filled in reading holds the copy of the node that it was made for. -/
def Copied (c' : CellId) (w : Value) : Prop :=
  ∃ c v, N.Knows c ∧ N.cell c = c' ∧ env.heap.load? c = some v ∧ N.Copy v w

/-- A pointee that is put off in writing, and the one that is put off for it in reading. -/
structure Paired (t : NodeTable) (G : List Frame) (d : Deferred Scope) (d' : Deferred ScopeId) :
    Prop where
  cell : ∃ id, t.idOf? d.cell = some id ∧ N.base + id = d'.cell + 1
  pointee : d'.pointee = d.pointee
  frame : ∃ F, G[d'.scope]? = some F ∧ F.scope = d.scope ∧
    ∀ e v, env.vector.stream d.pointee = .ok e → env.heap.load d.cell = .ok v → T.value e v F

/-- The state `u` of reading follows the state `s` of writing; `G` are the scopes so far. -/
structure Follows (G : List Frame) (s : Marshal.State) (u : Unmarshal.State) : Prop where
  position : u.reader.position = s.writer.position
  /-- A heap that takes new cells takes any number of them. -/
  limit : ∀ c, T.cell c → u.heap.limit = none
  size : u.heap.cells.size = N.base + s.nodes.assigned
  live : ∀ c, N.base ≤ c → c < u.heap.cells.size → u.heap.isLive c
  nodes : ∀ id c, u.nodes.cellOf? id = some c ↔
    0 < id ∧ id ≤ s.nodes.assigned ∧ N.base + id = c + 1
  consistent : u.nodes.Consistent
  reached : ∀ c id, s.nodes.idOf? c = some id → T.cell c
  scopes : u.scopes.size = G.length
  partly : ∀ i F, G[i]? = some F → ∀ k v, F.readable k →
    (u.scopeAt i).get? k = some v → F.scope.get? k = some v
  late : ∀ i, ∀ c ∈ u.due i, ∃ F, G[i]? = some F ∧ F.readable c.bound.field ∧
    c.verify F.scope = .ok ()
  deferred : List.Forall₂ (Paired env T N s.nodes G) s.deferred u.deferred
  deleted : u.deleted = []

/-- What reading changes, apart from the scopes `own`: the cells of `W` are filled. -/
structure Course (own : ScopeId → Prop) (W : CellId → Prop) (G G' : List Frame)
    (u u' : Unmarshal.State) : Prop where
  frames : G <+: G'
  scopes : ∀ i < G.length, ¬ own i → u'.scopes[i]? = u.scopes[i]?
  step : Unmarshal.Step (Copied env N) W u u'

/-- What was written by `x` is read by `y`, from every state that follows and with the scopes
`G` among its own, and `Q` holds of the results. -/
structure Locked {α β : Type} (own : ScopeId → Prop) (G : List Frame) (x : Marshalling α)
    (y : Unmarshalling β) (Q : α → β → Prop) : Prop where
  grows : Marshal.Grows x
  reads : ∀ {s a t}, Marshal.Ready s → x s = .ok a t → N.Covers t.nodes →
    ∀ {G' u bytes tail}, G <+: G' → Writer.Wrote s.writer t.writer bytes →
      Follows env T N G' s u → u.reader.rest = bytes ++ tail →
      ∃ b u' G'', y u = .ok b u' ∧ u'.reader.rest = tail ∧ Follows env T N G'' t u' ∧
        Course env N own Unmarshal.None G' G'' u u' ∧ Q a b

/-- A step of reading alone, which takes nothing from the message. -/
structure Silent {β : Type} (own : ScopeId → Prop) (G : List Frame) (y : Unmarshalling β)
    (Q : β → Prop) : Prop where
  runs : ∀ {G' s u}, G <+: G' → Follows env T N G' s u →
    ∃ b u', y u = .ok b u' ∧ u'.reader.rest = u.reader.rest ∧ Follows env T N G' s u' ∧
      Course env N own Unmarshal.None G' G' u u' ∧ Q b

end

section

variable {env : Marshal.Env} {T : Terms} {N : Naming} {own : ScopeId → Prop} {G G' G'' : List Frame}
  {s t : Marshal.State} {u u' u'' : Unmarshal.State} {α β γ δ : Type}

/-- The frames so far stay where they are. -/
theorem frame_mono {i : Nat} {F : Frame} (hG : G <+: G') (h : G[i]? = some F) :
    G'[i]? = some F := by
  obtain ⟨H, rfl⟩ := hG
  rw [List.getElem?_append_left (List.getElem?_eq_some_iff.1 h).1, h]

theorem Paired.mono {t t' : NodeTable} {d : Deferred Scope} {d' : Deferred ScopeId}
    (h : Paired env T N t G d d') (ht : ∀ c id, t.idOf? c = some id → t'.idOf? c = some id)
    (hG : G <+: G') : Paired env T N t' G' d d' where
  cell := by
    obtain ⟨id, hid, hc⟩ := h.cell
    exact ⟨id, ht _ _ hid, hc⟩
  pointee := h.pointee
  frame := by
    obtain ⟨F, hF, h'⟩ := h.frame
    exact ⟨F, frame_mono hG hF, h'⟩

namespace Course

variable {W W' : CellId → Prop}

theorem refl : Course env N own Unmarshal.None G G u u :=
  ⟨List.prefix_rfl, fun _ _ _ => rfl, .of_eq rfl rfl⟩

theorem trans (h : Course env N own W G G' u u') (h' : Course env N own W' G' G'' u' u'') :
    Course env N own (fun c => W c ∨ W' c) G G'' u u'' where
  frames := h.frames.trans h'.frames
  scopes i hi ho := (h'.scopes i (Nat.lt_of_lt_of_le hi h.frames.length_le) ho).trans
    (h.scopes i hi ho)
  step := h.step.trans h'.step

theorem congr (h : Course env N own W G G' u u') (hW : ∀ c, W' c → W c) :
    Course env N own W' G G' u u' := ⟨h.frames, h.scopes, h.step.congr hW⟩

theorem trans_none (h : Course env N own Unmarshal.None G G' u u')
    (h' : Course env N own Unmarshal.None G' G'' u' u'') :
    Course env N own Unmarshal.None G G'' u u'' := (h.trans h').congr fun _ => False.elim

theorem mono {own' : ScopeId → Prop} (h : Course env N own W G G' u u')
    (ho : ∀ i, own i → own' i) : Course env N own' W G G' u u' :=
  ⟨h.frames, fun i hi hn => h.scopes i hi fun h => hn (ho i h), h.step⟩

/-- A change of neither the scopes, nor the heap, nor what is put off. -/
theorem of_eq (hs : u'.scopes = u.scopes) (hh : u'.heap = u.heap)
    (hd : u'.deferred = u.deferred) : Course env N own Unmarshal.None G G u u' :=
  ⟨List.prefix_rfl, fun _ _ _ => by rw [hs], .of_eq hh hd⟩

end Course

namespace Silent

variable {P : β → Prop} {Q : δ → Prop}

theorem pure {b : β} (h : P b) : Silent env T N own G (pure b) P where
  runs _ hu := ⟨b, _, rfl, rfl, hu, .refl, h⟩

theorem bind {y : Unmarshalling β} {z : β → Unmarshalling δ} (h : Silent env T N own G y P)
    (hz : ∀ b, P b → Silent env T N own G (z b) Q) : Silent env T N own G (y >>= z) Q where
  runs hG hu := by
    obtain ⟨b, u1, e1, r1, f1, c1, q1⟩ := h.runs hG hu
    obtain ⟨d, u2, e2, r2, f2, c2, q2⟩ := (hz b q1).runs hG f1
    exact ⟨d, u2, bind_eq_ok.2 ⟨b, u1, e1, e2⟩, r2.trans r1, f2, c1.trans_none c2, q2⟩

theorem lift {e : Except Fault β} {b : β} (he : e = .ok b) (h : P b) :
    Silent env T N own G (liftM e) P := by
  rw [he]
  exact .pure h

end Silent

namespace Locked

variable {x : Marshalling α} {y : Unmarshalling β} {Q : α → β → Prop} {Q' : γ → δ → Prop}

theorem mono {P : α → β → Prop} (h : Locked env T N own G x y P) (hQ : ∀ a b, P a b → Q a b) :
    Locked env T N own G x y Q where
  grows := h.grows
  reads hs e hN _ _ _ _ hG hw hu hr := by
    obtain ⟨b, u', G', h1, h2, h3, h4, h5⟩ := h.reads hs e hN hG hw hu hr
    exact ⟨b, u', G', h1, h2, h3, h4, hQ _ _ h5⟩

theorem frames (h : Locked env T N own G x y Q) (hG : G <+: G') :
    Locked env T N own G' x y Q :=
  ⟨h.grows, fun hs e hN _ _ _ _ hG' => h.reads hs e hN (hG.trans hG')⟩

theorem pure {a : α} {b : β} (h : Q a b) : Locked env T N own G (pure a) (pure b) Q where
  grows := .pure a
  reads _ e _ _ u _ _ _ hw hu hr := by
    obtain ⟨rfl, rfl⟩ := pure_eq_ok.1 e
    obtain rfl := hw.unique .refl
    exact ⟨b, u, _, rfl, hr, hu, .refl, h⟩

theorem throw (e : Fault) : Locked env T N own G (throw e : Marshalling α) y Q where
  grows := .throw e
  reads _ h := absurd h throw_ne_ok

theorem bind {f : α → Marshalling γ} {g : β → Unmarshalling δ} (h : Locked env T N own G x y Q)
    (hf : ∀ a, Marshal.Grows (f a))
    (hfg : ∀ a b, Q a b → Locked env T N own G (f a) (g b) Q') :
    Locked env T N own G (x >>= f) (y >>= g) Q' where
  grows := h.grows.bind hf
  reads {s a t} hs e hN G₁ u bytes tail hG hw hu hr := by
    obtain ⟨a, s1, h1, h2⟩ := bind_eq_ok.1 e
    obtain ⟨g1, -⟩ := h.grows hs h1
    obtain ⟨g2, -⟩ := hf a g1.ready h2
    obtain ⟨bytes1, hw1⟩ := g1.wrote
    obtain ⟨bytes2, hw2⟩ := g2.wrote
    obtain rfl := hw.unique (hw1.trans hw2)
    rw [List.append_assoc] at hr
    obtain ⟨b, u1, G2, e1, r1, f1, c1, q1⟩ := h.reads hs h1 (hN.mono g2.nodes) hG hw1 hu hr
    obtain ⟨d, u2, G3, e2, r2, f2, c2, q2⟩ :=
      (hfg a b q1).reads g1.ready h2 hN (hG.trans c1.frames) hw2 f1 r1
    exact ⟨d, u2, G3, bind_eq_ok.2 ⟨b, u1, e1, e2⟩, r2, f2, c1.trans_none c2, q2⟩

/-- A computation that only writing makes. -/
theorem lift {f : α → Marshalling γ} {e : Except Fault α} {Q : γ → β → Prop}
    (hf : ∀ a, Marshal.Grows (f a)) (h : ∀ a, e = .ok a → Locked env T N own G (f a) y Q) :
    Locked env T N own G (liftM e >>= f) y Q where
  grows := (Marshal.Grows.lift e).bind hf
  reads hs e' hN _ _ _ _ hG hw hu hr := by
    obtain ⟨a, s1, h1, h2⟩ := bind_eq_ok.1 e'
    obtain ⟨ha, rfl⟩ := lift_eq_ok.1 h1
    exact (h a ha).reads hs h2 hN hG hw hu hr

/-- A computation that only reading makes. -/
theorem right {e : Except Fault δ} {g : δ → Unmarshalling β} {d : δ} (he : e = .ok d)
    (h : Locked env T N own G x (g d) Q) : Locked env T N own G x (liftM e >>= g) Q := by
  rw [he]
  exact h

/-- A computation that both sides make. -/
theorem both {f : α → Marshalling γ} {g : α → Unmarshalling δ} {e : Except Fault α}
    (hf : ∀ a, Marshal.Grows (f a))
    (h : ∀ a, e = .ok a → Locked env T N own G (f a) (g a) Q') :
    Locked env T N own G (liftM e >>= f) (liftM e >>= g) Q' :=
  .lift hf fun a ha => .right ha (h a ha)

/-- A check that only writing makes. -/
theorem check {c : Prop} [Decidable c] {e : Fault} {f : PUnit → Marshalling α}
    (h : ¬ c → Locked env T N own G (f ⟨⟩) y Q) (hf : Marshal.Grows (f ⟨⟩)) :
    Locked env T N own G (if c then MonadExcept.throw e >>= f else f ⟨⟩) y Q where
  grows := .check hf
  reads hs e' hN _ _ _ _ hG hw hu hr := by
    split at e'
    · obtain ⟨_, _, h1, -⟩ := bind_eq_ok.1 e'
      exact absurd h1 throw_ne_ok
    · rename_i hc
      exact (h hc).reads hs e' hN hG hw hu hr

/-- A step that only reading makes. -/
theorem silent {z : Unmarshalling δ} {g : δ → Unmarshalling β} {P : δ → Prop}
    (hz : Silent env T N own G z P) (hx : Marshal.Grows x)
    (h : ∀ d, P d → Locked env T N own G x (g d) Q) :
    Locked env T N own G x (z >>= g) Q where
  grows := hx
  reads hs e hN _ _ _ _ hG hw hu hr := by
    obtain ⟨d, u1, e1, r1, f1, c1, q1⟩ := hz.runs hG hu
    obtain ⟨b, u2, G2, e2, r2, f2, c2, q2⟩ := (h d q1).reads hs e hN hG hw f1 (r1.trans hr)
    exact ⟨b, u2, G2, bind_eq_ok.2 ⟨d, u1, e1, e2⟩, r2, f2, c1.trans_none c2, q2⟩

/-- What only reading does behind a value. -/
theorem behind {g : β → Unmarshalling δ} {R : α → δ → Prop} (h : Locked env T N own G x y Q)
    (hg : ∀ a b, Q a b → Silent env T N own G (g b) (R a)) :
    Locked env T N own G x (y >>= g) R where
  grows := h.grows
  reads hs e hN _ _ _ _ hG hw hu hr := by
    obtain ⟨b, u1, G1, e1, r1, f1, c1, q1⟩ := h.reads hs e hN hG hw hu hr
    obtain ⟨d, u2, e2, r2, f2, c2, q2⟩ := (hg _ b q1).runs (hG.trans c1.frames) f1
    exact ⟨d, u2, G1, bind_eq_ok.2 ⟨b, u1, e1, e2⟩, r2.trans r1, f2, c1.trans_none c2, q2⟩

/-- The same value in another form. -/
theorem map {g : β → δ} {R : α → δ → Prop} (h : Locked env T N own G x y Q)
    (hg : ∀ a b, Q a b → R a (g b)) : Locked env T N own G x (g <$> y) R where
  grows := h.grows
  reads hs e hN _ _ _ _ hG hw hu hr := by
    obtain ⟨b, u1, G1, e1, r1, f1, c1, q1⟩ := h.reads hs e hN hG hw hu hr
    exact ⟨g b, u1, G1, map_eq_ok.2 ⟨b, e1, rfl⟩, r1, f1, c1, hg _ b q1⟩

end Locked

end

end Lockstep

end Ndr
