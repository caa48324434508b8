import Mathlib.Data.List.Nodup
import Mathlib.Logic.Function.Basic
import Mathlib.Logic.Relation
import Ndr.Proofs.Context

/-!
An association: a server, its clients, and the messages about contexts between them, which may be
lost, wait, overtake one another and arrive again. The handle that a server finds in a message of
a client is the one that it gave away in the message from which the client has its own.
-/

namespace Ndr

/-! ### Looking up -/

namespace Registry

variable {r : Registry} {h : ContextHandle} {u : Uuid}

theorem mem_of_token? (e : r.token? h = some u) : (h, u) ∈ r.entries := by
  obtain ⟨⟨h', u'⟩, hfind, rfl⟩ := Option.map_eq_some_iff.1 e
  obtain rfl : h' = h := by simpa using List.find?_some hfind
  exact List.mem_of_find?_eq_some hfind

theorem mem_of_resolve? (e : r.resolve? u = some h) : (h, u) ∈ r.entries := by
  obtain ⟨⟨h', u'⟩, hfind, rfl⟩ := Option.map_eq_some_iff.1 e
  obtain rfl : u' = u := by simpa using List.find?_some hfind
  exact List.mem_of_find?_eq_some hfind

theorem resolve?_of_forall (hm : (h, u) ∈ r.entries) (hall : ∀ g, (g, u) ∈ r.entries → g = h) :
    r.resolve? u = some h := by
  cases e : r.resolve? u with
  | some g => rw [hall g (mem_of_resolve? e)]
  | none =>
    rw [resolve?, Option.map_eq_none_iff, List.find?_eq_none] at e
    exact absurd (beq_self_eq_true u) (e _ hm)

theorem resolve?_eq_none (hall : ∀ g, (g, u) ∉ r.entries) : r.resolve? u = none := by
  cases e : r.resolve? u with
  | none => rfl
  | some g => exact absurd (mem_of_resolve? e) (hall g)

theorem isLive_of_mem (hm : (h, u) ∈ r.entries) : r.isLive h = true := by
  cases e : r.token? h with
  | some => rw [isLive, e, Option.isSome_some]
  | none =>
    rw [token?, Option.map_eq_none_iff, List.find?_eq_none] at e
    exact absurd (beq_self_eq_true h) (e _ hm)

/-! ### What a client holds -/

theorem entries_destroy_subset (l : List ContextHandle) :
    (l.foldl destroy r).entries ⊆ r.entries ∧ (l.foldl destroy r).last = r.last := by
  induction l generalizing r with
  | nil => exact ⟨List.Subset.refl _, rfl⟩
  | cons h l ih => exact ⟨List.Subset.trans ih.1 (List.filter_subset_self _), ih.2⟩

variable {held : Option ContextHandle}

theorem mem_hold {e : ContextHandle × Uuid} (he : e ∈ (r.hold held u).2.entries) :
    e ∈ r.entries ∨ (r.hold held u).1 = some e.1 ∧ e.2 = u := by
  unfold hold at he ⊢
  split
  · rename_i hnull
    rw [if_pos hnull] at he
    exact .inl ((entries_destroy_subset _).1 he)
  · rename_i hnull
    rw [if_neg hnull] at he
    unfold adopt at he ⊢
    cases hfound : r.resolve? u with
    | some g =>
      rw [hfound] at he
      exact .inl he
    | none =>
      rw [hfound] at he
      exact (List.mem_cons.1 he).symm.imp_right fun h => by rw [h]; exact ⟨rfl, rfl⟩

theorem last_le_hold : r.last ≤ (r.hold held u).2.last := by
  unfold hold
  split
  · exact Nat.le_of_eq (entries_destroy_subset _).2.symm
  · unfold adopt
    cases r.resolve? u with
    | some => exact Nat.le_refl _
    | none => exact Nat.le_succ _

/-- A handle that a client holds for a token is the one it had for it, or a new one. -/
theorem hold_eq_some (e : (r.hold held u).1 = some h) :
    u ≠ .null ∧ h ≤ (r.hold held u).2.last ∧ ((h, u) ∈ r.entries ∨ r.last < h) := by
  unfold hold at e ⊢
  by_cases hnull : u = .null
  · rw [if_pos hnull] at e
    simp at e
  · rw [if_neg hnull] at e ⊢
    refine ⟨hnull, ?_⟩
    unfold adopt at e ⊢
    cases hfound : r.resolve? u with
    | some g =>
      rw [hfound] at e
      obtain rfl := Option.some.inj e
      exact ⟨r.le_last _ (mem_of_resolve? hfound), .inl (mem_of_resolve? hfound)⟩
    | none =>
      rw [hfound] at e
      obtain rfl := Option.some.inj e
      exact ⟨Nat.le_refl _, .inr (Nat.lt_succ_self _)⟩

end Registry

/-! ### Messages -/

/-- A message, and how its words travel. -/
structure Letter where
  representation : Representation
  bytes : List UInt8

/-- The token of a letter. -/
def Letter.Says (l : Letter) (u : Uuid) : Prop := l.bytes = u.wire l.representation.integers

/-- A letter of a server, and the handle that it gave away in it. -/
structure Reply where
  letter : Letter
  handle : Option ContextHandle

/-- A letter of a client, and the handle that it passed in it. -/
structure Request (Client : Type) where
  client : Client
  letter : Letter
  handle : Option ContextHandle

/-- A handle that a client obtained, and the reply that it has it from. -/
structure Receipt (Client : Type) where
  client : Client
  handle : ContextHandle
  reply : Reply

/-- A machine of one side that is to pass a context. -/
structure Errand (side : Side) where
  machine : Machine
  side_eq : machine.side = side
  accepted : machine.config.check = .ok ()
  world : Surroundings
  offset : Nat
  params : List Value
  parameter : Parameter
  direction : ContextDirection
  passes : machine.interface.Passes offset parameter direction
  index_lt : parameter.index < params.length

namespace Errand

variable {side : Side}

def send (c : Errand side) (r : Registry) (sink : Sink) : Outcome Sink Nat :=
  c.machine.marshal { c.world with contexts := some r } c.offset c.params sink

def receive (c : Errand side) (r : Registry) (source : Source) : Outcome Source (List Value) :=
  c.machine.unmarshal { c.world with contexts := some r } c.offset c.params source

/-- Passing `h` gives this letter. -/
structure Sends (c : Errand side) (r : Registry) (h : Option ContextHandle) (l : Letter) :
    Prop where
  passed : c.params[c.parameter.index]? = some (.context h)
  representation : l.representation = c.machine.representation
  sent : ∃ sink n, (c.send r sink).result = .ok n ∧
    (c.send r sink).transport.message = sink.message ++ l.bytes

/-- The letter arrives, in some cut, at a machine of its representation. -/
structure Opens (c : Errand side) (l : Letter) (source : Source) : Prop where
  representation : l.representation = c.machine.representation
  arrived : source.bytes = l.bytes

/-- The handle that was received. -/
def brought (c : Errand side) (o : Outcome Source (List Value)) : Option ContextHandle := do
  let values ← o.result.toOption
  let v ← values[c.parameter.index]?
  v.context?.toOption.join

variable {c : Errand side} {r : Registry} {h : Option ContextHandle} {l : Letter} {u : Uuid}
  {source : Source}

theorem Sends.says (hs : c.Sends r h l) :
    ∃ u, Marshal.tokenOf r c.direction h = .ok u ∧ l.Says u := by
  obtain ⟨sink, n, e, hmessage⟩ := hs.sent
  obtain ⟨registry, h', u, hr, hh, htoken, hwire⟩ := Machine.marshal_context c.passes c.accepted e
  obtain rfl := Option.some.inj hr
  obtain rfl := Value.context.inj (Option.some.inj (hs.passed.symm.trans hh))
  refine ⟨u, htoken, List.append_cancel_left (hmessage.symm.trans ?_)⟩
  rw [hs.representation]
  exact hwire

/-- A client that receives a token holds it. -/
theorem receive_client {c : Errand .client} (ho : c.Opens l source) (hu : l.Says u) :
    ∃ held, (c.receive r source).surroundings.contexts = some (r.hold held u).2 ∧
      c.brought (c.receive r source) = (r.hold held u).1 := by
  have hcurrent := List.getElem?_eq_getElem c.index_lt
  obtain ⟨hresult, hcontexts⟩ := Machine.unmarshal_context_of_client
    { c.world with contexts := some r } c.passes c.side_eq rfl hcurrent
    (by rw [← ho.representation, ho.arrived]; exact hu)
  refine ⟨_, hcontexts, ?_⟩
  unfold brought receive
  rw [hresult]
  simp only [Except.toOption, Option.bind_eq_bind, Option.bind_some,
    List.getElem?_set_self c.index_lt]
  rfl

/-- A server that receives a token looks it up. -/
theorem receive_server {c : Errand .server} (ho : c.Opens l source) (hu : l.Says u) :
    (c.receive r source).result = (Unmarshal.resolveContext r c.direction u).map
      fun h => c.params.set c.parameter.index (.context h) :=
  Machine.unmarshal_context_of_server { c.world with contexts := some r } c.passes
    c.side_eq rfl c.index_lt (by rw [← ho.representation, ho.arrived]; exact hu)

theorem contexts_receive_server {c : Errand .server} :
    (c.receive r source).surroundings.contexts = some r :=
  Machine.contexts_unmarshal_of_server c.side_eq source

end Errand

/-! ### The parties and what passed between them -/

structure Association (Client : Type) where
  server : Registry := {}
  clients : Client → Registry := fun _ => {}
  /-- The contexts that the server made, newest first. -/
  minted : List (ContextHandle × Uuid) := []
  /-- Those that it destroyed. -/
  destroyed : List ContextHandle := []
  /-- The letters of the server. They stay: each may arrive late, and more than once. -/
  replies : List Reply := []
  /-- The letters of the clients. -/
  requests : List (Request Client) := []
  /-- The handles that the clients obtained. -/
  receipts : List (Receipt Client) := []

namespace Association

variable {Client : Type}

/-- What one party does. -/
inductive Step [DecidableEq Client] : Association Client → Association Client → Prop where
  | create (s : Association Client) {u : Uuid} (hu : u ≠ .null) (hnew : ∀ e ∈ s.minted, e.2 ≠ u) :
    Step s { s with
      server := (s.server.create u).2
      minted := ((s.server.create u).1, u) :: s.minted }
  | destroy (s : Association Client) (h : ContextHandle) :
    Step s { s with
      server := s.server.destroy h
      destroyed := if s.server.isLive h then h :: s.destroyed else s.destroyed }
  | reply (s : Association Client) (c : Errand .server) {h : Option ContextHandle} {l : Letter}
      (hs : c.Sends s.server h l) :
    Step s { s with replies := ⟨l, h⟩ :: s.replies }
  | accept (s : Association Client) (client : Client) (c : Errand .client) {r : Reply}
      {source : Source} {registry : Registry} (hr : r ∈ s.replies) (ho : c.Opens r.letter source)
      (hc : (c.receive (s.clients client) source).surroundings.contexts = some registry) :
    Step s { s with
      clients := Function.update s.clients client registry
      receipts := (c.brought (c.receive (s.clients client) source)).toList.map (⟨client, ·, r⟩)
        ++ s.receipts }
  | forget (s : Association Client) (client : Client) (h : ContextHandle) :
    Step s { s with clients := Function.update s.clients client ((s.clients client).destroy h) }
  | request (s : Association Client) (client : Client) (c : Errand .client)
      {h : Option ContextHandle} {l : Letter} (hs : c.Sends (s.clients client) h l) :
    Step s { s with requests := ⟨client, l, h⟩ :: s.requests }
  | serve (s : Association Client) (c : Errand .server) {q : Request Client} {source : Source}
      {registry : Registry} (hq : q ∈ s.requests) (ho : c.Opens q.letter source)
      (hc : (c.receive s.server source).surroundings.contexts = some registry) :
    Step s { s with server := registry }

/-- What comes of an association in which nothing was made yet. -/
def Reachable [DecidableEq Client] (s : Association Client) : Prop :=
  Relation.ReflTransGen Step {} s

/-! ### Where tokens come from -/

/-- The token that stands for a handle of the server. -/
def Token (s : Association Client) (h : Option ContextHandle) (u : Uuid) : Prop :=
  match h with
  | none => u = .null
  | some g => (g, u) ∈ s.minted

/-- The client has its handle `k` from a letter that gave away `g`. -/
def Stems (s : Association Client) (client : Client) (k g : ContextHandle) : Prop :=
  ∃ o ∈ s.receipts, o.client = client ∧ o.handle = k ∧ o.reply.handle = some g

/-- The token that stands for a handle of a client. -/
def Origin (s : Association Client) (client : Client) (h : Option ContextHandle) (u : Uuid) :
    Prop :=
  match h with
  | none => u = .null
  | some k => ∃ g, s.Stems client k g ∧ (g, u) ∈ s.minted

/-- Every token was minted for one context, and stands for it on both sides and in every
letter. -/
structure Sound (s : Association Client) : Prop where
  server : s.server.entries = s.minted.filter fun e => e.1 ∉ s.destroyed
  minted_le : ∀ e ∈ s.minted, e.1 ≤ s.server.last
  destroyed_le : ∀ h ∈ s.destroyed, h ≤ s.server.last
  tokens : (s.minted.map Prod.snd).Nodup
  token_ne : ∀ e ∈ s.minted, e.2 ≠ .null
  replies : ∀ r ∈ s.replies, ∃ u, s.Token r.handle u ∧ r.letter.Says u
  receipts : ∀ o ∈ s.receipts, o.reply ∈ s.replies ∧ ∃ g, o.reply.handle = some g
  obtained_le : ∀ client, ∀ o ∈ s.receipts, o.client = client → o.handle ≤ (s.clients client).last
  /-- The letters that brought a handle all gave away the same context. -/
  agree : ∀ client k g h, s.Stems client k g → s.Stems client k h → g = h
  clients : ∀ client, ∀ e ∈ (s.clients client).entries, s.Origin client (some e.1) e.2
  requests : ∀ q ∈ s.requests, ∃ u, s.Origin q.client q.handle u ∧ q.letter.Says u

variable {s t : Association Client} {client : Client} {h k g : ContextHandle} {u : Uuid}

theorem Stems.mono (hr : s.receipts ⊆ t.receipts) (hs : s.Stems client k g) :
    t.Stems client k g := by
  obtain ⟨o, ho, hs⟩ := hs
  exact ⟨o, hr ho, hs⟩

theorem Token.mono {h : Option ContextHandle} (hm : s.minted ⊆ t.minted) (hs : s.Token h u) :
    t.Token h u := by
  cases h with
  | none => exact hs
  | some g => exact hm hs

theorem Origin.mono {h : Option ContextHandle} (hm : s.minted ⊆ t.minted)
    (hr : s.receipts ⊆ t.receipts) (hs : s.Origin client h u) : t.Origin client h u := by
  cases h with
  | none => exact hs
  | some k =>
    obtain ⟨g, hg, hu⟩ := hs
    exact ⟨g, hg.mono hr, hm hu⟩

namespace Sound

/-- A token was minted for one handle only. -/
theorem eq_of_token (hs : s.Sound) (hg : (g, u) ∈ s.minted) (hh : (h, u) ∈ s.minted) : g = h :=
  congrArg Prod.fst (List.inj_on_of_nodup_map hs.tokens hg hh rfl)

theorem mem_server_iff (hs : s.Sound) :
    (g, u) ∈ s.server.entries ↔ (g, u) ∈ s.minted ∧ g ∉ s.destroyed := by
  rw [hs.server, List.mem_filter, decide_eq_true_iff]

theorem resolve?_live (hs : s.Sound) (hu : (g, u) ∈ s.minted) (hg : g ∉ s.destroyed) :
    s.server.resolve? u = some g :=
  Registry.resolve?_of_forall (hs.mem_server_iff.2 ⟨hu, hg⟩) fun _ hm =>
    hs.eq_of_token (hs.mem_server_iff.1 hm).1 hu

theorem resolve?_destroyed (hs : s.Sound) (hu : (g, u) ∈ s.minted) (hg : g ∈ s.destroyed) :
    s.server.resolve? u = none :=
  Registry.resolve?_eq_none fun f hm => by
    obtain ⟨hf, hlive⟩ := hs.mem_server_iff.1 hm
    rw [hs.eq_of_token hf hu] at hlive
    exact hlive hg

/-! ### What a step preserves -/

theorem initial : ({} : Association Client).Sound where
  server := rfl
  minted_le := by simp
  destroyed_le := by simp
  tokens := List.nodup_nil
  token_ne := by simp
  replies := by simp
  receipts := by simp
  obtained_le := by simp
  agree := by simp [Stems]
  clients := by simp
  requests := by simp

theorem create (hs : s.Sound) (hu : u ≠ .null) (hnew : ∀ e ∈ s.minted, e.2 ≠ u) :
    Sound { s with
      server := (s.server.create u).2
      minted := ((s.server.create u).1, u) :: s.minted } := by
  have hm : s.minted ⊆ ((s.server.create u).1, u) :: s.minted := List.subset_cons_self _ _
  constructor
  · have hlast : s.server.last + 1 ∉ s.destroyed := fun h => Nat.not_succ_le_self _ (hs.destroyed_le _ h)
    show (s.server.last + 1, u) :: s.server.entries = _
    rw [hs.server, List.filter_cons_of_pos]
    · rfl
    · exact decide_eq_true hlast
  · exact List.forall_mem_cons.2 ⟨Nat.le_refl _, fun e he => Nat.le_succ_of_le (hs.minted_le e he)⟩
  · exact fun h hh => Nat.le_succ_of_le (hs.destroyed_le h hh)
  · refine List.nodup_cons.2 ⟨fun h => ?_, hs.tokens⟩
    obtain ⟨e, he, rfl⟩ := List.mem_map.1 h
    exact hnew e he rfl
  · exact List.forall_mem_cons.2 ⟨hu, hs.token_ne⟩
  · exact fun r hr => (hs.replies r hr).imp fun _ h => ⟨h.1.mono hm, h.2⟩
  · exact hs.receipts
  · exact hs.obtained_le
  · exact hs.agree
  · exact fun c e he => (hs.clients c e he).mono hm (List.Subset.refl _)
  · exact fun q hq => (hs.requests q hq).imp fun _ h => ⟨h.1.mono hm (List.Subset.refl _), h.2⟩

theorem destroy (hs : s.Sound) (h : ContextHandle) :
    Sound { s with
      server := s.server.destroy h
      destroyed := if s.server.isLive h then h :: s.destroyed else s.destroyed } := by
  refine { hs with server := ?_, minted_le := hs.minted_le, destroyed_le := ?_ }
  · show s.server.entries.filter _ = s.minted.filter _
    by_cases hlive : s.server.isLive h = true
    · rw [hs.server, List.filter_filter]
      refine List.filter_congr fun e _ => ?_
      simp [hlive, bne, Bool.beq_eq_decide_eq]
    · rw [if_neg hlive, ← hs.server, List.filter_eq_self]
      rintro ⟨g, u⟩ hm
      exact bne_iff_ne.2 fun heq => hlive (heq ▸ Registry.isLive_of_mem hm)
  · show ∀ g ∈ (if s.server.isLive h then h :: s.destroyed else s.destroyed), g ≤ s.server.last
    split
    · rename_i hlive
      refine List.forall_mem_cons.2 ⟨?_, hs.destroyed_le⟩
      obtain ⟨u, hu⟩ := Option.isSome_iff_exists.1 hlive
      exact s.server.le_last _ (Registry.mem_of_token? hu)
    · exact hs.destroyed_le

theorem reply (hs : s.Sound) {c : Errand .server} {h : Option ContextHandle} {l : Letter}
    (hc : c.Sends s.server h l) : Sound { s with replies := ⟨l, h⟩ :: s.replies } := by
  refine { hs with replies := List.forall_mem_cons.2 ⟨?_, hs.replies⟩, receipts := fun o ho =>
    (hs.receipts o ho).imp_left (List.mem_cons_of_mem _) }
  obtain ⟨u, htoken, hu⟩ := hc.says
  refine ⟨u, ?_, hu⟩
  unfold Marshal.tokenOf at htoken
  cases h with
  | none =>
    dsimp only at htoken
    split at htoken
    · cases htoken
    · exact (Except.ok.inj htoken).symm
  | some g =>
    dsimp only at htoken
    split at htoken
    · rename_i hu'
      obtain rfl := Except.ok.inj htoken
      exact (hs.mem_server_iff.1 (Registry.mem_of_token? hu')).1
    · cases htoken

theorem request (hs : s.Sound) {c : Errand .client} {h : Option ContextHandle} {l : Letter}
    (hc : c.Sends (s.clients client) h l) :
    Sound { s with requests := ⟨client, l, h⟩ :: s.requests } := by
  refine { hs with requests := List.forall_mem_cons.2 ⟨?_, hs.requests⟩ }
  obtain ⟨u, htoken, hu⟩ := hc.says
  refine ⟨u, ?_, hu⟩
  unfold Marshal.tokenOf at htoken
  cases h with
  | none =>
    dsimp only at htoken
    split at htoken
    · cases htoken
    · exact (Except.ok.inj htoken).symm
  | some k =>
    dsimp only at htoken
    split at htoken
    · rename_i hu'
      obtain rfl := Except.ok.inj htoken
      exact hs.clients client _ (Registry.mem_of_token? hu')
    · cases htoken

variable [DecidableEq Client]

theorem forget (hs : s.Sound) (client : Client) (h : ContextHandle) :
    Sound { s with
      clients := Function.update s.clients client ((s.clients client).destroy h) } := by
  refine { hs with obtained_le := ?_, clients := ?_ }
  · exact (Function.forall_update_iff _ fun c (registry : Registry) =>
      ∀ o ∈ s.receipts, o.client = c → o.handle ≤ registry.last).2
      ⟨hs.obtained_le client, fun c _ => hs.obtained_le c⟩
  · exact (Function.forall_update_iff _ fun c (registry : Registry) =>
      ∀ e ∈ registry.entries, s.Origin c (some e.1) e.2).2
      ⟨fun e he => hs.clients client e (List.mem_filter.1 he).1, fun c _ => hs.clients c⟩

theorem accept (hs : s.Sound) {c : Errand .client} {r : Reply} {source : Source}
    {registry : Registry} (hr : r ∈ s.replies) (ho : c.Opens r.letter source)
    (hc : (c.receive (s.clients client) source).surroundings.contexts = some registry) :
    Sound { s with
      clients := Function.update s.clients client registry
      receipts := (c.brought (c.receive (s.clients client) source)).toList.map (⟨client, ·, r⟩)
        ++ s.receipts } := by
  obtain ⟨u, htoken, hu⟩ := hs.replies r hr
  obtain ⟨held, hcontexts, hbrought⟩ := Errand.receive_client (r := s.clients client) ho hu
  obtain rfl := Option.some.inj (hcontexts.symm.trans hc)
  rw [hbrought]
  set before := s.clients client with hbefore
  set new := ((before.hold held u).1.toList.map (⟨client, ·, r⟩) : List (Receipt Client))
  have hmono : ∀ {c h v}, s.Origin c h v → Origin { s with
      clients := Function.update s.clients client (before.hold held u).2
      receipts := new ++ s.receipts } c h v := fun h =>
    Origin.mono (s := s) (List.Subset.refl s.minted) (List.subset_append_right new s.receipts) h
  -- what was brought is the token's handle, and the letter gave its context away
  have hnew : ∀ o ∈ new, o.client = client ∧ o.reply = r ∧ (before.hold held u).1 = some o.handle := by
    intro o ho
    obtain ⟨k, hk, rfl⟩ := List.mem_map.1 ho
    exact ⟨rfl, rfl, Option.mem_toList.1 hk⟩
  have hgiven : ∀ k, (before.hold held u).1 = some k → ∃ g, r.handle = some g ∧ (g, u) ∈ s.minted := by
    intro k hk
    have hne := (Registry.hold_eq_some hk).1
    cases hg : r.handle with
    | none =>
      rw [hg] at htoken
      exact absurd htoken hne
    | some g =>
      rw [hg] at htoken
      exact ⟨g, rfl, htoken⟩
  -- so a handle that the client had before stems from the same context
  have hold : ∀ k g h, (before.hold held u).1 = some k → r.handle = some g →
      s.Stems client k h → g = h := by
    intro k g h hk hg hh
    obtain ⟨g', hg', hminted⟩ := hgiven k hk
    obtain rfl := Option.some.inj (hg.symm.trans hg')
    rcases (Registry.hold_eq_some hk).2.2 with hmem | hlt
    · obtain ⟨f, hf, hfu⟩ := hs.clients client _ hmem
      rw [hs.eq_of_token hminted hfu]
      exact hs.agree client k _ _ hf hh
    · obtain ⟨o, ho, hclient, rfl, -⟩ := hh
      exact absurd (hs.obtained_le client o ho hclient) (Nat.not_le.2 hlt)
  refine { hs with receipts := ?_, obtained_le := ?_, agree := ?_, clients := ?_, requests := ?_ }
  · intro o ho
    rcases List.mem_append.1 ho with ho | ho
    · obtain ⟨-, rfl, hk⟩ := hnew o ho
      exact ⟨hr, (hgiven _ hk).imp fun _ h => h.1⟩
    · exact hs.receipts o ho
  · refine (Function.forall_update_iff _ fun c (registry : Registry) =>
      ∀ o ∈ new ++ s.receipts, o.client = c → o.handle ≤ registry.last).2 ⟨?_, ?_⟩
    · intro o ho hclient
      rcases List.mem_append.1 ho with ho | ho
      · exact (Registry.hold_eq_some (hnew o ho).2.2).2.1
      · exact Nat.le_trans (hs.obtained_le client o ho hclient) Registry.last_le_hold
    · intro c hne o ho hclient
      rcases List.mem_append.1 ho with ho | ho
      · exact absurd ((hnew o ho).1.symm.trans hclient).symm hne
      · exact hs.obtained_le c o ho hclient
  · rintro c k g h ⟨o, ho, rfl, rfl, hog⟩ ⟨o', ho', hclient, hhandle, hoh⟩
    rcases List.mem_append.1 ho with ho | ho <;> rcases List.mem_append.1 ho' with ho' | ho'
    · rw [(hnew o ho).2.1] at hog
      rw [(hnew o' ho').2.1] at hoh
      exact Option.some.inj (hog.symm.trans hoh)
    · obtain ⟨hc, hr, hk⟩ := hnew o ho
      rw [hr] at hog
      exact hold _ g h hk hog ⟨o', ho', hclient.trans hc, hhandle, hoh⟩
    · obtain ⟨hc, hr, hk⟩ := hnew o' ho'
      rw [hr] at hoh
      exact (hold _ h g hk hoh ⟨o, ho, hclient.symm.trans hc, hhandle.symm, hog⟩).symm
    · exact hs.agree _ _ g h ⟨o, ho, rfl, rfl, hog⟩ ⟨o', ho', hclient, hhandle, hoh⟩
  · refine (Function.forall_update_iff _ fun c (registry : Registry) =>
      ∀ e ∈ registry.entries, Origin _ c (some e.1) e.2).2 ⟨?_, ?_⟩
    · intro e he
      rcases Registry.mem_hold he with he | ⟨hk, rfl⟩
      · exact hmono (hs.clients client e he)
      · obtain ⟨g, hg, hminted⟩ := hgiven _ hk
        refine ⟨g, ⟨⟨client, e.1, r⟩, List.mem_append_left _ ?_, rfl, rfl, hg⟩, hminted⟩
        exact List.mem_map.2 ⟨e.1, Option.mem_toList.2 hk, rfl⟩
    · exact fun c _ e he => hmono (hs.clients c e he)
  · exact fun q hq => (hs.requests q hq).imp fun _ h => ⟨hmono h.1, h.2⟩

end Sound

theorem Step.sound [DecidableEq Client] (h : Step s t) (hs : s.Sound) : t.Sound := by
  cases h with
  | create hu hnew => exact hs.create hu hnew
  | destroy h => exact hs.destroy h
  | reply c hc => exact hs.reply hc
  | accept client c hr ho hc => exact hs.accept hr ho hc
  | forget client h => exact hs.forget client h
  | request client c hc => exact hs.request hc
  | serve c hq ho hc =>
    obtain rfl := Option.some.inj (Errand.contexts_receive_server.symm.trans hc)
    exact hs

theorem Reachable.sound [DecidableEq Client] (h : Reachable s) : s.Sound := by
  induction h with
  | refl => exact Sound.initial
  | tail _ hstep ih => exact hstep.sound ih

/-! ### What a server answers -/

/-- **A handle means the same on both sides.** -/
theorem context_identity [DecidableEq Client] :
    -- no message of any kind enters a context into the registry of a server
    (∀ (m : Machine) (world : Surroundings) (offset : Nat) (params : List Value) (source : Source),
      m.side = .server →
        (m.unmarshal world offset params source).surroundings.contexts = world.contexts) ∧
    ∀ s : Association Client, s.Reachable → ∀ q ∈ s.requests, ∀ (c : Errand .server)
      (source : Source), c.Opens q.letter source →
        let result := (c.receive s.server source).result
        -- a handle that is found is the one given away in the letter the client has its own from
        (∀ values g, result = .ok values →
          values[c.parameter.index]? = some (.context (some g)) →
            ∃ k, q.handle = some k ∧
              (∃ o ∈ s.receipts, o.client = q.client ∧ o.handle = k) ∧
              ∀ o ∈ s.receipts, o.client = q.client → o.handle = k →
                o.reply ∈ s.replies ∧ o.reply.handle = some g) ∧
        ∀ o ∈ s.receipts, o.client = q.client → q.handle = some o.handle →
          ∃ g u, o.reply.handle = some g ∧ (g, u) ∈ s.minted ∧
            -- it is found until it is destroyed, and never after
            result = if g ∈ s.destroyed then .error (.contextMismatch u)
              else .ok (c.params.set c.parameter.index (.context (some g))) := by
  refine ⟨fun m world offset params source h => m.contexts_unmarshal_of_server h source, ?_⟩
  intro s hreach q hq c source ho
  have hs := hreach.sound
  obtain ⟨u, horigin, hu⟩ := hs.requests q hq
  have hresult := Errand.receive_server (r := s.server) ho hu
  refine ⟨fun values g hvalues hg => ?_, fun o ho' hclient hhandle => ?_⟩
  · rw [hvalues] at hresult
    cases hfound : Unmarshal.resolveContext s.server c.direction u with
    | error e =>
      rw [hfound] at hresult
      cases hresult
    | ok h =>
      rw [hfound] at hresult
      obtain rfl := Except.ok.inj hresult
      rw [List.getElem?_set_self c.index_lt] at hg
      obtain rfl := Value.context.inj (Option.some.inj hg)
      obtain ⟨hne, hresolve⟩ := Unmarshal.resolveContext_eq_some hfound
      have hminted := (hs.mem_server_iff.1 (Registry.mem_of_resolve? hresolve)).1
      cases hhandle : q.handle with
      | none =>
        rw [hhandle] at horigin
        exact absurd horigin hne
      | some k =>
        rw [hhandle] at horigin
        obtain ⟨f, hstems, hf⟩ := horigin
        obtain rfl := hs.eq_of_token hf hminted
        refine ⟨k, rfl, hstems.imp fun o h => ⟨h.1, h.2.1, h.2.2.1⟩, fun o ho hclient hk => ?_⟩
        obtain ⟨hreply, e, he⟩ := hs.receipts o ho
        exact ⟨hreply, (hs.agree _ _ _ _ hstems ⟨o, ho, hclient, hk, he⟩) ▸ he⟩
  · rw [hhandle] at horigin
    obtain ⟨g, hstems, hminted⟩ := horigin
    obtain ⟨-, e, he⟩ := hs.receipts o ho'
    obtain rfl := hs.agree _ _ _ _ hstems ⟨o, ho', hclient, rfl, he⟩
    refine ⟨g, u, he, hminted, hresult.trans ?_⟩
    rw [Unmarshal.resolveContext, if_neg (hs.token_ne _ hminted)]
    by_cases hgone : g ∈ s.destroyed
    · rw [if_pos hgone, hs.resolve?_destroyed hminted hgone]
      rfl
    · rw [if_neg hgone, hs.resolve?_live hminted hgone]
      rfl

/-- A vector whose only parameter list, at 12, has a context that goes both ways. -/
def contextVector : TypeVector where
  bytes := #[8, 0, 10, 0, 1, 255, 255, 255, 0, 0, 0, 0, 1, 0, 0, 0, 0, 0, 0, 0, 43, 254]
  order := .little
  minor := 10

def contextErrand (side : Side) (v : Value) : Errand side where
  machine := { interface := { vector := contextVector }, side }
  side_eq := rfl
  accepted := by cases side <;> decide +kernel
  world := {}
  offset := 12
  params := [v]
  parameter := { index := 0, descriptor := { offset := 20, modifiers := {}, form := .context .inputOutput } }
  direction := .inputOutput
  passes := ⟨rfl, rfl⟩
  index_lt := Nat.zero_lt_one

/-- A client is given a context and passes it back, before and after it is destroyed. -/
theorem context_identity_returned :
    let u : Uuid := ⟨1, 2, 3, 4⟩
    let letter : Letter := ⟨{}, u.wire .little⟩
    let c := contextErrand .server .void
    let source := Source.ofBytes letter.bytes
    ∃ s : Association Unit, s.Reachable ∧ ⟨(), letter, some 1⟩ ∈ s.requests ∧
      c.Opens letter source ∧ (c.receive s.server source).result = .ok [.context (some 1)] := by
  intro u letter c source
  let reply : Reply := ⟨letter, some 1⟩
  -- both sides have the token under their first handle
  have hserver : (contextErrand .server (.context (some 1))).Sends (({} : Registry).create u).2 (some 1)
      letter := ⟨rfl, rfl, .reliable, 20, by decide +kernel, by decide +kernel⟩
  have hclient : (contextErrand .client (.context (some 1))).Sends (({} : Registry).create u).2 (some 1)
      letter := ⟨rfl, rfl, .reliable, 20, by decide +kernel, by decide +kernel⟩
  have hcontexts : ((contextErrand .client .void).receive {} source).surroundings.contexts
      = some (({} : Registry).create u).2 := by decide +kernel
  have hbrought : (contextErrand .client .void).brought
      ((contextErrand .client .void).receive {} source) = some 1 := by decide +kernel
  have h1 : Reachable _ := .tail .refl (.create ({} : Association Unit) (u := u) (by decide) (by simp))
  have h2 := h1.tail (.reply _ _ hserver)
  have h3 := h2.tail (.accept _ () _ (r := reply) List.mem_cons_self ⟨rfl, rfl⟩ hcontexts)
  have h4 := h3.tail (.request _ () _ hclient)
  have hreceipt : (⟨(), 1, reply⟩ : Receipt Unit) ∈ ((contextErrand .client .void).brought
      ((contextErrand .client .void).receive {} source)).toList.map (⟨(), ·, reply⟩) ++ [] := by
    rw [hbrought]
    exact List.mem_cons_self
  obtain ⟨g, v, hg, hv, hresult⟩ := (context_identity.2 _ h4 _ List.mem_cons_self c source ⟨rfl, rfl⟩).2
    _ hreceipt rfl rfl
  obtain rfl := Option.some.inj hg
  exact ⟨_, h4, List.mem_cons_self, ⟨rfl, rfl⟩, hresult⟩

end Association

end Ndr
