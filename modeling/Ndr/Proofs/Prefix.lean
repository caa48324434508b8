import Ndr.Proofs.Lockstep.Operation
import Ndr.Proofs.Recutting
import Ndr.Proofs.Rollback
import Ndr.Proofs.Unmarshal.Progress

/-!
A message is read up to its end, and no further: what stands behind the bytes that are read makes no
difference, and where some of them are missing, reading fails for want of them and for nothing else.
-/

namespace Ndr

variable {α β : Type}

/-! ### Steps of a reader -/

namespace Reader

/-- What a step does at a place where it reads `bytes` and gives `a`: the same in front of any tail,
and it misses bytes where only a part of them is there. -/
structure Frames (x : Fetch α) (place : Nat) (bytes : List UInt8) (a : α) : Prop where
  whole : ∀ ⦃tail r⦄, Reader.At r place (bytes ++ tail) →
    ∃ t, x r = .ok a t ∧ t.At (place + bytes.length) tail
  part : ∀ ⦃part r⦄, part <+: bytes → part ≠ bytes → Reader.At r place part →
    ∃ n m t, x r = .error (.bufferUnderflow n m) t

/-- A step that reads some bytes at the front of the message wherever it succeeds. -/
def Framed (x : Fetch α) : Prop :=
  ∀ ⦃place w r a t⦄, Reader.At r place w → x r = .ok a t →
    ∃ bytes tail, w = bytes ++ tail ∧ Frames x place bytes a

theorem Frames.nil {x : Fetch α} {place : Nat} {a : α}
    (h : ∀ ⦃r⦄ ⦃w : List UInt8⦄, Reader.At r place w → x r = .ok a r) : Frames x place [] a where
  whole _ r hr := ⟨r, h hr, hr⟩
  part _ _ hp hn _ := absurd (List.prefix_nil.1 hp) hn

/-- A part of bytes that are read in two steps ends in those of the first, or in those of the
second. -/
theorem part_of_append {part bytes bytes' : List UInt8} (hp : part <+: bytes ++ bytes')
    (hn : part ≠ bytes ++ bytes') : (part <+: bytes ∧ part ≠ bytes) ∨
      ∃ part', part = bytes ++ part' ∧ part' <+: bytes' ∧ part' ≠ bytes' := by
  rcases List.prefix_or_prefix_of_prefix hp (List.prefix_append bytes bytes') with h | ⟨part', rfl⟩
  · by_cases he : part = bytes
    · subst he
      exact .inr ⟨[], by simp, List.nil_prefix, fun h => hn (by simp [← h])⟩
    · exact .inl ⟨h, he⟩
  · exact .inr ⟨part', rfl, (List.prefix_append_right_inj bytes).1 hp, fun h => hn (by rw [h])⟩

namespace Framed

theorem lift (x : Except Fault α) : Framed (liftM x : Fetch α) := fun _ w r _ _ _ e => by
  obtain ⟨rfl, rfl⟩ := lift_eq_ok.1 e
  exact ⟨[], w, rfl, .nil fun _ _ _ => rfl⟩

theorem bind {x : Fetch α} {f : α → Fetch β} (hx : Framed x) (hf : ∀ a, Framed (f a)) :
    Framed (x >>= f) := by
  intro place w r b t hr e
  obtain ⟨a, u, hxr, hfu⟩ := bind_eq_ok.1 e
  obtain ⟨bytes, rest, rfl, hx⟩ := hx hr hxr
  obtain ⟨_, hu, hat⟩ := hx.whole hr
  obtain ⟨-, rfl⟩ := EStateM.Result.ok.inj (hxr.symm.trans hu)
  obtain ⟨bytes', tail, rfl, hf⟩ := hf a hat hfu
  refine ⟨bytes ++ bytes', tail, (List.append_assoc ..).symm, ?_, ?_⟩
  · intro tail r hr
    rw [List.append_assoc] at hr
    obtain ⟨u, hu, hat⟩ := hx.whole hr
    obtain ⟨t, ht, hat'⟩ := hf.whole hat
    refine ⟨t, (bind_of_ok hu f).trans ht, ?_⟩
    rwa [List.length_append, ← Nat.add_assoc]
  · intro part r hp hn hr
    rcases part_of_append hp hn with ⟨hp, hn⟩ | ⟨part, rfl, hp, hn⟩
    · obtain ⟨n, m, t, ht⟩ := hx.part hp hn hr
      exact ⟨n, m, t, bind_of_error ht f⟩
    · obtain ⟨u, hu, hat⟩ := hx.whole hr
      obtain ⟨n, m, t, ht⟩ := hf.part hp hn hat
      exact ⟨n, m, t, (bind_of_ok hu f).trans ht⟩

/-- A step that depends on the place. -/
theorem seePosition {f : Nat → Fetch α} (h : ∀ n, Framed (f n)) :
    Framed (get >>= fun r => f r.position) := by
  have hget : ∀ {place w} {r : Reader}, r.At place w →
      (get >>= fun r => f r.position : Fetch α) r = f place r := fun {_ _ r} hr => by
    rw [← hr.position]
    exact bind_of_ok (get_eq_ok.2 ⟨rfl, rfl⟩) _
  intro place w r a t hr e
  obtain ⟨bytes, tail, hw, hf⟩ := h place hr ((hget hr).symm.trans e)
  refine ⟨bytes, tail, hw, fun tail r hr => ?_, fun part r hp hn hr => ?_⟩
  · rw [hget hr]
    exact hf.whole hr
  · rw [hget hr]
    exact hf.part hp hn hr

/-- Bytes that are read where the message holds them, and are missed where it does not. -/
theorem of_enough {x : Fetch α} (n : Nat) (value : List UInt8 → α)
    (hkeep : Keeps (fun r : Reader => r.source.Faultless) (fun _ => True) x)
    (henough : ∀ {r bytes tail}, r.rest = bytes ++ tail → bytes.length = n →
      ∃ r', x r = .ok (value bytes) r' ∧ Took r r' n tail)
    (hshort : ∀ {r : Reader}, r.source.Faultless → r.rest.length < n →
      ∃ k m t, x r = .error (.bufferUnderflow k m) t) :
    Framed x := by
  intro place w r a t hr e
  have hlen : n ≤ w.length := by
    by_contra hlt
    obtain ⟨k, m, u, hu⟩ := hshort hr.faultless (by rw [hr.rest]; omega)
    exact absurd (e.symm.trans hu) (by simp)
  have htake : (w.take n).length = n := List.length_take_of_le hlen
  have hwhole : ∀ {tail r}, Reader.At r place (w.take n ++ tail) →
      ∃ t, x r = .ok (value (w.take n)) t ∧ t.At (place + (w.take n).length) tail := by
    intro tail r hr
    obtain ⟨t, ht, htook⟩ := henough hr.rest htake
    have hfaultless := hkeep r hr.faultless
    rw [ht] at hfaultless
    exact ⟨t, ht, by rw [htook.position, hr.position, htake], htook.rest, hfaultless.1⟩
  have hsplit : w.take n ++ w.drop n = w := List.take_append_drop n w
  refine ⟨w.take n, w.drop n, hsplit.symm, fun tail r' hr' => ?_, fun part r' hp hn hr' => ?_⟩
  · obtain ⟨u, hu, -⟩ := hwhole (hsplit ▸ hr)
    obtain ⟨rfl, -⟩ := EStateM.Result.ok.inj (e.symm.trans hu)
    exact hwhole hr'
  · refine hshort hr'.faultless ?_
    rw [hr'.rest]
    exact Nat.lt_of_le_of_ne (htake ▸ hp.length_le) fun h => hn (hp.eq_of_length (h.trans htake.symm))

end Framed

theorem framed_getTogether (n : Nat) : Framed (getTogether n) :=
  .of_enough n id (composes_keeps_faultless.together n)
    (fun h hn => by subst hn; exact getTogether_ok h)
    fun hr h => by
      obtain ⟨t, ht, -⟩ := getTogether_short hr h
      exact ⟨_, _, t, ht⟩

theorem framed_getRun (n : Nat) : Framed (getRun n) :=
  .of_enough n id (composes_keeps_faultless.run n)
    (fun h hn => by subst hn; exact getRun_ok h)
    fun hr h => by
      obtain ⟨t, ht, -⟩ := getRun_short hr h
      exact ⟨_, _, t, ht⟩

theorem composes_framed : Reader.Composes Framed where
  lift := .lift
  bind := .bind
  seePosition := .seePosition
  together := framed_getTogether
  run := framed_getRun

end Reader

namespace Unmarshal

open Reader (At part_of_append)

/-! ### Walks -/

/-- What an action does in a state and at a place where it reads `bytes`, gives `a` and leaves `t`:
the same in front of any tail, and it misses bytes where only a part of them is there. -/
structure Frames (x : Unmarshalling α) (s : State) (place : Nat) (bytes : List UInt8) (a : α)
    (t : State) : Prop where
  whole : ∀ ⦃tail reader⦄, At reader place (bytes ++ tail) → ∃ reader',
    x { s with reader } = .ok a { t with reader := reader' } ∧ reader'.At (place + bytes.length) tail
  part : ∀ ⦃part reader⦄, part <+: bytes → part ≠ bytes → At reader place part →
    ∃ n m t', x { s with reader } = .error (.bufferUnderflow n m) t'

/-- An action that reads some bytes at the front of the message wherever it succeeds. -/
def Framed (x : Unmarshalling α) : Prop :=
  ∀ ⦃s : State⦄ ⦃place w a t⦄, s.reader.At place w → x s = .ok a t →
    ∃ bytes tail, w = bytes ++ tail ∧ Frames x s place bytes a t

/-- Where the bytes end, the rest of the message begins. -/
theorem Frames.at {x : Unmarshalling α} {s t : State} {place : Nat} {bytes tail : List UInt8} {a : α}
    (h : Frames x s place bytes a t) (hs : s.reader.At place (bytes ++ tail)) (e : x s = .ok a t) :
    t.reader.At (place + bytes.length) tail := by
  obtain ⟨reader, he, hat⟩ := h.whole hs
  obtain ⟨-, ht⟩ := EStateM.Result.ok.inj (e.symm.trans he)
  rw [ht]
  exact hat

namespace Framed

variable {x : Unmarshalling α} {f : α → Unmarshalling β}

theorem quiet (h : Quiet x) : Framed x := by
  intro s place w a t hs e
  obtain ⟨r, s', hx⟩ := h s
  have he := e.symm.trans (hx s.reader)
  cases r with
  | error f => exact absurd he (by simp [Writer.ended])
  | ok b =>
    obtain ⟨rfl, rfl⟩ := EStateM.Result.ok.inj he
    refine ⟨[], w, rfl, fun tail reader hr => ⟨reader, hx reader, hr⟩, fun part _ hp hn _ => ?_⟩
    exact absurd (List.prefix_nil.1 hp) hn

theorem bind (hx : Framed x) (hf : ∀ a, Framed (f a)) : Framed (x >>= f) := by
  intro s place w b t hs e
  obtain ⟨a, u, hxs, hfu⟩ := bind_eq_ok.1 e
  obtain ⟨bytes, rest, rfl, hx⟩ := hx hs hxs
  obtain ⟨bytes', tail, rfl, hf⟩ := hf a (hx.at hs hxs) hfu
  refine ⟨bytes ++ bytes', tail, (List.append_assoc ..).symm, ?_, ?_⟩
  · intro tail reader hr
    rw [List.append_assoc] at hr
    obtain ⟨reader1, hu, hat⟩ := hx.whole hr
    obtain ⟨reader2, ht, hat'⟩ := hf.whole hat
    refine ⟨reader2, (bind_of_ok hu f).trans ht, ?_⟩
    rwa [List.length_append, ← Nat.add_assoc]
  · intro part reader hp hn hr
    rcases part_of_append hp hn with ⟨hp, hn⟩ | ⟨part, rfl, hp, hn⟩
    · obtain ⟨n, m, t, ht⟩ := hx.part hp hn hr
      exact ⟨n, m, t, bind_of_error ht f⟩
    · obtain ⟨reader1, hu, hat⟩ := hx.whole hr
      obtain ⟨n, m, t, ht⟩ := hf.part hp hn hat
      exact ⟨n, m, t, (bind_of_ok hu f).trans ht⟩

/-- An action that depends on what it sees in the state, the reader apart. -/
theorem see {γ : Type} {g : State → γ} {f : γ → Unmarshalling α} (hf : ∀ c, Framed (f c))
    (hg : ∀ (s : State) (reader : Reader), g { s with reader } = g s) :
    Framed (get >>= fun s => f (g s)) := by
  have hget : ∀ s reader, (get >>= fun s => f (g s) : Unmarshalling α) { s with reader }
      = f (g s) { s with reader } := fun s reader => by
    rw [← hg s reader]
    exact bind_of_ok (get_eq_ok.2 ⟨rfl, rfl⟩) _
  intro s place w a t hs e
  obtain ⟨bytes, tail, hw, hframes⟩ := hf (g s) hs ((hget s s.reader).symm.trans e)
  refine ⟨bytes, tail, hw, fun tail reader hr => ?_, fun part reader hp hn hr => ?_⟩
  · rw [hget]
    exact hframes.whole hr
  · rw [hget]
    exact hframes.part hp hn hr

theorem fetch {x : Fetch α} (hx : Reader.Framed x) : Framed (fetch x) := by
  intro s place w a t hs e
  obtain ⟨reader, h, rfl⟩ := onPart_eq_ok.1 e
  obtain ⟨bytes, tail, hw, hframes⟩ := hx hs h
  refine ⟨bytes, tail, hw, fun tail reader hr => ?_, fun part reader hp hn hr => ?_⟩
  · obtain ⟨reader', h', hat⟩ := hframes.whole hr
    exact ⟨reader', onPart_eq_ok.2 ⟨reader', h', rfl⟩, hat⟩
  · obtain ⟨n, m, reader', h'⟩ := hframes.part hp hn hr
    refine ⟨n, m, { s with reader := reader' }, ?_⟩
    unfold Unmarshal.fetch onPart
    rw [show x ({ s with reader } : State).reader = _ from h']

/-- A loop that is bounded by what is left of the message, where the bound is none: in front of a
longer tail it does the same. -/
theorem of_bounded {y : Nat → Unmarshalling α}
    (h : ∀ (s : State) (n : Nat), s.reader.rest.length < n → x s = y n s)
    (hy : ∀ n, Framed (y n)) : Framed x := by
  intro s place w a t hs e
  -- any bound above what is left gives the same bytes, since the same rest follows them
  have hframes : ∀ n, s.reader.rest.length < n →
      ∃ bytes, w = bytes ++ t.reader.rest ∧ Frames (y n) s place bytes a t := by
    intro n hn
    have e := (h s n hn).symm.trans e
    obtain ⟨bytes, tail, rfl, hframes⟩ := hy n hs e
    exact ⟨bytes, by rw [(hframes.at hs e).rest], hframes⟩
  obtain ⟨bytes, hw, -⟩ := hframes _ (Nat.lt_succ_self _)
  have hbytes : ∀ n, s.reader.rest.length < n → Frames (y n) s place bytes a t := by
    intro n hn
    obtain ⟨bytes', hw', hframes⟩ := hframes n hn
    rwa [List.append_cancel_right (hw.symm.trans hw')]
  refine ⟨bytes, t.reader.rest, hw, fun tail reader hr => ?_, fun part reader hp hn hr => ?_⟩
  · rw [h { s with reader } (s.reader.rest.length + reader.rest.length + 1)
      (Nat.lt_succ_of_le (Nat.le_add_left _ _))]
    exact (hbytes _ (Nat.lt_succ_of_le (Nat.le_add_right _ _))).whole hr
  · rw [h { s with reader } (s.reader.rest.length + reader.rest.length + 1)
      (Nat.lt_succ_of_le (Nat.le_add_left _ _))]
    exact (hbytes _ (Nat.lt_succ_of_le (Nat.le_add_right _ _))).part hp hn hr

end Framed

theorem lifts_framed : Lifts Reader.Framed Framed where
  toComposes := Reader.composes_framed
  quiet := .quiet
  fetch := .fetch
  after := .bind
  see := .see

/-- A whole operation reads up to the end of its bytes: pointees that are put off and pieces of
pipes are bounded by nothing else. -/
theorem framed_getParameters (env : Env) (offset : Nat) (params : List Value) :
    Framed (getParameters env offset params) := by
  have hR := lifts_framed.relates env
  have hwalk : ∀ room, RelatesWalks (fun _ => True) (fun x _ => Framed x) (Unmarshal.walk env room)
      (Unmarshal.walk env room) := fun room d _ => lifts_framed.walk env room d
  refine lifts_framed.getParameters env (fun room h e site => ?_) (fun room => ?_) offset params
  · exact .of_bounded (y := fun n => getPieces env (Unmarshal.walk env room) h e site n)
      (fun s _ hs => getPieces_walk_eq env room hs)
      fun n => hR.getPieces (hwalk room) (.refl env) (hR.onPipe h) trivial site n
  · exact .of_bounded (y := fun n => do getDeferred env (Unmarshal.walk env room) n (← takeDeferred))
      (fun s _ hs => flush_eq env room hs)
      fun n => hR.takeDeferred (g := fun ds => getDeferred env (Unmarshal.walk env room) n ds)
        fun _ hds => hR.getDeferred (hwalk room) (fun _ _ => ⟨rfl, fun _ _ => trivial⟩) n hds

end Unmarshal

/-! ### Machines -/

namespace Machine

/-- What an operation with this outcome reads of a message are the bytes `read` at its front. -/
structure Frames (m : Machine) (world : Surroundings) (offset : Nat) (params : List Value)
    (read : List UInt8) (o : Outcome Source (List Value)) : Prop where
  /-- In front of any bytes it is the same operation, and leaves those. -/
  whole : ∀ (source : Source) (tail : List UInt8), source.Faultless → source.bytes = read ++ tail →
    let o' := m.unmarshal world offset params source
    o'.result = o.result ∧ o'.machine = o.machine ∧ o'.surroundings = o.surroundings ∧
      o'.transport.unread = tail
  /-- Where only a part of them is there, it misses bytes, and the caller keeps the parameters and
  the cells. -/
  part : ∀ source : Source, source.Faultless → source.bytes <+: read → source.bytes ≠ read →
    let o' := m.unmarshal world offset params source
    (∃ n k, o'.result = .error (.bufferUnderflow n k)) ∧ o'.result.toOption.getD params = params ∧
      o'.surroundings.heap.load? = world.heap.load?

/-- Taking back leaves every cell as it was, and makes none. -/
theorem load?_rollback {h : Heap} {r : Option Registry} {s : Unmarshal.State}
    (hs : Unmarshal.Undoable h r s) : (rollback s).heap.load? = h.load? := by
  obtain ⟨-, -, hold, hnew⟩ := heap_rollback hs
  funext c
  by_cases hc : c < h.allocations
  · rw [Heap.load?, hold c hc]
    rfl
  · rw [hnew c (Nat.not_lt.1 hc), Heap.load?, Array.getElem?_eq_none (Nat.not_lt.1 hc)]
    rfl

/-- **Exactly the front of a message is read**: with other bytes behind what was read the operation
is the same, and where any of it is missing the operation fails for want of bytes. -/
theorem unmarshal_framed (m : Machine) (world : Surroundings) (offset : Nat) (params : List Value)
    {source : Source} {values : List Value} (hs : source.Faultless)
    (h : (m.unmarshal world offset params source).result = .ok values) :
    let o := m.unmarshal world offset params source
    ∃ read, source.bytes = read ++ o.transport.unread ∧ m.Frames world offset params read o := by
  have hat : ∀ {source : Source}, source.Faultless →
      ({ source } : Reader).At 0 source.bytes := fun hs => ⟨rfl, rfl, hs⟩
  have hframed := Unmarshal.framed_getParameters { m.startOperation with } offset params
  cases e : Unmarshal.getParameters { m.startOperation with } offset params
      { world with reader := { source } } with
  | error f s =>
    unfold unmarshal at h
    dsimp only at e h
    rw [e] at h
    exact absurd h (by simp)
  | ok ws t =>
    have houtcome : m.unmarshal world offset params source =
        { result := .ok (replace params ws)
          machine := { m.startOperation with nodes := t.nodes }
          surroundings := commit m.nodes t
          transport := t.reader.finish } := by
      unfold unmarshal
      dsimp only at e ⊢
      rw [e]
      rfl
    obtain ⟨read, tail, hread, hframes⟩ := hframed (hat hs) e
    have hleft : t.reader.finish.unread = tail :=
      (hframes.at (hread ▸ hat hs) e).rest
    rw [houtcome]
    refine ⟨read, by rw [hread, hleft], fun source' tail' hs' hbytes => ?_,
      fun source' hs' hp hn => ?_⟩
    · obtain ⟨reader, e', hr⟩ := hframes.whole (hbytes ▸ hat hs')
      unfold unmarshal
      dsimp only at e' ⊢
      rw [e']
      exact ⟨rfl, rfl, rfl, hr.rest⟩
    · obtain ⟨n, k, t', e'⟩ := hframes.part hp hn (hat hs')
      have hresult : (m.unmarshal world offset params source').result
          = .error (.bufferUnderflow n k) := by
        unfold unmarshal
        dsimp only at e' ⊢
        rw [e']
      obtain ⟨s, hundo, hworld, -⟩ := unmarshal_eq_error hresult
      exact ⟨⟨n, k, hresult⟩, by rw [hresult]; rfl, by rw [hworld]; exact load?_rollback hundo⟩

/-- A pointer and its long are read, and two bytes behind them are not. -/
theorem unmarshal_framed_longPointer :
    let m : Machine := { interface := { vector := longPointerVector } }
    let source : Source := .ofChunks [[1, 0, 0, 0, 4, 3], [2, 1, 9, 9]]
    let o := m.unmarshal {} 16 [.void] source
    source.Faultless ∧ o.result = .ok [.pointer (some 0)] ∧
      ∃ read, source.bytes = read ++ o.transport.unread ∧ m.Frames {} 16 [.void] read o :=
  have hs : (Source.ofChunks [[1, 0, 0, 0, 4, 3], [2, 1, 9, 9]]).Faultless :=
    Source.faultless_ofChunks _
  have h : (Machine.unmarshal { interface := { vector := longPointerVector } } {} 16 [.void]
      (.ofChunks [[1, 0, 0, 0, 4, 3], [2, 1, 9, 9]])).result = .ok [.pointer (some 0)] := by
    decide +kernel
  ⟨hs, h, unmarshal_framed _ _ _ _ hs h⟩

end Machine

end Ndr
