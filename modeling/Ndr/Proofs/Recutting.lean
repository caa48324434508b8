import Ndr.Proofs.Unmarshal.Composition
import Ndr.Proofs.Unmarshal.Quiet
import Ndr.Proofs.Wire
import Ndr.Value.Equality

/-!
How a message is cut on the way does not matter to its reader: every step gives the same value or
the same fault, and passes the same bytes, in whatever chunks they arrive from a transport that
never fails.
-/

namespace Ndr

namespace Source

/-- A transport that never fails: all that it has to give is chunks. -/
def Faultless (s : Source) : Prop := ∀ d ∈ s.pending, ∃ bytes, d = .chunk bytes

/-- A message in these chunks. -/
def ofChunks (chunks : List (List UInt8)) : Source where
  pending := chunks.map .chunk

theorem faultless_ofChunks (chunks : List (List UInt8)) : (ofChunks chunks).Faultless := by
  intro d hd
  obtain ⟨bytes, -, rfl⟩ := List.mem_map.1 hd
  exact ⟨bytes, rfl⟩

theorem bytes_ofChunks (chunks : List (List UInt8)) : (ofChunks chunks).bytes = chunks.flatten := by
  show bytes.go (chunks.map .chunk) = chunks.flatten
  induction chunks with
  | nil => rfl
  | cons c chunks ih => rw [List.map_cons, bytes.go, ih, List.flatten_cons]

end Source

namespace Reader

variable {r : Reader} {n : Nat}

/-! ### Chunks that never fail -/

theorem faultless_ensureFrom {ds : List Delivery} (hd : ∀ d ∈ ds, ∃ bytes, d = .chunk bytes)
    (hr : r.source.Faultless) :
    Ends (fun t : Reader => t.source.Faultless) (fun _ => True) (ensureFrom n ds r) := by
  induction ds generalizing r with
  | nil =>
    unfold ensureFrom
    split
    · exact ⟨hr, trivial⟩
    · exact fun d hd => absurd hd List.not_mem_nil
  | cons d ds ih =>
    obtain ⟨bytes, rfl⟩ := hd d List.mem_cons_self
    have hds : ∀ d ∈ ds, ∃ bytes, d = .chunk bytes := fun d h => hd d (List.mem_cons_of_mem _ h)
    unfold ensureFrom
    split
    · exact ⟨hr, trivial⟩
    · exact ih hds (r := r.take bytes ds) hds

theorem keeps_faultless_ensure (n : Nat) :
    Keeps (fun t : Reader => t.source.Faultless) (fun _ => True) (ensure n) :=
  fun _ hr => faultless_ensureFrom hr hr

theorem composes_keeps_faultless :
    Reader.Composes (Keeps (fun t : Reader => t.source.Faultless) fun _ => True) :=
  composes_keeps keeps_faultless_ensure fun _ _ _ ht => ht

/-! ### Bytes that are missing -/

/-- A message that is too short is received to its end. -/
theorem ensureFrom_short {ds : List Delivery} (hd : r.source.pending = ds) (hr : r.source.Faultless)
    (h : r.rest.length < n) :
    ∃ t, ensureFrom n ds r = .error (.bufferUnderflow n r.rest.length) t ∧ Took r t 0 r.rest := by
  have hcurrent : ¬n ≤ r.current.length := by
    simp only [rest, List.length_append] at h
    omega
  induction ds generalizing r with
  | nil =>
    have hrest : r.rest = r.current := by simp [rest, Source.bytes, hd, Source.bytes.go]
    refine ⟨{ r with source := { r.source with pending := [], receives := r.source.receives + 1 } },
      ?_, ?_, rfl⟩
    · simp only [ensureFrom, hasAtLeast_iff, hcurrent, if_false, hrest]
    · simp [rest, Source.bytes, hd, Source.bytes.go]
  | cons d ds ih =>
    obtain ⟨bytes, rfl⟩ := hr d (hd ▸ List.mem_cons_self)
    have hrest : (r.take bytes ds).rest = r.rest := by
      simp [rest, Reader.take, Source.bytes, hd, Source.bytes.go]
    have hshort : (r.take bytes ds).rest.length < n := by rwa [hrest]
    have hds : (r.take bytes ds).source.Faultless := fun d h => hr d (hd ▸ List.mem_cons_of_mem _ h)
    obtain ⟨t, he, ht⟩ := ih (r := r.take bytes ds) rfl hds hshort (by
      simp only [rest, List.length_append] at hshort
      omega)
    refine ⟨t, ?_, ht.rest.trans hrest, ht.position⟩
    rw [← hrest]
    simpa only [ensureFrom, hasAtLeast_iff, hcurrent, if_false] using he

theorem ensure_short (hr : r.source.Faultless) (h : r.rest.length < n) :
    ∃ t, ensure n r = .error (.bufferUnderflow n r.rest.length) t ∧ Took r t 0 r.rest :=
  ensureFrom_short rfl hr h

/-- A run that the message does not hold is read to the end of the message. -/
theorem getRunFrom_short {fuel : Nat} (hf : n ≤ fuel) (before : List (List UInt8))
    (hr : r.source.Faultless) (h : r.rest.length < n) :
    ∃ t, getRunFrom fuel n before r = .error (.bufferUnderflow 1 0) t ∧
      Took r t r.rest.length [] := by
  induction fuel generalizing r n before with
  | zero => omega
  | succ fuel ih =>
    obtain ⟨n, rfl⟩ := Nat.exists_eq_succ_of_ne_zero (by omega : n ≠ 0)
    -- behind the first check a chunk has bytes left
    have hrest : ∀ {r : Reader}, r.source.Faultless → r.rest.length < n + 1 → r.current ≠ [] → ∃ t,
        (do
          let piece ← modifyGet fun r : Reader =>
            let piece := r.current.take (n + 1)
            (piece, { r with
              current := r.current.drop (n + 1)
              position := r.position + piece.length })
          getRunFrom fuel (n + 1 - piece.length) (piece :: before) : Fetch _) r
            = .error (.bufferUnderflow 1 0) t ∧ Took r t r.rest.length [] := by
      intro r hr h hc
      have hpos : 0 < r.current.length := List.length_pos_iff.2 hc
      have hlen : r.rest.length = r.current.length + r.source.bytes.length := List.length_append
      have hall : r.current.length ≤ n + 1 := by omega
      obtain ⟨t, he, ht⟩ := ih (r := { r with
          current := r.current.drop (n + 1)
          position := r.position + (r.current.take (n + 1)).length })
        (n := n + 1 - (r.current.take (n + 1)).length)
        (by rw [List.take_of_length_le hall]; omega) (r.current.take (n + 1) :: before) hr (by
          simp only [rest, List.drop_of_length_le hall, List.take_of_length_le hall,
            List.nil_append]
          omega)
      refine ⟨t, he, ht.rest, ht.position.trans ?_⟩
      simp only [rest, List.drop_of_length_le hall, List.take_of_length_le hall, List.nil_append,
        List.length_append]
      omega
    have hget : (get : Fetch Reader) r = .ok r r := rfl
    unfold getRunFrom
    rw [bind_of_ok hget]
    by_cases hc : r.current = []
    · rw [if_pos (by rw [hc]; rfl)]
      by_cases hempty : r.rest = []
      · obtain ⟨t, he, ht⟩ := ensure_short (n := 1) hr (by rw [hempty]; exact Nat.one_pos)
        rw [hempty] at he ht ⊢
        exact ⟨t, bind_of_error he _, ht⟩
      · obtain ⟨t, he, ht, hlen⟩ := ensure_ok (n := 1) (List.length_pos_iff.2 hempty)
        have hkeep := keeps_faultless_ensure 1 r hr
        rw [he] at hkeep
        obtain ⟨u, hu, htook⟩ := hrest hkeep.1 (by rwa [ht.rest]) (List.length_pos_iff.1 hlen)
        rw [bind_of_ok he]
        refine ⟨u, hu, htook.rest, htook.position.trans ?_⟩
        rw [ht.rest, ht.position, Nat.add_zero]
    · rw [if_neg (by simpa using hc)]
      exact hrest hr h hc

theorem getRun_short (hr : r.source.Faultless) (h : r.rest.length < n) :
    ∃ t, getRun n r = .error (.bufferUnderflow 1 0) t ∧ Took r t r.rest.length [] :=
  getRunFrom_short (Nat.le_refl _) [] hr h

theorem getTogether_short (hr : r.source.Faultless) (h : r.rest.length < n) :
    ∃ t, getTogether n r = .error (.bufferUnderflow n r.rest.length) t ∧ Took r t 0 r.rest := by
  obtain ⟨t, he, ht⟩ := ensure_short hr h
  exact ⟨t, bind_of_error he _, ht⟩

/-! ### Steps that do not see the cuts -/

/-- A reader at a place of a message of which `w` is left, in chunks. -/
structure At (r : Reader) (place : Nat) (w : List UInt8) : Prop where
  position : r.position = place
  rest : r.rest = w
  faultless : r.source.Faultless

/-- A step of which the result and the progress follow from the place and from what is left. -/
def Uncut {α : Type} (x : Fetch α) : Prop :=
  ∀ place w, ∃ (a : Except Fault α) (place' : Nat) (w' : List UInt8),
    ∀ ⦃r : Reader⦄, r.At place w → ∃ r', x r = Writer.ended a r' ∧ r'.At place' w'

namespace Uncut

variable {α β : Type}

theorem lift (x : Except Fault α) : Uncut (liftM x : Fetch α) := fun place w =>
  ⟨x, place, w, fun r hr => ⟨r, by cases x <;> rfl, hr⟩⟩

theorem bind {x : Fetch α} {f : α → Fetch β} (hx : Uncut x) (hf : ∀ a, Uncut (f a)) :
    Uncut (x >>= f) := by
  intro place w
  obtain ⟨a, place1, w1, h1⟩ := hx place w
  cases a with
  | error e =>
    refine ⟨.error e, place1, w1, fun r hr => ?_⟩
    obtain ⟨r1, e1, hr1⟩ := h1 hr
    exact ⟨r1, bind_of_error e1 f, hr1⟩
  | ok a =>
    obtain ⟨b, place2, w2, h2⟩ := hf a place1 w1
    refine ⟨b, place2, w2, fun r hr => ?_⟩
    obtain ⟨r1, e1, hr1⟩ := h1 hr
    obtain ⟨r2, e2, hr2⟩ := h2 hr1
    exact ⟨r2, (bind_of_ok e1 f).trans e2, hr2⟩

/-- A step that depends on the place. -/
theorem seePosition {f : Nat → Fetch α} (h : ∀ n, Uncut (f n)) :
    Uncut (get >>= fun r => f r.position) := by
  intro place w
  obtain ⟨a, place', w', ha⟩ := h place place w
  refine ⟨a, place', w', fun r hr => ?_⟩
  obtain ⟨r', e, hr'⟩ := ha hr
  have hget : (get : Fetch Reader) r = .ok r r := rfl
  exact ⟨r', by rw [bind_of_ok hget, hr.position]; exact e, hr'⟩

/-- Bytes that are read where the message holds them, and are missed where it does not. -/
theorem of_enough {x : Fetch α} (n : Nat) (value : List UInt8 → α) (fault : Nat → Fault)
    (passed : Nat → Nat) (hkeep : Keeps (fun r : Reader => r.source.Faultless) (fun _ => True) x)
    (henough : ∀ {r bytes tail}, r.rest = bytes ++ tail → bytes.length = n →
      ∃ r', x r = .ok (value bytes) r' ∧ Took r r' n tail)
    (hshort : ∀ {r : Reader}, r.source.Faultless → r.rest.length < n →
      ∃ r', x r = .error (fault r.rest.length) r' ∧
        Took r r' (passed r.rest.length) (r.rest.drop (passed r.rest.length))) :
    Uncut x := by
  intro place w
  have hat : ∀ {r r' : Reader} {k tail}, r.At place w → Ends (fun r : Reader => r.source.Faultless)
      (fun _ => True) (x r) → (∀ a, x r = Writer.ended a r' → Took r r' k tail →
        r'.At (place + k) tail) := by
    intro r r' k tail hr hends a he ht
    refine ⟨ht.position.trans (by rw [hr.position]), ht.rest, ?_⟩
    rw [he] at hends
    cases a with
    | ok a => exact hends.1
    | error e => exact hends
  by_cases h : n ≤ w.length
  · refine ⟨.ok (value (w.take n)), place + n, w.drop n, fun r hr => ?_⟩
    have hsplit : r.rest = w.take n ++ w.drop n := by rw [hr.rest, List.take_append_drop]
    obtain ⟨r', e, ht⟩ := henough hsplit (List.length_take_of_le h)
    exact ⟨r', e, hat hr (hkeep r hr.faultless) (.ok _) e ht⟩
  · refine ⟨.error (fault w.length), place + passed w.length, w.drop (passed w.length),
      fun r hr => ?_⟩
    obtain ⟨r', e, ht⟩ := hshort hr.faultless (by rw [hr.rest]; omega)
    rw [hr.rest] at e ht
    exact ⟨r', e, hat hr (hkeep r hr.faultless) (.error _) e ht⟩

end Uncut

theorem uncut_getTogether (n : Nat) : Uncut (getTogether n) :=
  .of_enough n id (.bufferUnderflow n) (fun _ => 0) (composes_keeps_faultless.together n)
    (fun h hn => by subst hn; exact getTogether_ok h)
    fun hr h => by simpa using getTogether_short hr h

theorem uncut_getRun (n : Nat) : Uncut (getRun n) :=
  .of_enough n id (fun _ => .bufferUnderflow 1 0) id (composes_keeps_faultless.run n)
    (fun h hn => by subst hn; exact getRun_ok h)
    fun hr h => by simpa using getRun_short hr h

theorem composes_uncut : Reader.Composes Uncut where
  lift := .lift
  bind := .bind
  seePosition := .seePosition
  together := uncut_getTogether
  run := uncut_getRun

end Reader

namespace Unmarshal

open Reader (At)

/-! ### Walks that do not see the cuts -/

variable {α β : Type}

/-- An action of which the result and the changes follow from the state, from the place in the
message and from what is left of it. -/
def Uncut (x : Unmarshalling α) : Prop :=
  ∀ (s : State) (place : Nat) (w : List UInt8),
    ∃ (a : Except Fault α) (s' : State) (place' : Nat) (w' : List UInt8),
      ∀ ⦃reader : Reader⦄, reader.At place w → ∃ reader',
        x { s with reader } = Writer.ended a { s' with reader := reader' } ∧ reader'.At place' w'

namespace Uncut

theorem quiet {x : Unmarshalling α} (h : Quiet x) : Uncut x := by
  intro s place w
  obtain ⟨a, s', hx⟩ := h s
  exact ⟨a, s', place, w, fun reader hr => ⟨reader, hx reader, hr⟩⟩

theorem bind {x : Unmarshalling α} {f : α → Unmarshalling β} (hx : Uncut x)
    (hf : ∀ a, Uncut (f a)) : Uncut (x >>= f) := by
  intro s place w
  obtain ⟨a, s1, place1, w1, h1⟩ := hx s place w
  cases a with
  | error e =>
    refine ⟨.error e, s1, place1, w1, fun reader hr => ?_⟩
    obtain ⟨r1, e1, hr1⟩ := h1 hr
    exact ⟨r1, bind_of_error e1 f, hr1⟩
  | ok a =>
    obtain ⟨b, s2, place2, w2, h2⟩ := hf a s1 place1 w1
    refine ⟨b, s2, place2, w2, fun reader hr => ?_⟩
    obtain ⟨r1, e1, hr1⟩ := h1 hr
    obtain ⟨r2, e2, hr2⟩ := h2 hr1
    exact ⟨r2, (bind_of_ok e1 f).trans e2, hr2⟩

/-- An action that depends on what it sees in the state, or on what is left of the message. -/
theorem see {γ : Type} {g : State → γ} {f : γ → Unmarshalling α} (hf : ∀ c, Uncut (f c))
    (hg : ∀ (s : State) (place : Nat) (w : List UInt8), ∃ c, ∀ reader : Reader, reader.At place w →
      g { s with reader } = c) :
    Uncut (get >>= fun s => f (g s)) := by
  intro s place w
  obtain ⟨c, hc⟩ := hg s place w
  obtain ⟨a, s', place', w', h⟩ := hf c s place w
  refine ⟨a, s', place', w', fun reader hr => ?_⟩
  obtain ⟨r', e, hr'⟩ := h hr
  have hget : (get : Unmarshalling State) { s with reader }
      = .ok { s with reader } { s with reader } := rfl
  exact ⟨r', by rw [bind_of_ok hget, hc reader hr]; exact e, hr'⟩

theorem fetch {x : Fetch α} (hx : Reader.Uncut x) : Uncut (fetch x) := by
  intro s place w
  obtain ⟨a, place', w', h⟩ := hx place w
  refine ⟨a, s, place', w', fun reader hr => ?_⟩
  obtain ⟨r', e, hr'⟩ := h hr
  refine ⟨r', ?_, hr'⟩
  unfold Unmarshal.fetch onPart
  rw [show x ({ s with reader } : State).reader = _ from e]
  cases a <;> rfl

end Uncut

theorem lifts_uncut : Lifts Reader.Uncut Uncut where
  toComposes := Reader.composes_uncut
  quiet := .quiet
  fetch := .fetch
  after := .bind
  see h hg := .see h fun s _ _ => ⟨_, fun reader _ => hg s reader⟩

/-- The steps of reading do not see the cuts. -/
theorem composes_uncut (env : Env) : ComposesSteps env (fun _ => True) Uncut :=
  .of_relates (lifts_uncut.relates env) (fun _ => .quiet (.modify fun _ _ => rfl))
    fun h => .see h fun _ _ w => ⟨w.length, fun _ hr => congrArg List.length hr.rest⟩

end Unmarshal

/-! ### Machines -/

namespace Machine

/-- **What is read of a message does not depend on how it is cut**: from any two transports that
never fail and hold the same bytes, in whatever chunks, empty ones included, it gives the same
values or the same fault, and leaves the same behind. -/
theorem unmarshal_recut (m : Machine) (world : Surroundings) (offset : Nat) (params : List Value)
    {source source' : Source} (hs : source.Faultless) (hs' : source'.Faultless)
    (h : source.bytes = source'.bytes) :
    let o := m.unmarshal world offset params source
    let o' := m.unmarshal world offset params source'
    o.result = o'.result ∧ o.machine = o'.machine ∧ o.surroundings = o'.surroundings := by
  have hat : ∀ {source : Source}, source.Faultless → ({ source } : Reader).At 0 source.bytes :=
    fun hs => ⟨rfl, rfl, hs⟩
  obtain ⟨a, s, place, w, hrun⟩ :=
    (Unmarshal.composes_uncut { m.startOperation with }).walks.getParameters offset params
      { world with reader := { source } } 0 source.bytes
  obtain ⟨r, e, -⟩ := hrun (hat hs)
  obtain ⟨r', e', -⟩ := hrun (h ▸ hat hs')
  unfold unmarshal
  dsimp only at e e' ⊢
  rw [e, e']
  cases a <;> exact ⟨rfl, rfl, rfl⟩

/-- A vector whose only parameter list, at 12, has a byte and a long. -/
def byteLongVector : TypeVector where
  bytes := #[8, 0, 10, 0, 1, 255, 255, 255, 0, 0, 0, 0, 2, 0, 0, 0, 0, 0, 0, 0, 2, 254, 255, 255,
    1, 0, 0, 0, 9, 254]
  order := .little
  minor := 10

/-- A byte, its padding and a long, with a cut in the padding and two in the long. -/
theorem unmarshal_recut_byteLong :
    let m : Machine := { interface := { vector := byteLongVector } }
    let o := m.unmarshal {} 12 [.void, .void] (.ofChunks [[5, 0], [], [0, 0, 4], [3], [2, 1]])
    let o' := m.unmarshal {} 12 [.void, .void] (.ofChunks [[5, 0, 0, 0, 4, 3, 2, 1]])
    o.result = .ok [.byte 5, .long 0x01020304] ∧ o.result = o'.result ∧ o.machine = o'.machine ∧
      o.surroundings = o'.surroundings :=
  ⟨by decide +kernel,
    unmarshal_recut { interface := { vector := byteLongVector } } {} 12 [.void, .void]
      (Source.faultless_ofChunks _) (Source.faultless_ofChunks _)
      (by simp only [Source.bytes_ofChunks]; rfl)⟩

end Machine

end Ndr
