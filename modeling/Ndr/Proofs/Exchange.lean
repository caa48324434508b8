import Ndr.Machine
import Ndr.Proofs.Unmarshal.Composition
import Ndr.Proofs.Unmarshal.Quiet

/-!
What becomes of the chunks that a transport delivers. A reader always holds one buffer: at first an empty
one of its own, then what it received and did not read yet. Every chunk that comes in is exchanged for one
that goes back, and in the end the reader gives back what it holds. So a transport gets one buffer more
than it delivered, the first of them empty, however the message is cut and however its reading ends.
-/

namespace Ndr

/-- The bytes of a chunk that was delivered. -/
def Delivery.chunk? : Delivery → Option (List UInt8)
  | .chunk bytes => some bytes
  | .fault _ => none

/-- The chunks among deliveries, in order. -/
def chunksOf (ds : List Delivery) : List (List UInt8) := ds.filterMap Delivery.chunk?

theorem chunksOf_concat_chunk (ds : List Delivery) (bytes : List UInt8) :
    chunksOf (ds ++ [.chunk bytes]) = chunksOf ds ++ [bytes] := List.filterMap_append

theorem chunksOf_concat_fault (ds : List Delivery) (e : Fault) :
    chunksOf (ds ++ [.fault e]) = chunksOf ds := by simp [chunksOf, Delivery.chunk?]

/-- What goes back for a chunk: a buffer of which nothing is left, or the chunk itself, where its bytes
were joined to others. -/
def Exchanged (chunk back : List UInt8) : Prop := back = [] ∨ back = chunk

namespace Reader

variable {start : Source} {taken : List Delivery} {back : List (List UInt8)} {r : Reader}

/-! ### The account of a reader -/

/-- The deliveries that a reader took since `start`, and the buffers that it gave back for the chunks
among them. -/
structure Account (start : Source) (taken : List Delivery) (back : List (List UInt8)) (r : Reader) :
    Prop where
  pending : start.pending = taken ++ r.source.pending
  released : r.source.released = back.reverse ++ start.released
  exchanged : List.Forall₂ Exchanged (chunksOf taken) back
  /-- Ahead of the first chunk the reader holds nothing. -/
  first : ∀ b ∈ back.head?, b = []
  /-- The reader holds the end of what it received. -/
  held : r.current <:+ (chunksOf taken).flatten
  /-- Every call was answered by a delivery, as long as there were any. -/
  calls : start.receives + taken.length ≤ r.source.receives ∧
    (r.source.pending ≠ [] → r.source.receives = start.receives + taken.length)

namespace Account

/-- Ahead of the first chunk nothing is held. -/
theorem current_eq_nil (h : Account start taken [] r) : r.current = [] := by
  have hchunks : chunksOf taken = [] := List.forall₂_nil_right_iff.1 h.exchanged
  exact List.suffix_nil.1 (by simpa [hchunks] using h.held)

theorem new (start : Source) : Account start [] [] { source := start } where
  pending := rfl
  released := rfl
  exchanged := .nil
  first := by simp
  held := List.nil_suffix
  calls := ⟨Nat.le_refl _, fun _ => rfl⟩

/-- Reading takes no part in it. -/
theorem read (h : Account start taken back r) (n position : Nat) :
    Account start taken back { r with current := r.current.drop n, position } :=
  { h with held := (List.drop_suffix n _).trans h.held }

/-- A chunk comes in, and a buffer goes back. -/
theorem take {bytes : List UInt8} {rest : List Delivery} (h : Account start taken back r)
    (hr : r.source.pending = .chunk bytes :: rest) :
    Account start (taken ++ [.chunk bytes])
      (back ++ [if r.current.isEmpty then [] else bytes]) (r.take bytes rest) where
  pending := by rw [h.pending, hr, List.append_assoc]; rfl
  released := by rw [List.reverse_concat, List.cons_append, ← h.released]; rfl
  exchanged := by
    rw [chunksOf_concat_chunk]
    refine List.rel_append h.exchanged (.cons ?_ .nil)
    split
    · exact .inl rfl
    · exact .inr rfl
  first := by
    cases hback : back with
    | cons b bs => exact fun x hx => h.first x (by rw [hback]; exact hx)
    | nil =>
      subst hback
      simp [h.current_eq_nil]
  held := by
    obtain ⟨before, hbefore⟩ := h.held
    rw [chunksOf_concat_chunk, List.flatten_append, ← hbefore, List.append_assoc, List.flatten_singleton]
    exact List.suffix_append before (r.current ++ bytes)
  calls := by
    have hcalls := h.calls.2 (by rw [hr]; exact List.cons_ne_nil _ _)
    have hreceives : (r.take bytes rest).source.receives = r.source.receives + 1 := rfl
    rw [hreceives, hcalls, List.length_append, List.length_singleton]
    exact ⟨by omega, fun _ => by omega⟩

/-- The transport fails. -/
theorem fault {e : Fault} {rest : List Delivery} (h : Account start taken back r)
    (hr : r.source.pending = .fault e :: rest) :
    Account start (taken ++ [.fault e]) back
      { r with source := { r.source with pending := rest, receives := r.source.receives + 1 } } where
  pending := by rw [h.pending, hr, List.append_assoc]; rfl
  released := h.released
  exchanged := by rw [chunksOf_concat_fault]; exact h.exchanged
  first := h.first
  held := by rw [chunksOf_concat_fault]; exact h.held
  calls := by
    have hcalls := h.calls.2 (by rw [hr]; exact List.cons_ne_nil _ _)
    simp only [hcalls, List.length_append, List.length_singleton]
    exact ⟨by omega, fun _ => by omega⟩

/-- The transport has nothing more. -/
theorem exhausted (h : Account start taken back r) (hr : r.source.pending = []) :
    Account start taken back
      { r with source := { r.source with pending := [], receives := r.source.receives + 1 } } :=
  { h with
    pending := by rw [h.pending, hr]
    calls := ⟨Nat.le_succ_of_le h.calls.1, fun hne => absurd rfl hne⟩ }

/-- All that a transport got back in the end. -/
theorem finish (h : Account start taken back r) :
    r.finish.released = r.current :: (back.reverse ++ start.released) := by
  rw [← h.released]
  rfl

end Account

/-- A reader that kept an account. -/
def Accounted (start : Source) (r : Reader) : Prop := ∃ taken back, Account start taken back r

/-! ### Reading -/

/-- Chunks come in one after the other. -/
theorem accounted_ensureFrom {n : Nat} {ds : List Delivery} (h : Accounted start r)
    (hr : r.source.pending = ds) : Ends (Accounted start) (fun _ => True) (ensureFrom n ds r) := by
  obtain ⟨taken, back, h'⟩ := h
  induction ds generalizing r taken back with
  | nil =>
    unfold ensureFrom
    split
    · exact ⟨⟨taken, back, h'⟩, trivial⟩
    · exact ⟨taken, back, h'.exhausted hr⟩
  | cons d ds ih =>
    cases d with
    | chunk bytes =>
      unfold ensureFrom
      split
      · exact ⟨⟨taken, back, h'⟩, trivial⟩
      · exact ih rfl _ _ (h'.take hr)
    | fault e =>
      unfold ensureFrom
      split
      · exact ⟨⟨taken, back, h'⟩, trivial⟩
      · exact ⟨_, _, h'.fault hr⟩

theorem keeps_accounted_ensure (n : Nat) : Keeps (Accounted start) (fun _ => True) (ensure n) :=
  fun _ h => accounted_ensureFrom h rfl

theorem composes_accounted (start : Source) :
    Reader.Composes (Keeps (Accounted start) fun _ => True) := by
  refine composes_keeps keeps_accounted_ensure fun r n position h => ?_
  obtain ⟨taken, back, h⟩ := h
  exact ⟨taken, back, h.read n position⟩

end Reader

namespace Unmarshal

/-- The account is kept through a whole operation. -/
theorem keeps_accounted (env : Env) (start : Source) (offset : Nat) (params : List Value) :
    Keeps (fun s : State => s.reader.Accounted start) (fun _ => True)
      (getParameters env offset params) :=
  have hlifts := lifts_keeps (Reader.composes_accounted start)
  (ComposesSteps.of_relates (hlifts.relates env) (fun _ => hlifts.quiet (.modify fun _ _ => rfl))
    fun hf => Keeps.get.bind fun _ _ => hf _).walks.getParameters offset params

end Unmarshal

/-! ### Machines -/

namespace Machine

variable (m : Machine) (world : Surroundings) (offset : Nat) (params : List Value) (source : Source)

/-- An operation keeps an account to its end, and beyond a fault. -/
theorem unmarshal_account : ∃ taken back r,
    (m.unmarshal world offset params source).transport = r.finish ∧
      Reader.Account source taken back r := by
  have hends := Unmarshal.keeps_accounted { m.startOperation with } source offset params
    { world with reader := { source } } ⟨[], [], .new source⟩
  unfold unmarshal
  dsimp only
  split
  · rename_i e
    rw [e] at hends
    obtain ⟨⟨taken, back, h⟩, -⟩ := hends
    exact ⟨taken, back, _, rfl, h⟩
  · rename_i e
    rw [e] at hends
    obtain ⟨taken, back, h⟩ := hends
    exact ⟨taken, back, _, rfl, h⟩

/-- **Every chunk is exchanged for one that goes back**, in turn, and what the reader holds in the end, the
rest of what it received, goes back as well. The transport was called once for each delivery, and oftener
only when it had no more. -/
theorem unmarshal_exchanges :
    let transport := (m.unmarshal world offset params source).transport
    ∃ taken back last, source.pending = taken ++ transport.pending ∧
      transport.released = last :: (back.reverse ++ source.released) ∧
      List.Forall₂ Exchanged (chunksOf taken) back ∧ last <:+ (chunksOf taken).flatten ∧
      source.receives + taken.length ≤ transport.receives ∧
      (transport.pending ≠ [] → transport.receives = source.receives + taken.length) := by
  obtain ⟨taken, back, r, htransport, h⟩ := m.unmarshal_account world offset params source
  rw [htransport]
  exact ⟨taken, back, r.current, h.pending, h.finish, h.exchanged, h.held, h.calls⟩

/-- **A transport gets back one buffer more than it delivered**, however its message is cut and however its
reading ends. The first of them is empty and was never delivered: it is the one that a reader begins with. -/
theorem unmarshal_gives_back :
    let transport := (m.unmarshal world offset params source).transport
    ∃ (taken : List Delivery) (given : List (List UInt8)),
      source.pending = taken ++ transport.pending ∧
      transport.released = given.reverse ++ source.released ∧
      given.length = (chunksOf taken).length + 1 ∧ given.head? = some [] := by
  obtain ⟨taken, back, r, htransport, h⟩ := m.unmarshal_account world offset params source
  rw [htransport]
  have hlength : (chunksOf taken).length = back.length := h.exchanged.length_eq
  refine ⟨taken, back ++ [r.current], h.pending, by rw [h.finish, List.reverse_concat]; rfl,
    by rw [List.length_append, hlength]; rfl, ?_⟩
  -- Without a chunk what goes back is what the reader holds, and that is nothing yet.
  cases hback : back with
  | nil =>
    subst hback
    rw [h.current_eq_nil]
    rfl
  | cons b bs =>
    have hb : b = [] := h.first b (by rw [hback]; rfl)
    rw [hb]
    rfl

/-- A vector whose only parameter list, at 12, has a long. -/
def longVector : TypeVector where
  bytes := #[8, 0, 10, 0, 1, 255, 255, 255, 0, 0, 0, 0, 1, 0, 0, 0, 0, 0, 0, 0, 9, 254]
  order := .little
  minor := 10

/-- A long in two chunks, the latter with one byte too many: three buffers go back. -/
example : (Machine.unmarshal { interface := { vector := longVector } } {} 12 [.void]
    { pending := [.chunk [5, 0], .chunk [0, 0, 6]] }).transport.released = [[6], [0, 0, 6], []] := by
  decide +kernel

end Machine

end Ndr
