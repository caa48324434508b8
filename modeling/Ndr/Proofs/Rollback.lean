import Ndr.Proofs.Unmarshal.Invariant

/-!
A message that cannot be read leaves nothing behind: every cell and every context that its reading
made is listed while it is read, and what is listed is what has to be taken back.
-/

namespace Ndr

/-! ### Taking cells back -/

namespace Heap

theorem getElem?_of_isLive {h : Heap} {c : CellId} (hl : h.isLive c) :
    ∃ v, h.cells[c]? = some (some v) := by
  obtain ⟨v, hv⟩ := isLive_iff.1 hl
  exact ⟨v, Option.join_eq_some_iff.1 hv⟩

theorem frees_release {h : Heap} {c : CellId} (hl : h.isLive c) :
    (h.release c).frees = h.frees + 1 := by
  obtain ⟨v, hc⟩ := getElem?_of_isLive hl
  unfold release
  split
  · rfl
  · rename_i hn
    exact absurd hc (hn v)

/-- Freeing different live cells counts each of them. -/
theorem frees_release_all {cs : List CellId} {h : Heap} (hn : cs.Nodup)
    (hl : ∀ c ∈ cs, h.isLive c) : (cs.foldl release h).frees = h.frees + cs.length := by
  induction cs generalizing h with
  | nil => rfl
  | cons c cs ih =>
    obtain ⟨hc, hn⟩ := List.nodup_cons.1 hn
    have hl' : ∀ d ∈ cs, (h.release c).isLive d := by
      intro d hd
      have hne : d ≠ c := fun e => hc (e ▸ hd)
      have := hl d (List.mem_cons_of_mem _ hd)
      rwa [isLive, load?_release, if_neg hne]
    rw [List.foldl_cons, ih hn hl', frees_release (hl c List.mem_cons_self), List.length_cons]
    omega

end Heap

/-! ### Taking contexts back -/

namespace Registry

theorem entries_destroy_all (hs : List ContextHandle) (r : Registry) :
    (hs.foldl destroy r).entries = r.entries.filter (·.1 ∉ hs) := by
  induction hs generalizing r with
  | nil => exact (List.filter_eq_self.2 (by simp)).symm
  | cons h hs ih =>
    rw [List.foldl_cons, ih]
    simp only [destroy, List.filter_filter]
    congr 1
    funext e
    by_cases he : e.1 = h <;> simp [he]

/-- A registry is another one with the contexts `adopted` put on top, under handles that the
other never gave out. -/
structure Extends (r r' : Registry) (adopted : List ContextHandle) : Prop where
  entries : ∃ new, r'.entries = new ++ r.entries ∧ new.map (·.1) = adopted
  fresh : ∀ h ∈ adopted, r.last < h
  last : r.last ≤ r'.last

theorem Extends.refl (r : Registry) : Extends r r [] := ⟨⟨[], rfl, rfl⟩, by simp, Nat.le_refl _⟩

theorem Extends.adopt {r r' : Registry} {adopted : List ContextHandle} (h : Extends r r' adopted)
    {u : Uuid} (hu : r'.resolve? u = none) :
    Extends r (r'.adopt u).2 ((r'.adopt u).1 :: adopted) := by
  obtain ⟨new, he, ha⟩ := h.entries
  have hadopt : r'.adopt u = r'.insert u := by simp [Registry.adopt, hu]
  rw [hadopt]
  refine ⟨⟨(r'.last + 1, u) :: new, by simp [insert, he], by simp [insert, ha]⟩, ?_, ?_⟩
  · intro k hk
    rcases List.mem_cons.1 hk with rfl | hk
    · exact Nat.lt_succ_of_le h.last
    · exact h.fresh k hk
  · exact Nat.le_succ_of_le h.last

/-- Without the contexts put on top the old ones are left. -/
theorem Extends.entries_destroy {r r' : Registry} {adopted : List ContextHandle}
    (h : Extends r r' adopted) : (adopted.reverse.foldl destroy r').entries = r.entries := by
  obtain ⟨new, he, ha⟩ := h.entries
  have hnew : new.filter (·.1 ∉ adopted.reverse) = [] := by
    rw [List.filter_eq_nil_iff]
    intro e hm
    have : e.1 ∈ adopted := ha ▸ List.mem_map_of_mem hm
    simpa using this
  have hold : r.entries.filter (·.1 ∉ adopted.reverse) = r.entries := by
    rw [List.filter_eq_self]
    intro e hm
    have : e.1 ∉ adopted := fun hx => Nat.not_lt.2 (r.le_last e hm) (h.fresh _ hx)
    simpa using this
  rw [entries_destroy_all, he, List.filter_append, hnew, hold, List.nil_append]

end Registry

namespace Unmarshal

/-! ### What can be taken back -/

/-- All that reading did to the heap `h` and the registry `r` is listed: new cells, which hold
every pointee that is still to be filled, and new contexts. -/
structure Undoable (h : Heap) (r : Option Registry) (s : State) : Prop where
  size : s.heap.cells.size = h.cells.size + s.allocated.length
  old : ∀ c < h.cells.size, s.heap.cells[c]? = h.cells[c]?
  made : ∀ c ∈ s.allocated, h.cells.size ≤ c ∧ s.heap.isLive c
  listed : ∀ c, h.cells.size ≤ c → c < s.heap.cells.size → c ∈ s.allocated
  nodup : s.allocated.Nodup
  frees : s.heap.frees = h.frees
  deferred : ∀ d ∈ s.deferred, h.cells.size ≤ d.cell
  contexts : match r, s.contexts with
    | none, none => True
    | some r, some r' => r.Extends r' s.adopted
    | _, _ => False

namespace Undoable

variable {h : Heap} {r : Option Registry} {s : State}

/-- At the start nothing is listed. -/
theorem start (reader : Reader) (pipes : Array Pipe) (calls : List Routine.Call) :
    Undoable h r { reader, heap := h, contexts := r, pipes, calls } where
  size := rfl
  old _ _ := rfl
  made := by simp
  listed _ h1 h2 := absurd h1 (Nat.not_le.2 h2)
  nodup := List.nodup_nil
  frees := rfl
  deferred := by simp
  contexts := by cases r <;> simp [Registry.Extends.refl]

/-- A new cell is listed. -/
theorem allocate (hs : Undoable h r s) :
    Undoable h r { s with
      heap := s.heap.append .void
      allocated := s.heap.allocations :: s.allocated } where
  size := by simp [Heap.append, hs.size]; omega
  old c hc := by
    have : c ≠ s.heap.cells.size := by have := hs.size; omega
    simpa [Heap.append, Array.getElem?_push, this] using hs.old c hc
  made c hc := by
    have hsize := hs.size
    rcases List.mem_cons.1 hc with rfl | hc
    · exact ⟨by simp only [Heap.allocations]; omega, by simp [Heap.isLive, Heap.load?_append]⟩
    · obtain ⟨hle, hl⟩ := hs.made c hc
      refine ⟨hle, ?_⟩
      rw [Heap.isLive, Heap.load?_append]
      split
      · rfl
      · exact hl
  listed c h1 h2 := by
    have h2 : c < s.heap.cells.size + 1 := by simpa [Heap.append] using h2
    rcases Nat.lt_succ_iff_lt_or_eq.1 h2 with h2 | h2
    · exact List.mem_cons_of_mem _ (hs.listed c h1 h2)
    · exact h2 ▸ List.mem_cons_self
  nodup := by
    refine List.nodup_cons.2 ⟨fun hm => ?_, hs.nodup⟩
    obtain ⟨v, hv⟩ := Heap.isLive_iff.1 (hs.made _ hm).2
    exact Nat.lt_irrefl _ (Heap.lt_of_load? hv)
  frees := by simpa [Heap.append] using hs.frees
  deferred := hs.deferred
  contexts := hs.contexts

/-- Filling a new cell changes no old one. -/
theorem put (hs : Undoable h r s) {c : CellId} (hc : h.cells.size ≤ c) (hl : s.heap.isLive c)
    (v : Value) : Undoable h r { s with heap := s.heap.put c v } where
  size := by
    rw [Heap.cells_put, if_pos hl]
    simpa using hs.size
  old d hd := by
    have : c ≠ d := Nat.ne_of_gt (Nat.lt_of_lt_of_le hd hc)
    rw [Heap.cells_put, if_pos hl, Array.getElem?_setIfInBounds_ne this]
    exact hs.old d hd
  made d hd := by
    refine ⟨(hs.made d hd).1, ?_⟩
    rw [Heap.isLive, Heap.load?_put hl]
    split
    · rfl
    · exact (hs.made d hd).2
  listed d h1 h2 := by
    rw [Heap.cells_put, if_pos hl] at h2
    exact hs.listed d h1 (by simpa using h2)
  nodup := hs.nodup
  frees := by
    rw [Heap.frees_eq, Heap.cells_put, if_pos hl]
    obtain ⟨w, hw⟩ := Heap.getElem?_of_isLive hl
    rw [Heap.countP_isNone_set hw, ← Heap.frees_eq]
    simpa using hs.frees
  deferred := hs.deferred
  contexts := hs.contexts

/-- A change of what is neither heap nor registry. -/
theorem congr {t : State} (hs : Undoable h r s)
    (he : (t.heap, t.allocated, t.deferred, t.contexts, t.adopted)
      = (s.heap, s.allocated, s.deferred, s.contexts, s.adopted)) : Undoable h r t := by
  simp only [Prod.mk.injEq] at he
  obtain ⟨hheap, hallocated, hdeferred, hcontexts, hadopted⟩ := he
  constructor
  · rw [hheap, hallocated]
    exact hs.size
  · rw [hheap]
    exact hs.old
  · rw [hheap, hallocated]
    exact hs.made
  · rw [hheap, hallocated]
    exact hs.listed
  · rw [hallocated]
    exact hs.nodup
  · rw [hheap]
    exact hs.frees
  · rw [hdeferred]
    exact hs.deferred
  · rw [hcontexts, hadopted]
    exact hs.contexts

/-- A context for a new token is listed. -/
theorem adopt (hs : Undoable h r s) {registry : Registry} (hr : s.contexts = some registry)
    {u : Uuid} (hu : registry.resolve? u = none) :
    Undoable h r { s with
      contexts := some (registry.adopt u).2
      adopted := (registry.adopt u).1 :: s.adopted } where
  size := hs.size
  old := hs.old
  made := hs.made
  listed := hs.listed
  nodup := hs.nodup
  frees := hs.frees
  deferred := hs.deferred
  contexts := by
    have := hs.contexts
    rw [hr] at this
    cases r with
    | none => exact this
    | some r => exact this.adopt hu

end Undoable

/-! ### Steps -/

section Steps

variable {h : Heap} {r : Option Registry}

theorem keeps_allocate : Keeps (Undoable h r) (h.cells.size ≤ ·) allocate := by
  unfold allocate
  refine Keeps.get.bind fun _ _ => (Keeps.lift _).bind fun _ _ => ?_
  intro s hs
  refine ⟨hs.allocate, ?_⟩
  have := hs.size
  show h.cells.size ≤ s.heap.cells.size
  omega

theorem holds_store {c : CellId} (hc : h.cells.size ≤ c) (v : Value) :
    Holds (Undoable h r) (store c v) := by
  intro s hs
  by_cases hl : s.heap.isLive c
  · have : store c v s = .ok ⟨⟩ { s with heap := s.heap.put c v } := by
      show (if s.heap.isLive c then _ else _ : Unmarshalling Unit) s = _
      rw [if_pos hl]
      rfl
    rw [this]
    exact ⟨hs.put hc hl v, trivial⟩
  · have : store c v s = .error (.invalidCell c) s := by
      show (if s.heap.isLive c then _ else _ : Unmarshalling Unit) s = _
      rw [if_neg hl]
      rfl
    rw [this]
    exact hs

theorem holds_fetch {α : Type} (x : Fetch α) : Holds (Undoable h r) (fetch x) :=
  Keeps.onPart (fun _ _ hs => hs.congr rfl) x

/-- What is put off is to be filled into new cells. -/
theorem keeps_takeDeferred :
    Keeps (Undoable h r) (fun ds => ∀ d ∈ ds, h.cells.size ≤ d.cell) takeDeferred :=
  Keeps.modifyGet fun _ hs =>
    ⟨{ hs with deferred := by simp }, fun d hd => hs.deferred d (List.mem_reverse.1 hd)⟩

/-- A client that gets to hold a context lists it. -/
theorem undoable_adoptContext {s : State} (hs : Undoable h r s) {registry : Registry}
    (hr : s.contexts = some registry) (held : Option ContextHandle) (u : Uuid) :
    Ends (Undoable h r) (fun _ => True) (adoptContext registry held u s) := by
  by_cases hn : u = .null
  · have : adoptContext registry held u s
        = .ok none { s with closed := held.toList ++ s.closed } := by
      unfold adoptContext
      rw [if_pos hn]
      rfl
    rw [this]
    exact ⟨hs.congr rfl, trivial⟩
  · cases hu : registry.resolve? u with
    | none =>
      have : adoptContext registry held u s = .ok (some (registry.adopt u).1) { s with
          contexts := some (registry.adopt u).2
          adopted := (registry.adopt u).1 :: s.adopted } := by
        simp only [adoptContext, if_neg hn, hu, Option.isNone_none, if_true]
        rfl
      rw [this]
      exact ⟨hs.adopt hr hu, trivial⟩
    | some c =>
      have : adoptContext registry held u s = .ok (some (registry.adopt u).1) s := by
        simp only [adoptContext, if_neg hn, hu, Option.isNone_some, Bool.false_eq_true, if_false]
        rfl
      rw [this]
      exact ⟨hs, trivial⟩

/-- A context is made in the registry that was there before its token was read. -/
theorem holds_getContext (env : Env) (direction : ContextDirection) (current : Value) :
    Holds (Undoable h r) (getContext env direction current) := by
  intro s hs
  rw [getContext_eq, show (get >>= fun s => contextIn env direction current s.contexts) s
    = contextIn env direction current s.contexts s from rfl]
  cases hc : s.contexts with
  | none => exact hs
  | some registry =>
    refine (holds_fetch _ s hs).bind fun u t he ht _ => ?_
    obtain ⟨reader, -, rfl⟩ := onPart_eq_ok.1 he
    cases env.side with
    | server => exact ((Keeps.lift _).bind fun _ _ => .pure trivial) _ ht
    | client => exact (undoable_adoptContext ht hc _ _).bind fun c _ _ ht _ => ⟨ht, trivial⟩

theorem holds_register (id : Nat) (c : CellId) : Holds (Undoable h r) (register id c) :=
  Keeps.get.bind fun _ _ => (Keeps.lift _).bind fun _ _ => Keeps.modify fun _ hs => hs.congr rfl

theorem holds_defer {d : Deferred ScopeId} (hd : h.cells.size ≤ d.cell) :
    Holds (Undoable h r) (defer d) :=
  Keeps.modify fun _ hs => { hs with deferred := List.forall_mem_cons.2 ⟨hd, hs.deferred⟩ }

/-- Reading lists all it does to the heap and to the registry. -/
theorem composes_undoable (env : Env) :
    ComposesSteps env (h.cells.size ≤ ·) (Holds (Undoable h r)) :=
  composesSteps_of_frame
    (fun _ _ he hs => hs.congr (by simp only [Prod.mk.injEq] at he ⊢; tauto))
    (holds_getContext env) keeps_allocate holds_store holds_register holds_defer keeps_takeDeferred

end Steps

end Unmarshal

/-! ### A failed operation -/

namespace Machine

variable {h : Heap} {r : Option Registry} {s : Unmarshal.State}

/-- Taking back frees the new cells, and leaves the old ones as they were. -/
theorem heap_rollback (hs : Unmarshal.Undoable h r s) :
    (rollback s).heap.frees = h.frees + s.allocated.length ∧
      (rollback s).heap.allocations = h.allocations + s.allocated.length ∧
      (∀ c < h.allocations, (rollback s).heap.cells[c]? = h.cells[c]?) ∧
      ∀ c, h.allocations ≤ c → (rollback s).heap.load? c = none := by
  have hf := Heap.frees_release_all hs.nodup fun c hc => (hs.made c hc).2
  refine ⟨by rw [← hs.frees]; exact hf, ?_, ?_, ?_⟩
  · exact (Heap.size_release_all _ _).trans hs.size
  · intro c hc
    have hm : c ∉ s.allocated := fun hm => Nat.not_le.2 hc (hs.made c hm).1
    exact (Heap.getElem?_release_all hm _).trans (hs.old c hc)
  · intro c hc
    by_cases hm : c ∈ s.allocated
    · exact Heap.load?_release_all hm _
    · -- every cell from there on is listed, so this one is no cell at all
      have hn : ¬ c < s.heap.cells.size := fun hlt => hm (hs.listed c hc hlt)
      show (s.allocated.foldl Heap.release s.heap).cells[c]?.join = none
      rw [Heap.getElem?_release_all hm, Array.getElem?_eq_none (Nat.not_lt.1 hn)]
      rfl

/-- Taking back leaves the contexts that were there. -/
theorem contexts_rollback (hs : Unmarshal.Undoable h r s) :
    (rollback s).contexts.map (·.entries) = r.map (·.entries) := by
  have := hs.contexts
  unfold rollback
  cases hr : r with
  | none =>
    rw [hr] at this
    cases hc : s.contexts with
    | none => rfl
    | some r' => rw [hc] at this; exact this.elim
  | some r =>
    rw [hr] at this
    cases hc : s.contexts with
    | none => rw [hc] at this; exact this.elim
    | some r' =>
      rw [hc] at this
      exact congrArg some this.entries_destroy

/-- What a failed operation leaves is what taking back leaves. -/
theorem unmarshal_eq_error {m : Machine} {world : Surroundings} {offset : Nat}
    {params : List Value} {source : Source} {e : Fault}
    (he : (m.unmarshal world offset params source).result = .error e) :
    ∃ s, Unmarshal.Undoable world.heap world.contexts s ∧
      (m.unmarshal world offset params source).surroundings = rollback s ∧
      (m.unmarshal world offset params source).machine = m.startOperation.latch e := by
  have hkeep := (Unmarshal.composes_undoable { m.startOperation with } (h := world.heap)
    (r := world.contexts)).walks.getParameters offset params _
      (.start { source } world.pipes world.calls)
  unfold unmarshal at he ⊢
  dsimp only at he hkeep ⊢
  split at he
  · simp at he
  · rename_i f s hrun
    rw [hrun] at hkeep
    cases he
    exact ⟨s, hkeep, rfl, rfl⟩

/-- An operation of a machine left nothing behind, in the parameters of its caller and in what
surrounds it. -/
structure Undone (m : Machine) (world : Surroundings) (params : List Value)
    (o : Outcome Source (List Value)) : Prop where
  /-- The caller keeps its parameters. -/
  params : o.result.toOption.getD params = params
  /-- A live cell is live and holds what it held. -/
  live : ∀ c v, world.heap.load? c = some v → o.surroundings.heap.load? c = some v
  old : ∀ c < world.heap.allocations, o.surroundings.heap.cells[c]? = world.heap.cells[c]?
  /-- A cell that was made is freed. -/
  freed : ∀ c, world.heap.allocations ≤ c → c < o.surroundings.heap.allocations →
    o.surroundings.heap.cells[c]? = some none
  /-- As many cells were freed as were made. -/
  counts : ∃ n, o.surroundings.heap.allocations = world.heap.allocations + n ∧
    o.surroundings.heap.frees = world.heap.frees + n
  liveCount : o.surroundings.heap.live = world.heap.live
  /-- No node of the operation before was deleted. -/
  nodes : ∀ id c, m.nodes.cellOf? id = some c → world.heap.isLive c →
    o.surroundings.heap.isLive c
  tokens : o.surroundings.contexts.map Registry.token? = world.contexts.map Registry.token?
  handles : o.surroundings.contexts.map Registry.resolve? = world.contexts.map Registry.resolve?
  /-- No id stands for a cell. -/
  table : o.machine.nodes = {}

/-- **A message that cannot be read leaves nothing behind**, wherever its reading failed. -/
theorem unmarshal_error_undone (m : Machine) (world : Surroundings) (offset : Nat)
    (params : List Value) (source : Source) {e : Fault}
    (he : (m.unmarshal world offset params source).result = .error e) :
    m.Undone world params (m.unmarshal world offset params source) := by
  obtain ⟨s, hs, hw, hm⟩ := unmarshal_eq_error he
  obtain ⟨hf, ha, hold, hnew⟩ := heap_rollback hs
  have hload : ∀ c v, world.heap.load? c = some v → (rollback s).heap.load? c = some v := by
    intro c v hv
    rw [Heap.load?, hold c (Heap.lt_of_load? hv)]
    exact hv
  have hlookup : ∀ (α : Type) (f : List (ContextHandle × Uuid) → α),
      (rollback s).contexts.map (fun r => f r.entries) = world.contexts.map fun r => f r.entries := by
    intro α f
    simpa [Option.map_map, Function.comp_def] using congrArg (Option.map f) (contexts_rollback hs)
  rw [← hw] at hf ha hold hnew hload hlookup
  constructor
  · rw [he]
    rfl
  · exact hload
  · exact hold
  · intro c h1 h2
    have hn := hnew c h1
    rw [Heap.load?, Array.getElem?_eq_getElem h2] at hn
    rw [Array.getElem?_eq_getElem h2]
    exact congrArg some hn
  · exact ⟨s.allocated.length, ha, hf⟩
  · have h1 := (m.unmarshal world offset params source).surroundings.heap.live_add_frees
    have h2 := world.heap.live_add_frees
    omega
  · intro id c _ hl
    obtain ⟨v, hv⟩ := Heap.isLive_iff.1 hl
    exact Heap.isLive_iff.2 ⟨v, hload c v hv⟩
  · exact hlookup _ fun entries h => (entries.find? (·.1 == h)).map (·.2)
  · exact hlookup _ fun entries u => (entries.find? (·.2 == u)).map (·.1)
  · rw [hm]
    rfl

/-- A vector whose only parameter list, at 16, has a unique pointer to a long. -/
def longPointerVector : TypeVector where
  bytes := #[8, 0, 10, 0, 1, 255, 255, 255, 0, 0, 0, 0, 9, 254, 255, 255, 1, 0, 0, 0, 0, 0, 0, 0,
    30, 10, 255, 255, 12, 0, 0, 0, 254]
  order := .little
  minor := 10

/-- A message that ends between the id of a pointer and its pointee, beside a live cell. -/
theorem unmarshal_error_undone_truncated :
    let m : Machine := { interface := { vector := longPointerVector } }
    let world : Surroundings := { heap := ({} : Heap).append (.long 7) }
    let o := m.unmarshal world 16 [.void] (.ofBytes [1, 0, 0, 0])
    o.result = .error (.bufferUnderflow 4 0) ∧ m.Undone world [.void] o :=
  have he : (Machine.unmarshal { interface := { vector := longPointerVector } }
      { heap := ({} : Heap).append (.long 7) } 16 [.void] (.ofBytes [1, 0, 0, 0])).result
        = .error (.bufferUnderflow 4 0) := rfl
  ⟨he, unmarshal_error_undone _ _ _ _ _ he⟩

end Machine

end Ndr
