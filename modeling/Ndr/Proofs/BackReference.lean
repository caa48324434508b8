import Mathlib.Data.List.Forall2
import Ndr.Proofs.Unmarshal.Composition
import Ndr.Proofs.Unmarshal.Results
import Ndr.Value.Equality

/-!
Pointers and the cells they lead to: every pointer that is read leads to a cell that was filled
from the pointee of the first pointer with its id. The types of the two are not compared.
-/

namespace Ndr

namespace Unmarshal

variable {env : Env} {base : Nat} {ps : List Sighting} {walk last : Walk} {s t u : State}

/-! ### Keeping track of a pointer -/

/-- A pointer to a new cell, under an id that was not known before. -/
theorem Tracked.make (h : Tracked base s) {p : Sighting} (hc : s.heap.cells.size = p.cell)
    (hf : ∀ id, p.id = some id → s.nodes.cellOf? id = none)
    (hh : t.heap.cells.size = s.heap.cells.size + 1) (hp : t.sightings = p :: s.sightings)
    (hn : ∀ id, t.nodes.cellOf? id = if p.id = some id then some p.cell else s.nodes.cellOf? id)
    (hd : t.deferred = s.deferred) : Tracked base t := by
  have hold : ∀ q ∈ s.sightings, q.cell ≠ p.cell := fun q hq =>
    Nat.ne_of_lt (hc ▸ (h.range q hq).2)
  have hfirst : firstTo s.sightings p.cell = none := by
    simpa [firstTo] using fun q hq => hold q hq
  refine ⟨?_, ?_, ?_, ?_, ?_, ?_, ?_⟩
  · intro q hq
    rw [hp] at hq
    rcases List.mem_cons.1 hq with rfl | hq
    · rw [hh, ← hc]
      exact ⟨h.size, Nat.lt_succ_self _⟩
    · rw [hh]
      exact ⟨(h.range q hq).1, Nat.lt_succ_of_lt (h.range q hq).2⟩
  · intro q hq
    rw [hp] at hq ⊢
    rw [firstTo_cons]
    rcases List.mem_cons.1 hq with rfl | hq
    · exact ⟨q, by simp [hfirst], rfl, fun _ => rfl⟩
    · obtain ⟨r, hr, he⟩ := h.first q hq
      exact ⟨r, by rw [hr]; rfl, he⟩
  · intro q hq id hid
    rw [hp] at hq
    rw [hn]
    rcases List.mem_cons.1 hq with rfl | hq
    · rw [if_pos hid]
    · have hk := h.known q hq id hid
      rw [if_neg, hk]
      intro he
      rw [hf id he] at hk
      exact absurd hk (by simp)
  · intro id c hic
    rw [hn] at hic
    rw [hp]
    split at hic
    · rename_i he
      exact ⟨p, List.mem_cons_self, he, Option.some.inj hic⟩
    · obtain ⟨q, hq, he⟩ := h.node id c hic
      exact ⟨q, List.mem_cons_of_mem _ hq, he⟩
  · intro c h1 h2
    rw [hp]
    rcases Nat.lt_or_ge c s.heap.cells.size with hlt | hge
    · obtain ⟨q, hq, he⟩ := h.seen c h1 hlt
      exact ⟨q, List.mem_cons_of_mem _ hq, he⟩
    · exact ⟨p, List.mem_cons_self, Nat.le_antisymm (by omega) (by omega)⟩
  · have := h.size
    omega
  · intro d hd'
    rw [hd] at hd'
    obtain ⟨q, hq, he⟩ := h.deferred d hd'
    exact ⟨q, by rw [hp, firstTo_cons, hq]; rfl, he⟩

/-- A pointer with a known id. -/
theorem Tracked.again (h : Tracked base s) {p : Sighting} {id : Nat} (hi : p.id = some id)
    (hc : s.nodes.cellOf? id = some p.cell) :
    Tracked base { s with sightings := p :: s.sightings } := by
  obtain ⟨r, hr, hri, hrc⟩ := h.node id p.cell hc
  refine ⟨?_, ?_, ?_, ?_, ?_, h.size, ?_⟩
  · intro q hq
    rcases List.mem_cons.1 hq with rfl | hq
    · rw [← hrc]
      exact h.range r hr
    · exact h.range q hq
  · intro q hq
    dsimp only
    rw [firstTo_cons]
    rcases List.mem_cons.1 hq with rfl | hq
    · obtain ⟨f, hf, he, -⟩ := h.first r hr
      rw [hrc] at hf
      refine ⟨f, by rw [hf]; rfl, by rw [he, hri, hi], fun hn => ?_⟩
      rw [hi] at hn
      exact absurd hn (by simp)
    · obtain ⟨f, hf, he⟩ := h.first q hq
      exact ⟨f, by rw [hf]; rfl, he⟩
  · intro q hq id' hid'
    rcases List.mem_cons.1 hq with rfl | hq
    · rw [hi] at hid'
      exact Option.some.inj hid' ▸ hc
    · exact h.known q hq id' hid'
  · intro id' c hic
    obtain ⟨q, hq, he⟩ := h.node id' c hic
    exact ⟨q, List.mem_cons_of_mem _ hq, he⟩
  · intro c h1 h2
    obtain ⟨q, hq, he⟩ := h.seen c h1 h2
    exact ⟨q, List.mem_cons_of_mem _ hq, he⟩
  · intro d hd
    obtain ⟨q, hq, he⟩ := h.deferred d hd
    exact ⟨q, by dsimp only; rw [firstTo_cons, hq]; rfl, he⟩

/-- A pointee put off, for a cell whose first pointer has it. -/
theorem Tracked.defer (h : Tracked base s) {d : Deferred ScopeId} {p : Sighting}
    (hp : firstTo s.sightings d.cell = some p) (he : p.pointee = d.pointee) :
    Tracked base { s with deferred := d :: s.deferred } where
  range := h.range
  first := h.first
  known := h.known
  node := h.node
  seen := h.seen
  size := h.size
  deferred e hm := by
    rcases List.mem_cons.1 hm with rfl | hm
    · exact ⟨p, hp, he⟩
    · exact h.deferred e hm

/-! ### Pointers -/

/-- A walk that reads values of its descriptor. -/
abbrev ReadsTypes (env : Env) (base : Nat) (ps : List Sighting) (walk : Walk) : Prop :=
  ∀ d site, Reads env base ps (ReadAs env ps d) (walk d site)

section Pointers

variable (hw : ReadsTypes env base ps walk) {site : Site ScopeId}

include hw

theorem getPointee_grows {c : CellId} {pointee : Nat} {u : Unit}
    (e : getPointee env walk c pointee site s = .ok u t) : s.sightings <:+ t.sightings := by
  unfold getPointee at e
  obtain ⟨d, s1, h1, e1⟩ := bind_eq_ok.1 e
  obtain ⟨v, s2, h2, e2⟩ := bind_eq_ok.1 e1
  obtain ⟨-, rfl⟩ := lift_eq_ok.1 h1
  have h3 : s.sightings <:+ s2.sightings := (hw d _).grows h2
  obtain ⟨-, rfl⟩ := store_eq_ok.1 e2
  exact h3

/-- The contents of a cell, where they are read under the pointee of its first pointer. -/
theorem getPointee_step {c : CellId} {p : Sighting} {u : Unit} (hs : Tracked base s)
    (hp : firstTo s.sightings c = some p) (e : getPointee env walk c p.pointee site s = .ok u t)
    (ht : t.sightings <:+ ps) : Tracked base t ∧ Step (Fits env ps) (· = c) s t := by
  have hps : s.sightings <:+ ps := (getPointee_grows hw e).trans ht
  unfold getPointee at e
  obtain ⟨d, s1, h1, e1⟩ := bind_eq_ok.1 e
  obtain ⟨v, s2, h2, e2⟩ := bind_eq_ok.1 e1
  obtain ⟨hd, rfl⟩ := lift_eq_ok.1 h1
  obtain ⟨hl, rfl⟩ := store_eq_ok.1 e2
  obtain ⟨ht2, hstep, hv⟩ := (hw d _).step hs h2 ht
  have hstore : Step (Fits env ps) (· = c) s2 _ :=
    Step.store hl ⟨p, d, firstTo_of_suffix hps hp, hd, hv⟩
  have hsize := Heap.size_put s2.heap c v
  refine ⟨?_, (hstep.trans hstore).congr fun _ => .inr⟩
  refine ⟨?_, ht2.first, ht2.known, ht2.node, ?_, ?_, ht2.deferred⟩
  · dsimp only
    rw [hsize]
    exact ht2.range
  · dsimp only
    rw [hsize]
    exact ht2.seen
  · dsimp only
    rw [hsize]
    exact ht2.size

theorem placePointee_grows {c : CellId} {pointee : Nat} {u : Unit}
    (e : placePointee env walk c pointee site s = .ok u t) : s.sightings <:+ t.sightings := by
  unfold placePointee at e
  split at e
  · exact defer_eq_ok.1 e ▸ List.suffix_rfl
  · exact getPointee_grows hw e

/-- A pointee that is read or put off fills or puts off the cell made for it. -/
theorem placePointee_step {p : Sighting} {u : Unit} (hs : Tracked base t)
    (hh : t.heap = s.heap.append .void) (hc : s.heap.cells.size = p.cell)
    (hd : t.deferred = s.deferred) (hp : firstTo t.sightings p.cell = some p) {t' : State}
    (e : placePointee env walk p.cell p.pointee site t = .ok u t')
    (ht : t'.sightings <:+ ps) : Tracked base t' ∧ Step (Fits env ps) None s t' := by
  unfold placePointee at e
  split at e
  · obtain rfl := defer_eq_ok.1 e
    exact ⟨hs.defer hp rfl, Step.defer_fresh hh hc hd rfl⟩
  · obtain ⟨ht', hstep⟩ := getPointee_step hw hs hp e ht
    exact ⟨ht', Step.fill_fresh hh hc hd hstep⟩

/-- A new cell for a pointer, and its contents. -/
theorem reads_make (id : Option Nat) {pointee : Nat} (before : CellId → Unmarshalling PUnit)
    (hid : ∀ {c s u t}, before c s = .ok u t → t.heap = s.heap ∧
      t.sightings = s.sightings ∧ t.deferred = s.deferred ∧
      (∀ i, id = some i → s.nodes.cellOf? i = none) ∧
      ∀ i, t.nodes.cellOf? i = if id = some i then some c else s.nodes.cellOf? i) :
    Reads env base ps (fun v => ∃ p ∈ ps, p.id = id ∧ p.pointee = pointee ∧
      v = .pointer (some p.cell)) (do
        let cell ← allocate
        before cell
        sight { id, pointee, cell }
        placePointee env walk cell pointee site
        return Value.pointer (some cell)) where
  grows {s v t} e := by
    obtain ⟨c, s1, h1, e1⟩ := bind_eq_ok.1 e
    obtain ⟨_, s2, h2, e2⟩ := bind_eq_ok.1 e1
    obtain ⟨_, s3, h3, e3⟩ := bind_eq_ok.1 e2
    obtain ⟨_, s4, h4, e4⟩ := bind_eq_ok.1 e3
    obtain ⟨-, -, rfl⟩ := allocate_eq_ok.1 h1
    obtain ⟨-, hs, -⟩ := hid h2
    obtain rfl := sight_eq_ok.1 h3
    obtain ⟨-, rfl⟩ := pure_eq_ok.1 e4
    refine List.IsSuffix.trans ?_ (placePointee_grows hw h4)
    dsimp only at hs ⊢
    rw [hs]
    exact List.suffix_cons _ _
  step {s v t} hs e ht := by
    obtain ⟨c, s1, h1, e1⟩ := bind_eq_ok.1 e
    obtain ⟨_, s2, h2, e2⟩ := bind_eq_ok.1 e1
    obtain ⟨_, s3, h3, e3⟩ := bind_eq_ok.1 e2
    obtain ⟨_, s4, h4, e4⟩ := bind_eq_ok.1 e3
    obtain ⟨-, hc, rfl⟩ := allocate_eq_ok.1 h1
    obtain ⟨hh, hp, hd, hf, hn⟩ := hid h2
    obtain rfl := sight_eq_ok.1 h3
    obtain ⟨rfl, rfl⟩ := pure_eq_ok.1 e4
    dsimp only at hh hp hd hf hn
    have htrack : Tracked base { s2 with sightings := ⟨id, pointee, c⟩ :: s2.sightings } := by
      refine hs.make (p := ⟨id, pointee, c⟩) hc.symm hf ?_ (by rw [hp]) hn hd
      dsimp only
      rw [hh, Heap.append, Array.size_push]
    have hfirst : firstTo (⟨id, pointee, c⟩ :: s2.sightings) c = some ⟨id, pointee, c⟩ := by
      have : firstTo s.sightings c = none := by
        simpa [firstTo] using fun q hq => Nat.ne_of_lt (hc ▸ (hs.range q hq).2)
      rw [hp, firstTo_cons, this, if_pos rfl]
      rfl
    obtain ⟨ht4, hstep⟩ := placePointee_step hw (p := ⟨id, pointee, c⟩) htrack hh hc.symm hd
      hfirst h4 ht
    refine ⟨ht4, hstep, ⟨id, pointee, c⟩, ?_, rfl, rfl, rfl⟩
    exact ((placePointee_grows hw h4).trans ht).mem List.mem_cons_self

theorem reads_getReference {o : Nat} {m : Modifiers} {props : UInt8} (pointee : Nat) :
    Reads env base ps (ReadAs env ps ⟨o, m, .pointer .ref props pointee⟩)
      (getReference env walk pointee site) := by
  have hmake : Reads env base ps (ReadAs env ps ⟨o, m, .pointer .ref props pointee⟩) (do
      let cell ← allocate
      sight { id := none, pointee, cell }
      placePointee env walk cell pointee site
      return Value.pointer (some cell)) := by
    refine (reads_make hw none (fun _ => pure ⟨⟩) ?_).mono ?_
    · intro c s u t e
      obtain ⟨-, rfl⟩ := pure_eq_ok.1 e
      exact ⟨rfl, rfl, rfl, by simp, by simp⟩
    · rintro v ⟨p, hp, hid, hpointee, rfl⟩
      exact .pointer hp hpointee (by simp [hid])
  unfold getReference
  exact .ite ((Reads.fetch _).bind fun _ => hmake.mono fun _ h _ => h) hmake

theorem reads_getPointer {o : Nat} {m : Modifiers} {props : UInt8} (kind : PointerKind)
    (pointee : Nat) : Reads env base ps (ReadAs env ps ⟨o, m, .pointer kind props pointee⟩)
      (getPointer env walk kind pointee site) := by
  unfold getPointer
  split
  · rename_i hk
    exact hk ▸ reads_getReference hw pointee
  · rename_i hk
    refine (Reads.fetch _).bind fun id => .ite (.pure fun _ => .null hk) ?_
    have hmake : Reads env base ps (ReadAs env ps ⟨o, m, .pointer kind props pointee⟩) (do
        let cell ← allocate
        register id cell
        sight { id := some id, pointee, cell }
        placePointee env walk cell pointee site
        return Value.pointer (some cell)) := by
      refine (reads_make hw (some id) (register id) ?_).mono ?_
      · intro c s u t e
        obtain ⟨nodes, hr, rfl⟩ := register_eq_ok.1 e
        refine ⟨rfl, rfl, rfl, fun i hi => ?_, fun i => ?_⟩
        · exact Option.some.inj hi ▸ NodeTable.cellOf?_of_register hr
        · simpa using NodeTable.cellOf?_register hr i
      · rintro v ⟨p, hp, hid, hpointee, rfl⟩
        exact .pointer hp hpointee (by simp [hid, hk])
    refine ⟨fun {s v t} e => ?_, fun {s v t} hs e ht => ?_⟩
    · obtain ⟨s1, s2, h1, e1⟩ := bind_eq_ok.1 e
      obtain ⟨rfl, rfl⟩ := get_eq_ok.1 h1
      cases hcell : s.nodes.cellOf? id with
      | some cell =>
        simp only [hcell] at e1
        obtain ⟨_, s3, h3, e3⟩ := bind_eq_ok.1 e1
        obtain rfl := sight_eq_ok.1 h3
        obtain ⟨-, rfl⟩ := pure_eq_ok.1 e3
        exact List.suffix_cons _ _
      | none =>
        simp only [hcell] at e1
        exact hmake.grows e1
    · obtain ⟨s1, s2, h1, e1⟩ := bind_eq_ok.1 e
      obtain ⟨rfl, rfl⟩ := get_eq_ok.1 h1
      cases hcell : s.nodes.cellOf? id with
      | some cell =>
        simp only [hcell] at e1
        obtain ⟨_, s3, h3, e3⟩ := bind_eq_ok.1 e1
        obtain rfl := sight_eq_ok.1 h3
        obtain ⟨rfl, rfl⟩ := pure_eq_ok.1 e3
        refine ⟨hs.again rfl hcell, .of_eq rfl rfl, fun _ => ?_⟩
        exact .pointer (ht.mem List.mem_cons_self) rfl (by simp [hk])
      | none =>
        simp only [hcell] at e1
        obtain ⟨ht', hstep, hv⟩ := hmake.step hs e1 ht
        exact ⟨ht', hstep, fun _ => hv⟩

end Pointers

/-! ### Steps that read no pointer -/

theorem reads_scopeOf (id : ScopeId) : Reads env base ps (fun _ => True) (scopeOf id) :=
  Reads.get.andThen fun _ => .pure trivial

theorem reads_getContext {o : Nat} {m : Modifiers} (direction : ContextDirection)
    (current : Value) : Reads env base ps (ReadAs env ps ⟨o, m, .context direction⟩)
      (getContext env direction current) := by
  have hadopt : ∀ (registry : Registry) held u,
      Reads env base ps (fun _ => True) (adoptContext registry held u) := by
    intro registry held u
    unfold adoptContext
    refine .ite (Reads.andThen (Reads.modify fun _ => ⟨rfl, rfl, rfl, rfl⟩) fun _ => .pure trivial)
      ?_
    refine .ite ?_ (.pure trivial)
    exact Reads.andThen (Reads.modify fun _ => ⟨rfl, rfl, rfl, rfl⟩) fun _ => .pure trivial
  rw [getContext_eq]
  refine Reads.get.andThen fun s => ?_
  cases s.contexts with
  | none => exact .throw _
  | some registry =>
    refine (Reads.fetch _).andThen fun u => ?_
    cases env.side with
    | server => exact (Reads.lift _).andThen fun _ => .pure .context
    | client => exact (hadopt _ _ _).andThen fun _ => .pure .context

/-- The steps that make and fill no cell read no pointer either. -/
theorem composes_reads (env : Env) (base : Nat) (ps : List Sighting) :
    Composes env (fun x => Reads env base ps (fun _ => True) x) where
  pure _ := .pure trivial
  throw := .throw
  bind := .andThen
  align _ := (Reads.fetch _).weaken
  count := (Reads.fetch _).weaken
  shortCount := (Reads.fetch _).weaken
  scalar _ := (Reads.fetch _).weaken
  run _ := (Reads.fetch _).weaken
  context direction current :=
    (reads_getContext (o := 0) (m := {}) direction current).weaken
  onPipe h _ x := .onPipe h x
  call _ := .modify fun _ => ⟨rfl, rfl, rfl, rfl⟩
  delete _ := .modify fun _ => ⟨rfl, rfl, rfl, rfl⟩
  openScope _ := .quiet fun e => by
    obtain ⟨-, rfl⟩ := openScope_eq_ok.1 e
    exact ⟨⟨rfl, rfl, rfl, rfl⟩, trivial⟩
  setField _ _ v := by
    cases v with
    | none => exact .pure trivial
    | some v => exact .modify fun _ => ⟨rfl, rfl, rfl, rfl⟩
  scopeOf := reads_scopeOf
  keepLate _ _ := .modify fun _ => ⟨rfl, rfl, rfl, rfl⟩
  verifyLate scope := by
    refine Reads.get.andThen fun s => ?_
    refine Reads.andThen (Reads.modify fun _ => ⟨rfl, rfl, rfl, rfl⟩) fun _ => ?_
    refine (reads_scopeOf scope).andThen fun fields => ?_
    exact Reads.forM (fun _ => (Reads.lift _).weaken) _
  seeHeap hf := Reads.get.andThen fun s => hf s.heap
  seeCalls hf := Reads.get.andThen fun s => hf s.calls
  seeRest hf := Reads.get.andThen fun s => hf s.reader.rest.length

/-! ### Values -/

theorem isSome_word?_ofWord (kind : Scalar) (n : Nat) : (kind.word? (kind.ofWord n)).isSome := by
  cases kind <;> rfl

theorem exists_ofWord {representation : Representation} {kind : Scalar} {r r' : Reader}
    {v : Value} (h : Reader.getScalar representation kind r = .ok v r') :
    ∃ n, v = kind.ofWord n := by
  unfold Reader.getScalar at h
  obtain ⟨_, _, -, h1⟩ := bind_eq_ok.1 h
  obtain ⟨_, _, -, h2⟩ := bind_eq_ok.1 h1
  obtain ⟨n, _, -, h3⟩ := bind_eq_ok.1 h2
  obtain ⟨_, _, -, h4⟩ := bind_eq_ok.1 h3
  exact ⟨n, (pure_eq_ok.1 h4).1.symm⟩

theorem reads_getPipe (hw : ReadsTypes env base ps walk) {o : Nat} {m : Modifiers}
    {props : UInt8} (element : Nat) (current : Value) (site : Site ScopeId) :
    Reads env base ps (ReadAs env ps ⟨o, m, .pipe props element⟩)
      (getPipe env walk element current site) := by
  have hP := composes_reads env base ps
  refine (Reads.lift _).andThen fun p => (Reads.lift _).andThen fun d => ?_
  refine (Reads.lift _).andThen fun _ => (Reads.onPipe p _).andThen fun _ => ?_
  refine Reads.get.andThen fun s => ?_
  exact (hP.getPieces (fun d site => (hw d site).weaken) p d _ _).andThen fun _ => .pure .pipe

theorem reads_getDeleted {o : Nat} {m : Modifiers} :
    Reads env base ps (ReadAs env ps ⟨o, m, .deletedNodes⟩) (getDeleted env) := by
  have hnode : Reads env base ps (fun v => ∃ id, v = .ulong id) (getDeletedNode env) := by
    refine (Reads.fetch _).andThen fun id => Reads.check ?_
    refine Reads.andThen (Reads.modify fun _ => ⟨rfl, rfl, rfl, rfl⟩) fun _ => .pure ⟨_, rfl⟩
  refine (Reads.fetch _).andThen fun n => (Reads.lift _).andThen fun _ => ?_
  refine (Reads.repeatM hnode n).bind fun vs => .pure fun h => ?_
  choose! id hid using h
  have : vs = (vs.map id).map .ulong := by
    rw [List.map_map]
    exact (List.map_id' vs ▸ List.map_congr_left fun v hv => hid v hv :)
  rw [this]
  exact .deletedNodes

/-- What reading does is asserted along with its results. -/
theorem asserts_reads (env : Env) (base : Nat) (ps : List Sighting) :
    Asserts env fun Q x => Reads env base ps Q x where
  plain := (composes_reads env base ps).relates.toRelatesPlain
  pure := .pure
  throw := .throw
  mono := .mono
  bind := .bind
  lift := .lift
  scalar _ := (Reads.fetch _).mono fun _ ⟨_, _, h⟩ => exists_ofWord h
  seeCalls hf := Reads.get.andThen fun s => hf s.calls

theorem typing_readAs (env : Env) (base : Nat) (ps : List Sighting) :
    Typing env (fun Q x => Reads env base ps Q x) (ReadAs env ps) where
  toAsserts := asserts_reads env base ps
  ofWord n := .scalar (isSome_word?_ofWord _ n)
  struct hs hslots := by
    obtain ⟨pick, hpick, hread⟩ := Slotted.exists_pick hslots
    exact .struct pick hs hpick hread
  nested hslots := by
    obtain ⟨pick, hpick, hread⟩ := Slotted.exists_pick hslots
    exact .nested pick hpick hread
  emptyArm hform _ := .emptyArm hform
  arm := .arm
  ignore := .ignore
  converted _ _ _ _ := .converted
  align := .align
  void := .void
  context := reads_getContext
  array site preset hw := by
    refine ((asserts_reads env base ps).getArray (fun n => .scalar (isSome_word?_ofWord _ n)) hw _ _ _ _
      site preset).mono ?_
    rintro _ ⟨d, vs, hd, rfl, hall⟩
    exact .array hd hall
  pointer site hw := reads_getPointer hw _ _
  deletedNodes := reads_getDeleted

/-- Every walk reads values of its descriptor. -/
theorem reads_walk (room : Nat) : ReadsTypes env base ps (Unmarshal.walk env room) :=
  (typing_readAs env base ps).walks room

theorem reads_getParameter (d : Descriptor) (current : Value) (site : Site ScopeId) :
    Reads env base ps (ReadAs env ps d) (getParameter env d current site) := by
  obtain ⟨o, m, form⟩ := d
  unfold getParameter
  cases form with
  | pipe props element => exact reads_getPipe (reads_walk _) _ _ _
  | context direction => exact reads_getContext _ _
  | _ => exact reads_walk _ _ _

/-! ### What was put off -/

theorem Tracked.take (h : Tracked base s) : Tracked base { s with deferred := [] } where
  range := h.range
  first := h.first
  known := h.known
  node := h.node
  seen := h.seen
  size := h.size
  deferred _ hd := absurd hd (by simp)

section Deferred

variable (hw : ReadsTypes env base ps walk)

include hw

theorem fillAll_grows {depth : Nat} (ih : ∀ {ds s t u}, getDeferred env walk depth ds s = .ok u t →
    s.sightings <:+ t.sightings) {ds : List (Deferred ScopeId)} {u : Unit}
    (e : fillAll env walk depth ds s = .ok u t) : s.sightings <:+ t.sightings := by
  induction ds generalizing s with
  | nil => exact (pure_eq_ok.1 e).2 ▸ List.suffix_rfl
  | cons d es ihs =>
    obtain ⟨_, s3, h3, e3⟩ := bind_eq_ok.1 e
    obtain ⟨_, s1, h1, e1⟩ := bind_eq_ok.1 h3
    obtain ⟨ds', s2, h2, e2⟩ := bind_eq_ok.1 e1
    obtain ⟨rfl, rfl⟩ := takeDeferred_eq_ok.1 h2
    have h5 : _ <:+ s3.sightings := ih e2
    exact ((getPointee_grows hw h1).trans h5).trans (ihs e3)

theorem getDeferred_grows (depth : Nat) {ds : List (Deferred ScopeId)} {u : Unit}
    (e : getDeferred env walk depth ds s = .ok u t) : s.sightings <:+ t.sightings := by
  induction depth generalizing ds s t u with
  | zero =>
    cases ds with
    | nil => exact (pure_eq_ok.1 e).2 ▸ List.suffix_rfl
    | cons d ds => exact absurd e throw_ne_ok
  | succ depth ih =>
    cases ds with
    | nil => exact (pure_eq_ok.1 e).2 ▸ List.suffix_rfl
    | cons d ds => exact fillAll_grows hw ih e

/-- The work list `ds` of a state: nothing else is put off, and every cell of it is to be filled
from the pointee of its first pointer. -/
structure Work (base : Nat) (ds : List (Deferred ScopeId)) (s : State) : Prop extends
    Tracked base s where
  rest : s.deferred = []
  due : ∀ d ∈ ds, ∃ p, firstTo s.sightings d.cell = some p ∧ p.pointee = d.pointee

theorem fillAll_step {depth : Nat} (ih : ∀ {ds s t u}, Work base ds s →
    getDeferred env walk depth ds s = .ok u t → t.sightings <:+ ps →
    Work base [] t ∧ Step (Fits env ps) (fun c => ∃ d ∈ ds, d.cell = c) s t)
    {ds : List (Deferred ScopeId)} {u : Unit} (hs : Work base ds s)
    (e : fillAll env walk depth ds s = .ok u t) (ht : t.sightings <:+ ps) :
    Work base [] t ∧ Step (Fits env ps) (fun c => ∃ d ∈ ds, d.cell = c) s t := by
  induction ds generalizing s with
  | nil =>
    obtain ⟨-, rfl⟩ := pure_eq_ok.1 e
    exact ⟨hs, (Step.of_eq rfl rfl).congr (by simp [None])⟩
  | cons d ds ihs =>
    obtain ⟨_, s3, h3, e3⟩ := bind_eq_ok.1 e
    obtain ⟨_, s1, h1, e1⟩ := bind_eq_ok.1 h3
    obtain ⟨ds', s2, h2, e2⟩ := bind_eq_ok.1 e1
    obtain ⟨rfl, rfl⟩ := takeDeferred_eq_ok.1 h2
    obtain ⟨p, hp, he⟩ := hs.due d List.mem_cons_self
    have g3 : s3.sightings <:+ ps := (fillAll_grows hw (getDeferred_grows hw depth) e3).trans ht
    have h5 : _ <:+ s3.sightings := getDeferred_grows hw depth e2
    have g1 : s1.sightings <:+ ps := h5.trans g3
    obtain ⟨hs1, hstep1⟩ := getPointee_step hw hs.toTracked hp (he ▸ h1) g1
    obtain ⟨hs3, hstep3⟩ := ih (Work.mk hs1.take rfl fun d hm =>
      hs1.deferred d (List.mem_reverse.1 hm)) e2 g3
    have hstep := hstep1.drain hs.rest hstep3 hs3.rest
    have hsight : s.sightings <:+ s3.sightings := (getPointee_grows hw h1).trans h5
    have hwork : Work base ds s3 := ⟨hs3.toTracked, hs3.rest, fun d' hm => by
      obtain ⟨q, hq, hqe⟩ := hs.due d' (List.mem_cons_of_mem _ hm)
      exact ⟨q, firstTo_of_suffix hsight hq, hqe⟩⟩
    obtain ⟨ht', hstep'⟩ := ihs hwork e3
    refine ⟨ht', (hstep.trans hstep').congr ?_⟩
    rintro c ⟨d', hm, rfl⟩
    rcases List.mem_cons.1 hm with rfl | hm
    · exact .inl rfl
    · exact .inr ⟨d', hm, rfl⟩

/-- Reading what was put off fills it, and leaves nothing that is put off. -/
theorem getDeferred_step (depth : Nat) {ds : List (Deferred ScopeId)} {u : Unit}
    (hs : Work base ds s) (e : getDeferred env walk depth ds s = .ok u t)
    (ht : t.sightings <:+ ps) :
    Work base [] t ∧ Step (Fits env ps) (fun c => ∃ d ∈ ds, d.cell = c) s t := by
  induction depth generalizing ds s t u with
  | zero =>
    cases ds with
    | nil =>
      obtain ⟨-, rfl⟩ := pure_eq_ok.1 e
      exact ⟨hs, (Step.of_eq rfl rfl).congr (by simp [None])⟩
    | cons d ds => exact absurd e throw_ne_ok
  | succ depth ih =>
    cases ds with
    | nil =>
      obtain ⟨-, rfl⟩ := pure_eq_ok.1 e
      exact ⟨hs, (Step.of_eq rfl rfl).congr (by simp [None])⟩
    | cons d ds => exact fillAll_step hw ih hs e ht

end Deferred

/-! ### Operations -/

/-- A value that was read for a parameter. -/
abbrev IsRead (env : Env) (ps : List Sighting) (p : Parameter) (v : Nat × Value) : Prop :=
  v.1 = p.index ∧ ReadAs env ps p.descriptor v.2

/-- A parameter and its pointees: nothing stays put off behind it. -/
theorem readParameter_step (base : Nat) (ps : List Sighting) {params : List Value}
    {scope : ScopeId} {p : Parameter} {v : Nat × Value} (e : readParameter env params scope p s = .ok v t) :
    s.sightings <:+ t.sightings ∧ (Work base [] s → t.sightings <:+ ps →
      Work base [] t ∧ Step (Fits env ps) None s t ∧ IsRead env ps p v) := by
  obtain ⟨current, w, s1, s2, -, h1, hflushed, rfl, rfl⟩ := readParameter_eq_ok e
  obtain ⟨_, _, h2, e1⟩ := bind_eq_ok.1 hflushed
  obtain ⟨rfl, rfl⟩ := get_eq_ok.1 h2
  obtain ⟨ds, _, h3, e2⟩ := bind_eq_ok.1 e1
  obtain ⟨rfl, rfl⟩ := takeDeferred_eq_ok.1 h3
  have hread : Reads env base ps (ReadAs env ps p.descriptor) (getParameter env p.descriptor
      current { scope, embedded := false }) := reads_getParameter _ _ _
  have hwalk : ReadsTypes env base ps (Unmarshal.walk env env.config.maxNesting) := reads_walk _
  have hflush : _ <:+ s2.sightings := getDeferred_grows hwalk _ e2
  refine ⟨(hread.grows h1).trans hflush, fun hs ht => ?_⟩
  obtain ⟨hs1, hstep1, hv⟩ := hread.step hs.toTracked h1 (hflush.trans ht)
  obtain ⟨hs2, hstep2⟩ := getDeferred_step hwalk _ (Work.mk hs1.take rfl fun d hm =>
    hs1.deferred d (List.mem_reverse.1 hm)) e2 ht
  refine ⟨⟨hs2.of_eq rfl rfl rfl rfl, hs2.rest, by simp⟩, ?_, rfl, hv⟩
  exact (hstep1.drain hs.rest hstep2 hs2.rest).trans_none (.of_eq rfl rfl)

theorem readParameters_step (base : Nat) (ps : List Sighting) {params : List Value}
    {scope : ScopeId} {list : List Parameter}
    {values : List (Nat × Value)}
    (e : list.mapM (readParameter env params scope) s = .ok values t) :
    s.sightings <:+ t.sightings ∧ (Work base [] s → t.sightings <:+ ps →
      Work base [] t ∧ Step (Fits env ps) None s t ∧ List.Forall₂ (IsRead env ps) list values) := by
  induction list generalizing s values with
  | nil =>
    rw [List.mapM_nil] at e
    obtain ⟨rfl, rfl⟩ := pure_eq_ok.1 e
    exact ⟨List.suffix_rfl, fun hs _ => ⟨hs, .of_eq rfl rfl, .nil⟩⟩
  | cons p list ih =>
    rw [List.mapM_cons] at e
    obtain ⟨v, s1, h1, e1⟩ := bind_eq_ok.1 e
    obtain ⟨vs, s2, h2, e2⟩ := bind_eq_ok.1 e1
    obtain ⟨rfl, rfl⟩ := pure_eq_ok.1 e2
    obtain ⟨hgrows, hfirst⟩ := readParameter_step base ps h1
    obtain ⟨hgrows', hrest⟩ := ih h2
    refine ⟨hgrows.trans hgrows', fun hs ht => ?_⟩
    obtain ⟨hs1, hstep1, hv⟩ := hfirst hs (hgrows'.trans ht)
    obtain ⟨hs2, hstep2, hvs⟩ := hrest hs1 ht
    exact ⟨hs2, hstep1.trans_none hstep2, .cons hv hvs⟩

/-- An operation reads values of its parameters, and settles every cell that it makes. -/
theorem getParameters_step {offset : Nat} {params : List Value} {values : List (Nat × Value)}
    (hs : Work base [] s) (e : getParameters env offset params s = .ok values t) :
    Work base [] t ∧ Step (Fits env t.sightings) None s t ∧
      ∃ list, env.vector.parameters offset = .ok list ∧
        List.Forall₂ (IsRead env t.sightings) list values := by
  obtain ⟨list, s4, hlist, h4, -, rfl⟩ := getParameters_eq_ok e
  obtain ⟨-, hread⟩ := readParameters_step base s4.sightings h4
  obtain ⟨hs4, hstep, hvs⟩ := hread ⟨hs.of_eq rfl rfl rfl rfl, hs.rest, by simp⟩ List.suffix_rfl
  have hstart : Step (Fits env s4.sightings) None s { s with
      scopes := s.scopes.push (parameterScope s.heap list params) } := .of_eq rfl rfl
  refine ⟨⟨hs4.of_eq rfl rfl rfl rfl, hs4.rest, by simp⟩, ?_, list, hlist, hvs⟩
  exact (hstart.trans_none hstep).trans_none (.of_eq rfl rfl)

end Unmarshal

namespace Machine

open Unmarshal (Filled Fits ReadAs IsRead firstTo)

/-- What the pointers `ps` that an operation read lead to, where the heap had `base` cells. -/
structure Traced (m : Machine) (base offset : Nat) (params : List Value)
    (ps : List Unmarshal.Sighting) (o : Outcome Source (List Value)) : Prop where
  /-- The values of the parameters come from their descriptors. -/
  values : ∃ list values, m.interface.vector.parameters offset = .ok list ∧
    o.result = .ok (replace params values) ∧
    List.Forall₂ (IsRead { m.startOperation with } ps) list values
  /-- A pointer leads to a cell that the operation made. -/
  made : ∀ p ∈ ps, base ≤ p.cell ∧ p.cell < o.surroundings.heap.allocations
  /-- Its id stands for that cell. -/
  table : ∀ p ∈ ps, ∀ id, p.id = some id → o.machine.nodes.cellOf? id = some p.cell
  /-- The first pointer to its cell has its id; without an id, it is the first. -/
  first : ∀ p ∈ ps, ∃ q ∈ ps, firstTo ps p.cell = some q ∧ q.id = p.id ∧ (p.id = none → q = p)
  /-- A new cell holds a value of the pointee of the first pointer to it, unless the message
  freed it as a node of the operation before. -/
  cells : ∀ c, base ≤ c → c < o.surroundings.heap.allocations →
    Filled (Fits { m.startOperation with } ps) o.surroundings.heap c ∨
      ∃ id, m.nodes.cellOf? id = some c
  /-- Where pointers with one id have equal pointees, what a pointer leads to is of its
  pointee. -/
  typed : (∀ p ∈ ps, ∀ q ∈ ps, p.id = q.id → p.id ≠ none →
      (m.interface.vector.stream p.pointee).map Descriptor.plain
        = (m.interface.vector.stream q.pointee).map Descriptor.plain) →
    ∀ p ∈ ps, (∃ id, m.nodes.cellOf? id = some p.cell) ∨ ∃ d e v,
      m.interface.vector.stream p.pointee = .ok d ∧ e.plain = d.plain ∧
        o.surroundings.heap.load? p.cell = some v ∧ ReadAs { m.startOperation with } ps e v

/-- A cell that no deleted node names holds what it held. -/
theorem load?_commit_of_unnamed {previous : NodeTable} {s : Unmarshal.State} {c : CellId}
    (h : ∀ id ∈ s.deleted, previous.cellOf? id ≠ some c) :
    (commit previous s).heap.load? c = s.heap.load? c := by
  have hc : c ∉ s.deleted.reverse.filterMap previous.cellOf? := fun hm => by
    obtain ⟨id, hid, he⟩ := List.mem_filterMap.1 hm
    exact h id (List.mem_reverse.1 hid) he
  exact congrArg Option.join (Heap.getElem?_release_all hc s.heap)

theorem load?_commit {previous : NodeTable} {s : Unmarshal.State} {c : CellId}
    (h : ∀ id, previous.cellOf? id ≠ some c) :
    (commit previous s).heap.load? c = s.heap.load? c :=
  load?_commit_of_unnamed fun id _ => h id

/-- A vector whose only parameter list, at 20, has a unique pointer to a long, at 12, and one to
an unsigned long, at 16. -/
def mixedPointerVector : TypeVector where
  bytes := #[8, 0, 10, 0, 1, 255, 255, 255, 0, 0, 0, 0, 9, 254, 255, 255, 13, 254, 255, 255,
    2, 0, 0, 0, 0, 0, 0, 0, 30, 2, 255, 255, 12, 0, 0, 0, 254, 255, 255, 255,
    1, 0, 0, 0, 30, 2, 255, 255, 16, 0, 0, 0, 254]
  order := .little
  minor := 10

/-- A message that repeats the id of a pointer to 5. -/
def repeatedId : List UInt8 := [1, 0, 0, 0, 5, 0, 0, 0, 1, 0, 0, 0]

end Machine

end Ndr
