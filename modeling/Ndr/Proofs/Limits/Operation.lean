import Ndr.Proofs.Effect
import Ndr.Proofs.Limits.Reading
import Ndr.Routine.Standard

/-!
The limits of an operation. Where routines give the values back that they are given, every array that
an operation reads keeps within the limits: those of the parameters, of the new cells, and of the chunks
that pipes take.
-/

namespace Ndr

/-- Every routine gives the value back that travelled. -/
def Interface.PassesValues (i : Interface) : Prop :=
  ∀ index routine, i.routine index = .ok routine → ∀ calls w v, routine.fromWire calls w = .ok v → v = w

namespace Unmarshal

variable {env : Env} {S E : State} {walk : Walk}

/-! ### Cells -/

theorem limits_allocate : Limits env S E (fun _ => True) allocate where
  onward s _ _ e := ((pipeless_allocate s).ok ⟨.refl s, rfl⟩ e).1.toBefore
  step _ _ _ _ hs e _ := by
    obtain ⟨-, -, rfl⟩ := allocate_eq_ok.1 e
    exact ⟨hs.append rfl rfl, trivial⟩

theorem goesOn_store (c : CellId) (v : Value) : GoesOn (store c v) := fun s _ _ e => by
  obtain ⟨-, rfl⟩ := store_eq_ok.1 e
  exact ⟨List.suffix_rfl, .refl _⟩

theorem limits_store (c : CellId) {v : Value} (hv : Limited env S E v) :
    Limits env S E (fun _ => True) (store c v) where
  onward := goesOn_store c v
  step _ _ _ _ hs e _ := by
    obtain ⟨hl, rfl⟩ := store_eq_ok.1 e
    exact ⟨hs.put hl hv, trivial⟩

theorem limits_register (id : Nat) (c : CellId) : Limits env S E (fun _ => True) (register id c) :=
  .quiet ((relates_pipeless env).register id c) fun _ =>
    Keeps.get.bind fun t _ => (Keeps.lift (t.nodes.register id c)).bind fun _ _ =>
      Keeps.modify fun _ h => h

theorem limits_sight (p : Sighting) : Limits env S E (fun _ => True) (sight p) :=
  .quiet ((relates_pipeless env).sight p) fun _ => Keeps.modify fun _ h => h

theorem limits_defer (d : Deferred ScopeId) : Limits env S E (fun _ => True) (defer d) :=
  .quiet ((relates_pipeless env).defer trivial trivial) fun _ => Keeps.modify fun _ h => h

theorem limits_takeDeferred : Limits env S E (fun _ => True) takeDeferred :=
  .quiet pipeless_takeDeferred fun _ => Keeps.modifyGet fun _ h => ⟨h, trivial⟩

/-! ### Pointers -/

section Pointers

variable (hw : GivesTypes (Limits env S E) (fun _ => Limited env S E) walk)

include hw

theorem limits_getPointee (c : CellId) (pointee : Nat) (site : Site ScopeId) :
    Limits env S E (fun _ => True) (getPointee env walk c pointee site) :=
  (asserts_limits env S E).lift_bind fun d _ =>
    (hw d _).bind_of (goesOn_store c) fun _ hv => limits_store c hv

theorem limits_placePointee (c : CellId) (pointee : Nat) (site : Site ScopeId) :
    Limits env S E (fun _ => True) (placePointee env walk c pointee site) :=
  .ite (limits_defer _) (limits_getPointee hw _ _ _)

theorem limits_getPointer (kind : PointerKind) (pointee : Nat) (site : Site ScopeId) :
    Limits env S E (Limited env S E) (getPointer env walk kind pointee site) := by
  have hH := asserts_limits env S E
  have hpointer : ∀ target, Limits env S E (Limited env S E) (pure (.pointer target)) :=
    fun target => hH.pure (.plain fun _ => Value.not_occurs_pointer _ target)
  have hmade : ∀ id c, Limits env S E (Limited env S E) (do
      sight { id, pointee, cell := c }
      placePointee env walk c pointee site
      return .pointer (some c)) := fun id c =>
    hH.andThen (limits_sight _) fun _ => hH.andThen (limits_placePointee hw _ _ _) fun _ => hpointer _
  by_cases hk : kind = .ref
  · have hreference := hH.andThen limits_allocate fun c => hmade none c
    subst hk
    show Limits env S E _ (if site.embedded then getCount env >>= fun _ => _ else _)
    exact .ite (hH.andThen hH.plain.count fun _ => hreference) hreference
  · rw [getPointer_eq env walk hk]
    refine hH.andThen hH.plain.count fun id => .ite (hpointer _) (.see fun s => ?_)
    unfold pointTo
    cases s.nodes.cellOf? id with
    | some c => exact hH.andThen (limits_sight _) fun _ => hpointer _
    | none =>
      refine hH.andThen limits_allocate fun c => hH.andThen (limits_register _ _) fun _ => ?_
      exact hmade (some id) c

theorem limits_getDeferred (depth : Nat) (ds : List (Deferred ScopeId)) :
    Limits env S E (fun _ => True) (getDeferred env walk depth ds) := by
  have hH := asserts_limits env S E
  induction depth generalizing ds with
  | zero =>
    cases ds with
    | nil => exact hH.pure trivial
    | cons d ds => exact hH.throw _
  | succ depth ih =>
    cases ds with
    | nil => exact hH.pure trivial
    | cons d ds =>
      refine hH.forM fun e _ => hH.andThen (limits_getPointee hw _ _ _) fun _ => ?_
      exact hH.andThen limits_takeDeferred ih

theorem limits_flush : Limits env S E (fun _ => True) (flush env walk) :=
  .see fun _ => (asserts_limits env S E).andThen limits_takeDeferred fun _ => limits_getDeferred hw _ _

end Pointers

/-! ### Deleted nodes and contexts -/

theorem limits_getDeleted : Limits env S E (Limited env S E) (getDeleted env) := by
  have hH := asserts_limits env S E
  have hnode : Limits env S E (Limited env S E) (getDeletedNode env) := by
    refine hH.andThen hH.plain.count fun id => hH.check ?_
    have hmodify : Limits env S E (fun _ => True)
        (modify fun s => { s with deleted := id :: s.deleted } : Unmarshalling PUnit) :=
      .quiet (pipeless_modify (fun _ => rfl) (fun _ => List.suffix_rfl) fun _ => rfl)
        fun _ => Keeps.modify fun _ h => h
    exact hH.andThen hmodify fun _ => hH.pure (.plain fun _ => nofun)
  refine hH.andThen hH.plain.count fun n => hH.lift_bind fun _ hcount => ?_
  have hread := (hH.repeatM hnode n).also (Keeps.repeatM_all (Keeps.ofTrue _) n)
  refine hH.bind hread.ran fun ids => hH.pure ?_
  rintro ⟨⟨hall, rfl, -⟩, s, t, hS, hrun, hE⟩
  exact .deletedNodes (checkCount_eq_ok hcount) hS hrun hE hall

theorem limits_getContext (direction : ContextDirection) (current : Value) :
    Limits env S E (Limited env S E) (getContext env direction current) := by
  refine (((asserts_limits env S E).plain.context direction current).also ?_).mono fun _ h => h.2
  rw [getContext_eq]
  refine Keeps.get.bind fun s _ => ?_
  have hcontext : ∀ handle, Limited env S E (.context handle) :=
    fun handle => .plain fun _ => Value.not_occurs_context _ handle
  cases s.contexts with
  | none => exact .throw _
  | some registry =>
    refine (Keeps.ofTrue _).bind fun u _ => ?_
    cases env.side with
    | server => exact (Keeps.ofTrue _).bind fun _ _ => .pure (hcontext _)
    | client => exact (Keeps.ofTrue _).bind fun _ _ => .pure (hcontext _)

/-! ### Pipes -/

theorem goesOn_onPipe {α : Type} (h : PipeHandle) (x : EStateM Fault Pipe α) : GoesOn (onPipe h x) :=
  fun _ _ _ e => by
    obtain ⟨_, -, rfl⟩ := onPart_eq_ok.1 e
    exact ⟨List.suffix_rfl, .refl _⟩

/-- A step of a pipe that takes chunks within the limits. -/
theorem limits_onPipe {α : Type} (h : PipeHandle) {x : EStateM Fault Pipe α}
    {new : List (List Value)} (hx : ∀ p a q, x p = .ok a q → q.pushed = p.pushed ++ new)
    (hnew : ∀ chunk ∈ new, chunk.length ≤ env.config.maxElements ∧ ∀ v ∈ chunk, Limited env S E v) :
    Limits env S E (fun _ => True) (onPipe h x) where
  onward := goesOn_onPipe h x
  step s a t _ hs e _ := by
    cases hp : s.pipes[h]? with
    | none =>
      unfold onPipe onPart Pipe.under at e
      simp [hp] at e
    | some p =>
      obtain ⟨q, hq, rfl⟩ := (onPipe_eq_ok hp).1 e
      exact ⟨hs.setPipe hp (hx p a q hq) hnew, trivial⟩

theorem limits_push (h : PipeHandle) {chunk : List Value}
    (hlength : chunk.length ≤ env.config.maxElements) (hall : ∀ v ∈ chunk, Limited env S E v) :
    Limits env S E (fun _ => True) (onPipe h (Pipe.push chunk)) := by
  refine limits_onPipe h (fun p a q e => ?_) (List.forall_mem_singleton.2 ⟨hlength, hall⟩)
  obtain ⟨-, rfl⟩ := Pipe.push_eq_ok.1 e
  exact Pipe.pushed_record _ _

/-- A step of a pipe that takes no chunk. -/
theorem limits_aside {α : Type} (h : PipeHandle) {x : EStateM Fault Pipe α}
    (hx : ∀ p a q, x p = .ok a q → q.pushed = p.pushed) :
    Limits env S E (fun _ => True) (onPipe h x) :=
  limits_onPipe h (fun p a q e => (hx p a q e).trans (List.append_nil _).symm) (by simp)

section Pipes

variable (hw : GivesTypes (Limits env S E) (fun _ => Limited env S E) walk) (h : PipeHandle)
  (element : Descriptor) (site : Site ScopeId)

include hw

theorem limits_getPiece (fuel : Nat) {n : Nat} (hn : n ≤ env.config.maxElements) :
    Limits env S E (fun _ => True) (getPiece walk h element site fuel n) := by
  have hH := asserts_limits env S E
  induction fuel generalizing n with
  | zero => cases n <;> exact hH.pure trivial
  | succ fuel ih =>
    cases n with
    | zero => exact hH.pure trivial
    | succ n =>
      refine hH.andThen (limits_aside h fun p a q e => ?_) fun granted => ?_
      · obtain ⟨-, rfl⟩ := Pipe.ask_eq_ok.1 e
        exact (Pipe.pushed_record _ _).trans (List.append_nil _)
      dsimp only
      rw [← bind_assoc]
      have hsize : min (max granted 1) (n + 1) ≤ env.config.maxElements :=
        Nat.le_trans (Nat.min_le_right _ _) hn
      have hread := (hH.repeatM (hw element site) (min (max granted 1) (n + 1))).also
        (Keeps.repeatM_all (Keeps.ofTrue _) _)
      have hpushed : Limits env S E (fun _ => True) (do
          let chunk ← repeatM (min (max granted 1) (n + 1)) (walk element site)
          onPipe h (Pipe.push chunk)) :=
        hread.bind_of (fun _ => goesOn_onPipe h _) fun chunk hchunk =>
          limits_push h (hchunk.2.1.trans_le hsize) hchunk.1
      refine hH.andThen hpushed fun _ => hH.andThen (limits_aside h fun p a q e => ?_) fun _ => ih ?_
      · rw [← modify_eq_ok.1 e]
        rfl
      · exact Nat.le_trans (Nat.sub_le _ _) hn

theorem limits_getPieces (fuel : Nat) :
    Limits env S E (fun _ => True) (getPieces env walk h element site fuel) := by
  have hH := asserts_limits env S E
  induction fuel with
  | zero => exact hH.pure trivial
  | succ fuel ih =>
    refine hH.andThen hH.plain.count fun n => .ite ?_ (hH.lift_bind fun _ hcount => ?_)
    · refine hH.andThen (limits_push h (Nat.zero_le _) (by simp)) fun _ => limits_aside h fun p a q e => ?_
      rw [← modify_eq_ok.1 e]
      rfl
    · exact hH.andThen (limits_getPiece hw h element site n (checkCount_eq_ok hcount)) fun _ => ih

omit h element in
theorem limits_getPipe (element : Nat) (current : Value) :
    Limits env S E (Limited env S E) (getPipe env walk element current site) := by
  have hH := asserts_limits env S E
  refine hH.lift_bind fun h _ => hH.lift_bind fun d _ => hH.lift_bind fun _ _ => ?_
  refine hH.andThen (limits_aside h fun p a q e => ?_) fun _ => .see fun s => ?_
  · obtain ⟨-, -, rfl⟩ := Pipe.enter_eq_ok.1 e
    rfl
  · exact hH.andThen (limits_getPieces hw h d _ _) fun _ => hH.pure (.plain fun _ => nofun)

end Pipes

/-! ### Operations -/

section Operations

variable (hroutines : env.interface.PassesValues)

include hroutines

/-- Values that keep within the limits are closed under the forms of types. -/
theorem typing_limited (S E : State) :
    Typing env (Limits env S E) (fun _ => Limited env S E) := by
  have hslots : ∀ {layout : Nat} {fields : List Descriptor} {slots : List Value},
      Slots env (fun _ => Limited env S E) layout fields slots → Limited env S E (.struct slots) := by
    intro layout fields slots h
    refine .struct fun v hv => ?_
    obtain ⟨k, hk⟩ := List.mem_iff_getElem?.1 hv
    rcases h k v hk with rfl | ⟨d, -, hd⟩
    · exact .plain Value.not_occurs_void
    · exact hd
  exact {
    toAsserts := asserts_limits env S E
    ofWord := fun _ => .plain fun _ => Value.not_occurs_ofWord _ _ _
    struct := fun _ h => hslots h
    nested := fun h => hslots h
    emptyArm := fun _ _ => .union (.plain Value.not_occurs_void)
    arm := fun _ _ _ _ _ h => .union h
    ignore := .plain fun _ => Value.not_occurs_pointer _ _
    converted := fun hroutine _ hw hv => hroutines _ _ hroutine _ _ _ hv ▸ hw
    align := .plain Value.not_occurs_void
    void := .plain Value.not_occurs_void
    context := limits_getContext
    array := fun site preset hw => limits_getArray hw _ _ _ _ site preset
    pointer := fun site hw => limits_getPointer hw _ _ site
    deletedNodes := limits_getDeleted }

theorem limits_walk (room : Nat) :
    GivesTypes (Limits env S E) (fun _ => Limited env S E) (Unmarshal.walk env room) :=
  (typing_limited hroutines S E).walks room

theorem limits_getParameter (d : Descriptor) (current : Value) (site : Site ScopeId) :
    Limits env S E (Limited env S E) (getParameter env d current site) := by
  unfold getParameter
  split
  · exact limits_getPipe (limits_walk hroutines _) _ _ _
  · exact limits_getContext _ _
  · exact limits_walk hroutines _ _ _

theorem limits_readParameter (params : List Value) (scope : ScopeId) (p : Parameter) :
    Limits env S E (fun v => v.1 = p.index ∧ Limited env S E v.2) (readParameter env params scope p) := by
  have hH := asserts_limits env S E
  unfold readParameter
  cases params[p.index]? with
  | none => exact hH.throw _
  | some current =>
    refine hH.bind (limits_getParameter hroutines _ _ _) fun v => ?_
    refine hH.andThen (limits_flush (limits_walk hroutines _)) fun _ => ?_
    exact .see fun s => hH.andThen (hH.plain.setField _ _ _) fun _ => hH.pure fun hv => ⟨rfl, hv⟩

theorem limits_getParameters (offset : Nat) (params : List Value) :
    Limits env S E (fun values => ∃ list, env.vector.parameters offset = .ok list ∧
        List.Forall₂ (fun p v => v.1 = p.index ∧ Limited env S E v.2) list values)
      (getParameters env offset params) := by
  have hH := asserts_limits env S E
  refine hH.lift_bind fun list hlist => ?_
  refine .see fun s => hH.andThen (hH.plain.openScope _) fun scope => ?_
  refine hH.bind (hH.mapM fun p _ => limits_readParameter hroutines params scope p) fun values => ?_
  exact hH.andThen (hH.plain.verifyLate _) fun _ => hH.pure fun h => ⟨list, hlist, h⟩

end Operations

end Unmarshal

namespace Machine

open Unmarshal (Limited)

/-- What an operation leaves keeps within the limits of its machine, where it was read between the
states `S` and `E`. -/
structure WithinLimits (m : Machine) (world : Surroundings) (offset : Nat) (S E : Unmarshal.State)
    (o : Outcome Source (List Value)) : Prop where
  /-- The values of the parameters that are read. -/
  parameters : ∃ list results, m.interface.vector.parameters offset = .ok list ∧
    o.result = .ok results ∧ ∀ p ∈ list, ∃ v, results[p.index]? = some v ∧
      v.ArraysWithin m.config.maxElements ∧ Limited { m.startOperation with } S E v
  /-- The contents of the cells that are made. -/
  cells : ∀ c v, world.heap.allocations ≤ c → o.surroundings.heap.load? c = some v →
    v.ArraysWithin m.config.maxElements ∧ Limited { m.startOperation with } S E v
  /-- The chunks that are handed to a pipe. -/
  chunks : ∀ (h : PipeHandle) q, o.surroundings.pipes[h]? = some q → ∃ p new,
    world.pipes[h]? = some p ∧ q.pushed = p.pushed ++ new ∧
      ∀ chunk ∈ new, (Value.array chunk).ArraysWithin m.config.maxElements ∧
        ∀ v ∈ chunk, Limited { m.startOperation with } S E v

/-- What a committed heap holds was held before. -/
theorem load?_of_commit {previous : NodeTable} {s : Unmarshal.State} {c : CellId} {v : Value}
    (h : (commit previous s).heap.load? c = some v) : s.heap.load? c = some v := by
  by_cases hc : c ∈ s.deleted.reverse.filterMap previous.cellOf?
  · exact absurd (h.symm.trans (Heap.load?_release_all hc s.heap)) (by simp)
  · exact (congrArg Option.join (Heap.getElem?_release_all hc s.heap)).symm.trans h

/-- **Limits bound every array that is read.** Whatever a message holds, where routines give values
back as they are: no array in a parameter, a new cell or a chunk of a pipe is longer than the limit of
elements; and each was read from the message in whole or in part, where the elements that are filled
in are no more than the limit of these. -/
theorem unmarshal_within_limits (m : Machine) (world : Surroundings) (offset : Nat)
    (params : List Value) (source : Source) (hroutines : m.interface.PassesValues)
    {results : List Value} (he : (m.unmarshal world offset params source).result = .ok results) :
    ∃ values E, Unmarshal.getParameters { m.startOperation with } offset params
        { world with reader := { source } } = .ok values E ∧
      m.WithinLimits world offset { world with reader := { source } } E
        (m.unmarshal world offset params source) := by
  obtain ⟨values, E, hrun, hresult, hworld, -⟩ := unmarshal_eq_ok he
  refine ⟨values, E, hrun, ?_⟩
  have hlimits : Unmarshal.Limits { m.startOperation with } { world with reader := { source } } E _
      (Unmarshal.getParameters { m.startOperation with } offset params) :=
    Unmarshal.limits_getParameters hroutines offset params
  obtain ⟨hheld, list, hlist, hvalues⟩ :=
    hlimits.step (.refl _) (.start _ _ _) hrun (.refl _)
  have hindex := Unmarshal.index_lt_of_getParameters hlist hrun
  constructor
  · refine ⟨list, _, hlist, hresult, fun p hp => ?_⟩
    obtain ⟨v, hv, -, -, -, hlimited⟩ :=
      (replaced_of_read (R := fun _ v => Limited { m.startOperation with } _ E v) hvalues hindex).1 p hp
    exact ⟨v, hv, hlimited.arraysWithin, hlimited⟩
  · intro c v hc hv
    rw [hworld] at hv
    have hlimited := hheld.cells c v hc (load?_of_commit hv)
    exact ⟨hlimited.arraysWithin, hlimited⟩
  · intro h q hq
    rw [hworld] at hq
    obtain ⟨p, new, hp, hpushed, hnew⟩ := hheld.chunks h q hq
    refine ⟨p, new, hp, hpushed, fun chunk hc => ?_⟩
    obtain ⟨hlength, hall⟩ := hnew chunk hc
    exact ⟨.array hlength fun v hv => (hall v hv).arraysWithin, hall⟩

/-- A vector whose only parameter list, at 56, has a converted long, and an array of five longs of which
a part is sent. -/
def partVector : TypeVector where
  bytes := #[8, 0, 10, 0, 1, 255, 255, 255, 0, 0, 0, 0, 9, 254, 255, 255, 1, 255, 255, 255, 0, 0, 0,
    255, 0, 0, 0, 0, 0, 0, 0, 255, 4, 0, 0, 0, 0, 0, 0, 255, 0, 0, 0, 0, 3, 9, 0, 255, 2, 0, 0, 0, 9,
    254, 255, 255, 2, 0, 0, 0, 0, 0, 0, 0, 34, 2, 255, 255, 0, 0, 0, 0, 12, 0, 0, 0, 254, 255, 255,
    255, 1, 0, 0, 0, 21, 2, 1, 255, 16, 0, 0, 0, 254]
  order := .little
  minor := 10

/-- A machine that takes no longer array, and fills in no more than three elements. -/
def partMachine : Machine where
  interface := { vector := partVector, routines := [.identity] }
  config := { maxElements := 5, maxFilled := 3 }

/-- Two of five longs are sent. -/
theorem unmarshal_within_limits_part :
    let m := partMachine
    let world : Surroundings := {}
    let source : Source := .ofBytes [7, 0, 0, 0, 1, 0, 0, 0, 2, 0, 0, 0, 10, 0, 0, 0, 11, 0, 0, 0]
    let params : List Value := [.void, .void, .ulong 2]
    let o := m.unmarshal world 56 params source
    m.interface.PassesValues ∧
      o.result = .ok [.long 7, .array [.long 0, .long 10, .long 11, .long 0, .long 0], .ulong 2] ∧
        ∃ values E, Unmarshal.getParameters { m.startOperation with } 56 params
            { world with reader := { source } } = .ok values E ∧
          m.WithinLimits world 56 { world with reader := { source } } E o :=
  have hroutines : partMachine.interface.PassesValues := fun index routine h calls w v hv => by
    cases index with
    | zero =>
      obtain rfl : Routine.identity = routine := Except.ok.inj h
      exact (Except.ok.inj hv).symm
    | succ index => exact absurd h (by simp [Interface.routine, partMachine])
  have he : (partMachine.unmarshal {} 56 [.void, .void, .ulong 2]
      (.ofBytes [7, 0, 0, 0, 1, 0, 0, 0, 2, 0, 0, 0, 10, 0, 0, 0, 11, 0, 0, 0])).result
        = .ok [.long 7, .array [.long 0, .long 10, .long 11, .long 0, .long 0], .ulong 2] := by
    decide +kernel
  ⟨hroutines, he, unmarshal_within_limits _ _ _ _ _ hroutines he⟩

end Machine

end Ndr
