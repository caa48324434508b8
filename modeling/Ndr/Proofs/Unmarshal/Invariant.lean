import Ndr.Proofs.Unmarshal.Composition

/-!
What reading keeps. A property of the heap, the nodes, the contexts and what is put off is kept by
every walk where the few steps keep it that change these.
-/

namespace Ndr.Unmarshal

variable {env : Env} {I : State → Prop} {own : CellId → Prop} {α : Type}

/-- An action that keeps `I`. -/
abbrev Holds (I : State → Prop) (x : Unmarshalling α) : Prop := Keeps I (fun _ => True) x

/-- What reading does to cells, and what it is told to do to them. -/
abbrev State.effect (s : State) :
    Heap × NodeTable × List (Deferred ScopeId) × List CellId × List Nat :=
  (s.heap, s.nodes, s.deferred, s.allocated, s.deleted)

theorem holds_fetch_of_frame (frame : ∀ s t : State, t.effect = s.effect → I s → I t)
    (x : Fetch α) : Holds I (fetch x) :=
  Keeps.onPart (fun s reader hs => frame s { s with reader } rfl hs) x

theorem holds_scopeOf (id : ScopeId) : Holds I (scopeOf id) :=
  Keeps.get.bind fun _ _ => .pure trivial

/-- A property of what reading does to cells is kept where a context is read. -/
theorem holds_getContext_of_frame (frame : ∀ s t : State, t.effect = s.effect → I s → I t)
    (env : Env) (direction : ContextDirection) (current : Value) :
    Holds I (getContext env direction current) := by
  have hadopt : ∀ (registry : Registry) held u, Holds I (adoptContext registry held u) := by
    intro registry held u
    unfold adoptContext
    refine .ite (Keeps.bind (Keeps.modify fun s hs => frame s _ rfl hs) fun _ _ => .pure trivial)
      (.ite ?_ (.pure trivial))
    exact Keeps.bind (Keeps.modify fun s hs => frame s _ rfl hs) fun _ _ => .pure trivial
  rw [getContext_eq]
  refine Keeps.get.bind fun s _ => ?_
  cases s.contexts with
  | none => exact .throw _
  | some registry =>
    refine (holds_fetch_of_frame frame _).bind fun u _ => ?_
    cases env.side with
    | server => exact (Keeps.lift _).bind fun _ _ => .pure trivial
    | client => exact (hadopt _ _ _).bind fun _ _ => .pure trivial

section

variable (frame : ∀ s t : State, t.nodes = s.nodes → t.deferred = s.deferred →
  t.deleted = s.deleted → I s → I t)

include frame

/-- A property that is not about cells is kept where one is made. -/
theorem holds_allocate_of_frame : Holds I allocate :=
  Keeps.get.bind fun _ _ => (Keeps.lift _).bind fun _ _ => Keeps.get.bind fun _ _ =>
    Keeps.bind (Keeps.modify fun s hs => frame s _ rfl rfl rfl hs) fun _ _ => .pure trivial

/-- A property that is not about cells is kept where one is filled. -/
theorem holds_store_of_frame (c : CellId) (v : Value) : Holds I (store c v) :=
  Keeps.get.bind fun _ _ =>
    .ite (Keeps.modify fun s hs => frame s _ rfl rfl rfl hs) (.throw _)

end

/-- **What every step keeps**: a property of what reading does to cells and to contexts is kept by
every step of reading, where those keep it that change cells and contexts. -/
theorem composesSteps_of_frame
    (frame : ∀ s t : State,
      (t.heap, t.nodes, t.deferred, t.allocated, t.contexts, t.adopted, t.closed)
        = (s.heap, s.nodes, s.deferred, s.allocated, s.contexts, s.adopted, s.closed) → I s → I t)
    (context : ∀ direction current, Holds I (getContext env direction current))
    (allocate : Keeps I own allocate) (store : ∀ {c}, own c → ∀ v, Holds I (store c v))
    (register : ∀ id c, Holds I (register id c))
    (defer : ∀ {d : Deferred ScopeId}, own d.cell → Holds I (defer d))
    (takeDeferred : Keeps I (fun ds => ∀ d ∈ ds, own d.cell) takeDeferred) :
    ComposesSteps env own (Holds I) := by
  have hfetch : ∀ {α : Type} (x : Fetch α), Holds I (fetch x) :=
    fun x => Keeps.onPart (fun s reader hs => frame s { s with reader } rfl hs) x
  have hmodify : ∀ {f : State → State}, (∀ s, ((f s).heap, (f s).nodes, (f s).deferred,
      (f s).allocated, (f s).contexts, (f s).adopted, (f s).closed)
        = (s.heap, s.nodes, s.deferred, s.allocated, s.contexts, s.adopted, s.closed)) →
      Holds I (modify f : Unmarshalling PUnit) := fun h => Keeps.modify fun s hs => frame s _ (h s) hs
  have hset : ∀ id field v, Holds I (setField id field v) := by
    intro id field v
    cases v with
    | none => exact .pure trivial
    | some v => exact hmodify fun _ => rfl
  exact {
    pure := fun _ => .pure trivial
    throw := fun e => .throw e
    bind := fun hx hf => hx.bind fun a _ => hf a
    align := fun _ => hfetch _
    count := hfetch _
    shortCount := hfetch _
    scalar := fun _ => hfetch _
    run := fun _ => hfetch _
    context
    onPipe := fun _ _ _ => Keeps.onPart (fun s pipes hs => frame s { s with pipes } rfl hs) _
    call := fun _ => hmodify fun _ => rfl
    delete := fun _ => hmodify fun _ => rfl
    openScope := fun _ => Keeps.modifyGet fun s hs => ⟨frame s _ rfl hs, trivial⟩
    setField := hset
    scopeOf := holds_scopeOf
    keepLate := fun _ _ => hmodify fun _ => rfl
    verifyLate := fun scope => Keeps.get.bind fun _ _ =>
      Keeps.bind (hmodify fun _ => rfl) fun _ _ => (holds_scopeOf scope).bind fun _ _ =>
        Keeps.forM (P := fun _ => True) (fun _ _ => (Keeps.lift _).weaken) fun _ _ => trivial
    seeHeap := fun hf => Keeps.get.bind fun s _ => hf s.heap
    seeCalls := fun hf => Keeps.get.bind fun s _ => hf s.calls
    seeRest := fun hf => Keeps.get.bind fun s _ => hf s.reader.rest.length
    store
    takeDeferred := fun hf => takeDeferred.bind hf
    allocate := fun hf => allocate.bind hf
    register
    sight := fun _ => hmodify fun _ => rfl
    defer
    seeNodes := fun hf => Keeps.get.bind fun s _ => hf s.nodes }

end Ndr.Unmarshal
