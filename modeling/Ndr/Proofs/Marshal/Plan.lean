import Ndr.Proofs.Field
import Ndr.Proofs.Marshal.Traversal

/-!
Plans: writing as steps that do not mention a byte order. Each operation follows one plan in all
byte orders. The fields of its message are those of the steps of the plan, and a run in another
order takes the same steps, adds the same fields and ends alike.
-/

namespace Ndr.Marshal

/-- An end with another message. -/
def withWriter {α : Type} (w : Writer) :
    EStateM.Result Fault State α → EStateM.Result Fault State α
  | .ok a t => .ok a { t with writer := w }
  | .error e t => .error e { t with writer := w }

/-- An action that neither sees nor changes the message. -/
def Aside {α : Type} (x : Marshalling α) : Prop :=
  ∀ s w, x { s with writer := w } = withWriter w (x s)

namespace Aside

variable {α β : Type}

/-- It takes no notice of the message. -/
theorem iff_blind {x : Marshalling α} :
    Aside x ↔ ∀ w, Blind (fun s : State => { s with writer := w }) x := by
  have hlast : ∀ (w : Writer) (r : EStateM.Result Fault State α),
      withWriter w r = withLast (fun s : State => { s with writer := w }) r := by
    intro w r
    cases r <;> rfl
  unfold Aside Blind
  simp only [hlast]
  exact forall_comm

theorem ends {x : Marshalling α} (h : Aside x) (s : State) : x s = withWriter s.writer (x s) :=
  h s s.writer

theorem writer_eq {x : Marshalling α} (h : Aside x) {s t : State} {a : α} (hx : x s = .ok a t) :
    t.writer = s.writer := by
  have hs := h.ends s
  rw [hx] at hs
  have ht := (EStateM.Result.ok.inj hs).2
  rw [ht]

theorem throw (e : Fault) : Aside (throw e : Marshalling α) := iff_blind.2 fun _ => .throw e

theorem pure (a : α) : Aside (pure a) := iff_blind.2 fun _ => .pure a

theorem bind {x : Marshalling α} {f : α → Marshalling β} (hx : Aside x) (hf : ∀ a, Aside (f a)) :
    Aside (x >>= f) :=
  iff_blind.2 fun w => (iff_blind.1 hx w).bind fun a => iff_blind.1 (hf a) w

theorem lift (x : Except Fault α) : Aside (liftM x : Marshalling α) := iff_blind.2 fun _ => .lift x

theorem modify {f : State → State} (h : ∀ s w, f { s with writer := w } = { f s with writer := w }) :
    Aside (modify f : Marshalling PUnit) := iff_blind.2 fun w => .modify fun s => h s w

theorem onPipe (h : PipeHandle) (x : EStateM Fault Pipe α) : Aside (onPipe h x) :=
  iff_blind.2 fun w => by
    refine Blind.onPart ?_ ?_ _
    · exact fun _ => rfl
    · exact fun _ _ => rfl

end Aside

/-- How an operation goes on: its steps of the writer, and between them what does not concern the
message. -/
inductive Plan : Type → Type 1 where
  | write (step : Writer.Step) : Plan Unit
  | aside {α : Type} (x : Marshalling α) (h : Aside x) : Plan α
  | bind {α β : Type} (x : Plan α) (f : α → Plan β) : Plan β
  /-- A call that is recorded however the plan ends. -/
  | recorded (x : Plan Unit) (c : Routine.Call) : Plan Unit

namespace Plan

variable {α : Type}

/-- Follow a plan in some representation. -/
def run (r : Representation) {α : Type} : Plan α → Marshalling α
  | write step => put (step.perform r)
  | aside x _ => x
  | bind x f => x.run r >>= fun a => (f a).run r
  | recorded x c => tryFinally (x.run r) (recordCall c)

/-- The fields that a plan adds to the message. -/
def fields (r : Representation) {α : Type} : Plan α → State → List Field
  | write step, s => step.fields s.writer.position
  | aside _ _, _ => []
  | bind x f, s => x.fields r s ++ match x.run r s with
    | .ok a t => (f a).fields r t
    | .error _ _ => []
  | recorded x _, s => x.fields r s

/-! ### What a plan writes -/

/-- A plan adds its fields to the message. -/
theorem wrote_run (r : Representation) (p : Plan α) {s t : State} {a : α}
    (hb : 8 ≤ s.writer.bufferSize) (h : p.run r s = .ok a t) :
    Writer.Wrote s.writer t.writer (encodeFields r.integers (p.fields r s)) := by
  induction p generalizing s t with
  | write step =>
    have h : put (step.perform r) s = .ok a t := h
    obtain ⟨w, hw, rfl⟩ := onPart_eq_ok.1 h
    exact Writer.wrote_perform hb hw
  | aside x hx => exact hx.writer_eq h ▸ .refl
  | bind x f ihx ihf =>
    obtain ⟨b, u, hu, h⟩ := bind_eq_ok.1 h
    have hx := ihx hb hu
    have hf := ihf b (hx.bufferSize ▸ hb) h
    have := hx.trans hf
    rw [← encodeFields_append] at this
    rwa [fields, hu]
  | recorded x c ih =>
    obtain ⟨u, _, hu, hc⟩ := tryFinally_eq_ok.1 h
    have hw : t.writer = u.writer := by rw [← modify_eq_ok.1 hc]
    exact hw ▸ ih hb hu

/-! ### Plans in two orders -/

/-- Two states that differ in the bytes of the message alone. -/
structure Beside (s t : State) : Prop where
  writer : s.writer.Twin t.writer
  rest : t = { s with writer := t.writer }

theorem tandem_put {x y : Put α} (h : Tandem Writer.Twin x y) : Tandem Beside (put x) (put y) := by
  rintro s t ⟨hw, ht⟩
  have hends := h _ _ hw
  unfold put onPart
  generalize x s.writer = r, y t.writer = r' at hends
  cases hends with
  | ok hw' => exact .ok ⟨hw', by rw [ht]⟩
  | error hw' => exact .error ⟨hw', by rw [ht]⟩

theorem tandem_aside {x : Marshalling α} (h : Aside x) : Tandem Beside x x := by
  rintro s t ⟨hw, ht⟩
  have hends : EndsAlike Beside (withWriter s.writer (x s)) (withWriter t.writer (x s)) := by
    cases x s with
    | ok a u => exact .ok ⟨hw, rfl⟩
    | error e u => exact .error ⟨hw, rfl⟩
  rw [← h.ends, ← h, ← ht] at hends
  exact hends

/-- In another order a plan goes the same way. -/
theorem tandem_run (r : Representation) (order : ByteOrder) (p : Plan α) :
    Tandem Beside (p.run r) (p.run (r.inOrder order)) := by
  induction p with
  | write step => exact tandem_put (Writer.tandem_perform r order step)
  | aside x h => exact tandem_aside h
  | bind x f ihx ihf => exact ihx.bind ihf
  | recorded x c ih => exact ih.tryFinally (tandem_aside (.modify fun _ _ => rfl))

/-- In another order a plan adds the same fields. -/
theorem fields_inOrder (r : Representation) (order : ByteOrder) (p : Plan α) {s t : State}
    (h : Beside s t) : p.fields (r.inOrder order) t = p.fields r s := by
  induction p generalizing s t with
  | write step =>
    unfold fields
    rw [h.writer.position]
  | aside => rfl
  | bind x f ihx ihf =>
    have hends := tandem_run r order x s t h
    unfold fields
    rw [ihx h]
    generalize x.run r s = e, x.run (r.inOrder order) t = e' at hends
    cases hends with
    | ok h' => exact congrArg _ (ihf _ h')
    | error => rfl
  | recorded x c ih => exact ih h

end Plan

/-! ### Operations follow plans -/

variable {env env' : Env}

/-- Two actions that follow one plan, each in the representation of its side. -/
def Planned (env env' : Env) {α : Type} (x y : Marshalling α) : Prop :=
  ∃ p : Plan α, p.run env.representation = x ∧ p.run env'.representation = y

namespace Planned

variable {α β : Type}

theorem aside {x : Marshalling α} (h : Aside x) : Planned env env' x x := ⟨.aside x h, rfl, rfl⟩

theorem write (step : Writer.Step) : Planned env env' (put (step.perform env.representation))
    (put (step.perform env'.representation)) := ⟨.write step, rfl, rfl⟩

theorem bind {x y : Marshalling α} {f g : α → Marshalling β} (hxy : Planned env env' x y)
    (h : ∀ a, Planned env env' (f a) (g a)) : Planned env env' (x >>= f) (y >>= g) := by
  obtain ⟨p, rfl, rfl⟩ := hxy
  choose q hf hg using h
  exact ⟨.bind p q, congrArg _ (funext hf), congrArg _ (funext hg)⟩

end Planned

/-- The token of a context is one step. -/
theorem putToken_eq (env : Env) (u : Uuid) :
    putToken env u = put (Writer.Step.perform env.representation (.token u)) := by
  simp only [Writer.Step.perform, put_bind]
  rfl

/-- The same operation in another byte order. -/
def Env.inOrder (env : Env) (order : ByteOrder) : Env :=
  { env with representation := env.representation.inOrder order }

/-- A look at a cell does not look at the writer. -/
theorem aside_sight (c : CellId) : Aside ((do return (← get).nodes) >>= fun nodes : NodeTable => do
    let (sighting, nodes) ← nodes.sight c
    modify fun s => { s with nodes }
    return sighting) := by
  have hnodes : Aside (do return (← get).nodes) := fun _ _ => rfl
  exact hnodes.bind fun _ => (Aside.lift _).bind fun _ =>
    (Aside.modify fun _ _ => rfl).bind fun _ => .pure _

theorem relates_planned (env : Env) (order : ByteOrder) :
    RelatesSteps env (env.inOrder order) (fun _ => True) (Planned env (env.inOrder order)) where
  pure a := .aside (.pure a)
  throw e := .aside (.throw e)
  bind := .bind
  align n := .write (.align n)
  count v := .write (.count v)
  shortCount v := .write (.shortCount v)
  scalar kind v := .write (.scalar kind v)
  run bytes := .write (.run bytes)
  token u := by
    rw [putToken_eq, putToken_eq]
    exact .write (.token u)
  onPipe h _ x := .aside (.onPipe h x)
  call c := .aside (.modify fun _ _ => rfl)
  recorded c := by
    rintro ⟨p, rfl, rfl⟩
    exact ⟨.recorded p c, rfl, rfl⟩
  seeCalls {α f g} h := by
    have hcalls : Aside (do return (← get).calls) := fun _ _ => rfl
    have hall : Planned env (env.inOrder order) ((do return (← get).calls) >>= f)
      ((do return (← get).calls) >>= g) := .bind (.aside hcalls) h
    exact hall
  sight c := .aside (aside_sight c)
  defer _ := .aside (.modify fun _ _ => rfl)
  takeDeferred h := by
    have htake : Aside takeDeferred := fun _ _ => rfl
    exact Planned.bind (.aside htake) fun ds => h ds fun _ _ => trivial

theorem planned_putParameters (env : Env) (order : ByteOrder) (offset : Nat)
    (params : List Value) : Planned env (env.inOrder order) (putParameters env offset params)
      (putParameters (env.inOrder order) offset params) := by
  have hT : env.Twin (env.inOrder order) := ⟨_, order, _, rfl⟩
  have hE : env.Alike (env.inOrder order) fun _ _ => True := ⟨hT, rfl, fun _ => .refl _ _⟩
  have hN : env.vector.ClosedAtHand fun _ _ => True := (env.vector.closed_true).atHand
  have hR := relates_planned env order
  have hdeleted : Planned env (env.inOrder order) (putDeleted env)
      (putDeleted (env.inOrder order)) := hR.putDeleted rfl
  have hpointer : ∀ {walk walk' : Walk},
      RelatesWalks (fun _ _ => True) (Planned env (env.inOrder order)) walk walk' →
        ∀ {d : Descriptor} {kind props pointee} {site : Site Scope}, True →
          d.form = .pointer kind props pointee → ∀ v,
          Planned env (env.inOrder order) (putPointer env walk kind pointee v site)
            (putPointer (env.inOrder order) walk' kind pointee v site) :=
    fun hw _ _ _ _ _ _ _ v => hR.putPointer hw hT rfl (fun _ _ => trivial) trivial _ v _
  refine hR.putParameters hE hN (fun _ _ _ _ => hdeleted) hpointer rfl (fun _ _ _ _ => trivial)
    fun room => ?_
  exact hR.flush (hR.walk hE hN (fun _ _ _ _ => hdeleted) hpointer room) hE
    fun _ _ => ⟨rfl, fun _ _ => trivial⟩

/-- An operation follows one plan in every byte order. -/
theorem exists_plan (env : Env) (offset : Nat) (params : List Value) : ∃ p : Plan Unit,
    ∀ order, putParameters (env.inOrder order) offset params
      = p.run (env.representation.inOrder order) := by
  obtain ⟨p, hbig, hlittle⟩ := planned_putParameters (env.inOrder .big) .little offset params
  refine ⟨p, fun order => ?_⟩
  cases order with
  | big => exact hbig.symm
  | little => exact hlittle.symm

end Ndr.Marshal
