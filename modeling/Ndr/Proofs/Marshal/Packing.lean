import Ndr.Proofs.Marshal.Faults
import Ndr.Proofs.Marshal.Growth
import Ndr.Proofs.Packing
import Ndr.Proofs.TypeVector.Alignment

/-!
What is written of values does not depend on how it is cut: a walk adds the same bytes, and ends in
the same way, with chunks and vectors of any size, and always finds the room it needs.
-/

namespace Ndr

/-- A scalar, and the padding ahead of it; the padding alone where the scalar is refused. -/
theorem Writer.writes_putScalar (out : List UInt8) (rep : Representation) (kind : Scalar) (v : Value) :
    ∃ r bytes, Writes (putScalar rep kind v) out r bytes ∧ Dry r := by
  have halign : Writes (align kind.size) out (.ok ())
      (List.replicate (padding out.length kind.size) 0) := writes_align kind.size_dvd_eight
  unfold putScalar
  cases hword : kind.word? v with
  | none => exact ⟨_, _, halign.bind (writes_throw _), by simp⟩
  | some word =>
    have hrep := kind.dry_checkRepresentation rep
    have henum := kind.dry_checkEnum (v.toInt?.getD 0)
    cases h1 : kind.checkRepresentation rep with
    | error e => exact ⟨_, _, halign.bind (Writes.bind_error (writes_lift _)), h1 ▸ hrep⟩
    | ok =>
      cases h2 : kind.checkEnum (v.toInt?.getD 0) with
      | error e =>
        exact ⟨_, _, halign.bind ((writes_lift _).bind (Writes.bind_error (writes_lift _))), h2 ▸ henum⟩
      | ok =>
        refine ⟨_, _, halign.bind ((writes_lift _).bind ((writes_lift _).bind (writes_putTogether ?_))),
          by simp⟩
        rw [ByteOrder.length_encode, List.append_nil, List.append_nil, List.length_append,
          List.length_replicate]
        exact mod_eight_add_le kind.size_dvd_eight (dvd_add_padding kind.size_pos)

/-! ### Pipes -/

theorem Writer.exists_ended {σ α : Type} (x : EStateM.Result Fault σ α) : ∃ r s, x = ended r s := by
  cases x with
  | ok a s => exact ⟨.ok a, s, rfl⟩
  | error e s => exact ⟨.error e, s, rfl⟩

namespace Pipe

/-- A step of a pipe that keeps its application, and runs out of room where the application does. -/
def Faithful {α : Type} (x : EStateM Fault Pipe α) : Prop :=
  ∀ ⦃p r p'⦄, x p = Writer.ended r p' → p'.application = p.application ∧
    ∀ e, r = .error e → e.IsExhaustion → ∃ history n, p.application.cut history n = .error e

variable {α : Type} {x : EStateM Fault Pipe α}

/-- A step that ends well or with a fault of the pipe. -/
theorem Faithful.of_eq (h : ∀ p, ∃ (r : Except Fault α) (p' : Pipe), x p = Writer.ended r p' ∧
    p'.application = p.application ∧
    ∀ e, r = .error e → e.IsExhaustion → ∃ history n, p.application.cut history n = .error e) :
    Faithful x := by
  intro p r p' e
  obtain ⟨r1, p1, e1, h1⟩ := h p
  have hinj : r = r1 ∧ p' = p1 := by
    rw [e1] at e
    cases r <;> cases r1 <;> simp_all [Writer.ended]
  obtain ⟨rfl, rfl⟩ := hinj
  exact h1

theorem faithful_ask (n : Nat) : Faithful (ask n) :=
  .of_eq fun _ => ⟨.ok _, _, rfl, rfl, by simp⟩

theorem faithful_pull (n : Nat) : Faithful (pull n) := by
  refine .of_eq fun p => ?_
  unfold pull
  cases h : p.application.cut p.history n with
  | error e =>
    refine ⟨.error e, _, rfl, rfl, ?_⟩
    rintro _ ⟨⟩ -
    exact ⟨_, _, h⟩
  | ok k =>
    dsimp only
    split
    · exact ⟨.error _, _, rfl, rfl, by simp⟩
    · exact ⟨.ok _, _, rfl, rfl, by simp⟩

theorem faithful_enter (direction : Direction) : Faithful (enter direction) := by
  refine .of_eq fun p => ?_
  unfold enter
  split
  · exact ⟨.error _, _, rfl, rfl, by simp⟩
  · split
    · exact ⟨.ok _, _, rfl, rfl, by simp⟩
    · exact ⟨.error _, _, rfl, rfl, by simp⟩

theorem faithful_modify {f : Pipe → Pipe} (h : ∀ p, (f p).application = p.application) :
    Faithful (modify f : EStateM Fault Pipe PUnit) :=
  .of_eq fun p => ⟨.ok _, _, rfl, h p, by simp⟩

theorem faithful_read (f : Pipe → α) : Faithful (do return f (← get)) :=
  .of_eq fun p => ⟨.ok (f p), p, rfl, rfl, by simp⟩

end Pipe

namespace Marshal

/-! ### Drafts -/

/-- What a walk has done, but for the chunks that the bytes are cut into. -/
structure Draft where
  out : List UInt8
  nodes : NodeTable
  deferred : List (Deferred Scope)
  pipes : Array Pipe
  calls : List Routine.Call

/-- A state with this draft in the chunks of a writer. -/
def Draft.on (f : Draft) (w : Writer) : State where
  writer := w
  nodes := f.nodes
  deferred := f.deferred
  pipes := f.pipes
  calls := f.calls

/-- A fault that an application answers: a routine, or the supply of a pipe. -/
def Answered (i : Interface) (apps : Array Pipe.Application) (e : Fault) : Prop :=
  (∃ r ∈ i.routines, ∃ calls v, r.toWire calls v = .error e) ∨
    ∃ app ∈ apps, ∃ history n, app.cut history n = .error e

variable {i : Interface} {apps : Array Pipe.Application} {α β : Type}

/-- A walk that makes `f'` of a draft `f` and ends in `r`, whatever the sizes of chunks and vectors
are. -/
structure Goes (i : Interface) (apps : Array Pipe.Application) (x : Marshalling α) (f : Draft)
    (r : Except Fault α) (f' : Draft) : Prop where
  grows : f.out <+: f'.out
  pipes : f'.pipes.map (·.application) = apps
  fault : ∀ e, r = .error e → e.IsExhaustion → Answered i apps e
  runs : ∀ ⦃start b v w⦄, Writer.Packs start b v f.out w →
    ∃ w', x (f.on w) = Writer.ended r (f'.on w') ∧ Writer.Packs start b v f'.out w'

/-- A walk that does the same with chunks and vectors of any size. -/
def Uniform (i : Interface) (apps : Array Pipe.Application) (x : Marshalling α) : Prop :=
  ∀ f : Draft, f.pipes.map (·.application) = apps → ∃ r f', Goes i apps x f r f'

namespace Uniform

theorem pure (a : α) : Uniform i apps (pure a) := fun f hf =>
  ⟨.ok a, f, List.prefix_rfl, hf, fun _ h => absurd h (by simp), fun _ _ _ w hw => ⟨w, rfl, hw⟩⟩

theorem throw_answered {e : Fault} (h : e.IsExhaustion → Answered i apps e) :
    Uniform i apps (throw e : Marshalling α) := fun f hf =>
  ⟨.error e, f, List.prefix_rfl, hf, fun _ he => Except.error.inj he ▸ h, fun _ _ _ w hw => ⟨w, rfl, hw⟩⟩

theorem throw {e : Fault} (h : ¬e.IsExhaustion) : Uniform i apps (throw e : Marshalling α) :=
  throw_answered fun hx => absurd hx h

theorem lift {x : Except Fault α} (h : Dry x) : Uniform i apps (liftM x : Marshalling α) := by
  cases x with
  | ok a => exact pure a
  | error e => exact throw (Fault.not_isExhaustion ((Dry.error_iff e).1 h))

theorem bind {x : Marshalling α} {g : α → Marshalling β} (hx : Uniform i apps x)
    (hg : ∀ a, Uniform i apps (g a)) : Uniform i apps (x >>= g) := by
  intro f hf
  obtain ⟨r, f1, h1⟩ := hx f hf
  have hrun : ∀ s, (x >>= g) s = EStateM.bind x g s := fun _ => rfl
  cases r with
  | error e =>
    refine ⟨.error e, f1, h1.grows, h1.pipes, fun e' he => h1.fault e' (by simpa using he),
      fun start b v w hw => ?_⟩
    obtain ⟨w1, e1, hw1⟩ := h1.runs hw
    exact ⟨w1, by rw [hrun, EStateM.bind, e1]; rfl, hw1⟩
  | ok a =>
    obtain ⟨r2, f2, h2⟩ := hg a f1 h1.pipes
    refine ⟨r2, f2, h1.grows.trans h2.grows, h2.pipes, h2.fault, fun start b v w hw => ?_⟩
    obtain ⟨w1, e1, hw1⟩ := h1.runs hw
    obtain ⟨w2, e2, hw2⟩ := h2.runs hw1
    exact ⟨w2, by rw [hrun, EStateM.bind, e1]; exact e2, hw2⟩

/-- An action of which the result and the change follow from the draft alone. -/
theorem quiet {x : Marshalling α} (h : ∀ f : Draft, f.pipes.map (·.application) = apps →
    ∃ (r : Except Fault α) (f' : Draft), f'.out = f.out ∧ f'.pipes.map (·.application) = apps ∧
      (∀ e, r = .error e → e.IsExhaustion → Answered i apps e) ∧
      ∀ w, x (f.on w) = Writer.ended r (f'.on w)) : Uniform i apps x := by
  intro f hf
  obtain ⟨r, f', ho, hp, he, hx⟩ := h f hf
  exact ⟨r, f', ho ▸ List.prefix_rfl, hp, he, fun _ _ _ w hw => ⟨w, hx w, ho.symm ▸ hw⟩⟩

/-- A lookup ahead of an action that depends on what it found. -/
theorem lift_bind {x : Except Fault α} (hx : Dry x) {g : α → Marshalling β}
    (hg : ∀ a, x = .ok a → Uniform i apps (g a)) : Uniform i apps (liftM x >>= g) := by
  cases x with
  | ok a =>
    show Uniform i apps (g a)
    exact hg a rfl
  | error e => exact throw (α := β) (Fault.not_isExhaustion ((Dry.error_iff e).1 hx))

theorem ite {c : Prop} [Decidable c] {x y : Marshalling α} (hx : Uniform i apps x)
    (hy : Uniform i apps y) : Uniform i apps (if c then x else y) := by
  split
  · exact hx
  · exact hy

/-- A check ahead of an action. -/
theorem check {c : Prop} [Decidable c] {e : Fault} (he : ¬e.IsExhaustion) {g : PUnit → Marshalling α}
    (h : Uniform i apps (g ⟨⟩)) :
    Uniform i apps (if c then MonadExcept.throw e >>= g else g ⟨⟩) := by
  split
  · exact throw (α := α) he
  · exact h

theorem forM {g : α → Marshalling PUnit} {l : List α} (h : ∀ a ∈ l, Uniform i apps (g a)) :
    Uniform i apps (l.forM g) := by
  induction l with
  | nil => exact pure _
  | cons a l ih =>
    exact (h a List.mem_cons_self).bind fun _ => ih fun b hb => h b (List.mem_cons_of_mem _ hb)

theorem foldIndices {g : β → Nat → Marshalling β} (h : ∀ b n, Uniform i apps (g b n)) (shape : Shape)
    (b : β) : Uniform i apps (shape.foldIndices g b) := by
  rw [Shape.foldIndices_eq]
  induction shape.indices generalizing b with
  | nil => exact pure _
  | cons n l ih => exact (h b n).bind fun b => ih b

/-- An action that depends on the draft. -/
theorem get_bind {g : State → Marshalling α}
    (h : ∀ f : Draft, ∃ x, Uniform i apps x ∧ ∀ w, g (f.on w) = x) : Uniform i apps (get >>= g) := by
  intro f hf
  obtain ⟨x, hx, hg⟩ := h f
  obtain ⟨r, f', hgoes⟩ := hx f hf
  have hrun : ∀ w, (get >>= g) (f.on w) = x (f.on w) := fun w => congrFun (hg w) (f.on w)
  exact ⟨r, f', hgoes.grows, hgoes.pipes, hgoes.fault, fun _ _ _ w hw => hrun w ▸ hgoes.runs hw⟩

theorem recordCall (c : Routine.Call) : Uniform i apps (recordCall c) :=
  quiet fun f hf => ⟨.ok ⟨⟩, { f with calls := c :: f.calls }, rfl, hf, fun _ h => absurd h (by simp),
    fun _ => rfl⟩

theorem defer (d : Deferred Scope) : Uniform i apps (defer d) :=
  quiet fun f hf => ⟨.ok ⟨⟩, { f with deferred := d :: f.deferred }, rfl, hf,
    fun _ h => absurd h (by simp), fun _ => rfl⟩

theorem takeDeferred : Uniform i apps takeDeferred :=
  quiet fun f hf => ⟨.ok f.deferred.reverse, { f with deferred := [] }, rfl, hf,
    fun _ h => absurd h (by simp), fun _ => rfl⟩

/-- An action, and a call that is recorded however it ended. -/
theorem tryFinally {x : Marshalling α} (hx : Uniform i apps x) (c : Routine.Call) :
    Uniform i apps (tryFinally x (Marshal.recordCall c)) := by
  intro f hf
  obtain ⟨r, f1, h1⟩ := hx f hf
  refine ⟨r, { f1 with calls := c :: f1.calls }, h1.grows, h1.pipes, h1.fault, fun _ _ _ w hw => ?_⟩
  obtain ⟨w1, e1, hw1⟩ := h1.runs hw
  refine ⟨w1, ?_, hw1⟩
  show EStateM.map Prod.fst (fun s => tryFinally' x (fun _ => Marshal.recordCall c) s) _ = _
  simp only [EStateM.map, tryFinally', e1]
  cases r <;> rfl

/-! #### Steps of the writer -/

theorem put {x : Put α} (h : ∀ out, ∃ r bytes, Writer.Writes x out r bytes ∧ Dry r) :
    Uniform i apps (put x) := by
  intro f hf
  obtain ⟨r, bytes, hx, hr⟩ := h f.out
  refine ⟨r, { f with out := f.out ++ bytes }, List.prefix_append _ _, hf,
    fun e he hex => absurd hex (Fault.not_isExhaustion (hr e he)), fun start b v w hw => ?_⟩
  obtain ⟨w', e', hw'⟩ := hx hw
  refine ⟨w', ?_, hw'⟩
  unfold Marshal.put onPart
  rw [show x (f.on w).writer = Writer.ended r w' from e']
  cases r <;> rfl

theorem align {n : Nat} (hn : n ∣ 8) : Uniform i apps (Marshal.put (Writer.align n)) :=
  put fun _ => ⟨_, _, Writer.writes_align hn, by simp⟩

theorem putAligned (order : ByteOrder) {width : Nat} (hw : width ∣ 8) (v : Nat) :
    Uniform i apps (Marshal.put (Writer.putAligned order width v)) :=
  put fun _ => by
    obtain ⟨bytes, h, -⟩ := Writer.writes_putAligned order hw v
    exact ⟨_, bytes, h, by simp⟩

theorem putScalar (rep : Representation) (kind : Scalar) (v : Value) :
    Uniform i apps (Marshal.put (Writer.putScalar rep kind v)) :=
  put fun out => Writer.writes_putScalar out rep kind v

theorem putRun (bytes : List UInt8) : Uniform i apps (Marshal.put (Writer.putRun bytes)) :=
  put fun _ => ⟨_, _, Writer.writes_putRun bytes, by simp⟩

/-! #### Nodes and pipes -/

theorem sight (c : CellId) : Uniform i apps (Marshal.sight c) :=
  quiet fun f hf => by
    have hdry := f.nodes.dry_sight c
    have hrun : ∀ w, Marshal.sight c (f.on w) =
        EStateM.bind (liftM (f.nodes.sight c)) (fun found => do
          modify fun s : State => { s with nodes := found.2 }
          return found.1) (f.on w) := fun _ => rfl
    cases h : f.nodes.sight c with
    | error e =>
      refine ⟨.error e, f, rfl, hf, ?_, fun w => by rw [hrun, h]; rfl⟩
      rintro _ ⟨⟩ hex
      exact absurd hex (Fault.not_isExhaustion (hdry e h))
    | ok found =>
      exact ⟨.ok found.1, { f with nodes := found.2 }, rfl, hf, by simp, fun w => by rw [hrun, h]; rfl⟩

theorem onPipe (h : PipeHandle) {x : EStateM Fault Pipe α} (hx : Pipe.Faithful x) :
    Uniform i apps (Marshal.onPipe h x) :=
  quiet fun f hf => by
    have hrun : ∀ {r pipes}, Pipe.under h x f.pipes = Writer.ended r pipes →
        ∀ w, Marshal.onPipe h x (f.on w) = Writer.ended r (({ f with pipes } : Draft).on w) := by
      intro r pipes e w
      unfold Marshal.onPipe onPart
      rw [show Pipe.under h x (f.on w).pipes = _ from e]
      cases r <;> rfl
    cases hp : f.pipes[h]? with
    | none =>
      refine ⟨.error (.pipeMisuse .unknownHandle), f, rfl, hf, by simp, hrun ?_⟩
      unfold Pipe.under
      rw [hp]
      rfl
    | some p =>
      obtain ⟨r, p', e⟩ := Writer.exists_ended (x p)
      obtain ⟨happ, hex⟩ := hx e
      have hmap : (f.pipes.setIfInBounds h p').map (·.application) = apps := by
        have hself : apps[h]? = some p.application := by
          rw [← hf, Array.getElem?_map, hp]
          rfl
        rw [Array.map_setIfInBounds, hf, happ]
        refine Array.ext_getElem? fun n => ?_
        rw [Array.getElem?_setIfInBounds]
        split
        · rename_i hn
          subst hn
          rw [if_pos (Array.getElem?_eq_some_iff.1 hself).1, hself]
        · rfl
      refine ⟨r, { f with pipes := f.pipes.setIfInBounds h p' }, rfl, hmap, fun e he hx => ?_, hrun ?_⟩
      · obtain ⟨history, n, hcut⟩ := hex e he hx
        exact .inr ⟨p.application, hf ▸ Array.mem_map_of_mem (Array.mem_of_getElem? hp), history, n, hcut⟩
      · unfold Pipe.under
        simp only [hp, onPart, e]
        cases r <;> rfl

end Uniform

/-! ### Definitions -/

theorem aligned_of_arrayParts {env : Env} {kind : ArrayKind} {dims definition : Nat} {v : Value}
    {d : ArrayDefinition} {elements : List Value}
    (h : arrayParts env kind dims definition v = .ok (d, elements)) : d.element.Aligned := by
  unfold arrayParts at h
  obtain ⟨d', hd, h⟩ := Except.bind_eq_ok.1 h
  obtain ⟨_, -, h⟩ := Except.bind_eq_ok.1 h
  split at h
  · obtain ⟨rfl, -⟩ := Prod.mk.inj (Except.pure_eq_ok.1 h)
    exact TypeVector.aligned_arrayDefinition hd
  · exact absurd h Except.throw_ne_ok

/-! ### Counts, scalars and elements -/

section Walks

variable {env : Env}

theorem uniform_putCount (v : Nat) : Uniform i apps (putCount env v) :=
  .putAligned _ (by decide) _

theorem uniform_putSize (v1 : Bool) (n : Nat) : Uniform i apps (putSize env v1 n) :=
  .ite (.check (by simp) (.putAligned _ (by decide) _)) (.check (by simp) (uniform_putCount _))

theorem uniform_putExtents (shape : Shape) (v1 : Bool) :
    Uniform i apps (putExtents env shape v1) :=
  .forM fun _ _ => uniform_putSize _ _

theorem uniform_putRanges (shape : Shape) (v1 : Bool) : Uniform i apps (putRanges env shape v1) :=
  .forM fun _ _ => .ite (.check (by simp) (uniform_putSize _ _))
    (.check (by simp) (.bind (uniform_putCount _) fun _ => uniform_putCount _))

theorem uniform_putByteRun (element : Descriptor) (elements : List Value) :
    Uniform i apps (putByteRun env element elements) := by
  unfold putByteRun
  cases element.byteElement? with
  | none => exact .pure _
  | some kind =>
    refine .ite (.pure _) (.bind (.lift (kind.dry_checkRepresentation _)) fun _ =>
      .bind (.putRun _) fun _ => .pure _)

/-! ### Arrays and unions -/

variable {walk last : Walk}

/-- A walk that does the same with chunks and vectors of any size. -/
abbrev UniformAll (i : Interface) (apps : Array Pipe.Application) (walk : Walk) : Prop :=
  ∀ d : Descriptor, d.Aligned → ∀ v site, Uniform i apps (walk d v site)

variable (hw : UniformAll i apps walk) (hl : UniformAll i apps last)

include hw

theorem uniform_putElements {element : Descriptor} (he : element.Aligned) (elements : List Value)
    (site : Site Scope) : Uniform i apps (putElements env walk element elements site) :=
  .bind (uniform_putByteRun _ _) fun _ => .ite (.forM fun _ _ => hw _ he _ _) (.pure _)

theorem uniform_putPart {element : Descriptor} (he : element.Aligned) (shape : Shape)
    (elements : List Value) (site : Site Scope) :
    Uniform i apps (putPart env walk element shape elements site) := by
  unfold putPart
  cases shape.contiguous? with
  | some range => exact .check (by simp) (uniform_putElements hw he _ _)
  | none =>
    refine .foldIndices (fun _ place => ?_) _ _
    cases elements.toArray[place]? with
    | some v => exact hw _ he _ _
    | none => exact .throw (by simp)

theorem uniform_putString {d : ArrayDefinition} (hd : d.element.Aligned) (elements : List Value)
    (site : Site Scope) : Uniform i apps (putString env walk d elements site) :=
  .bind (.lift d.dry_characterKind) fun _ => .bind (uniform_putElements hw hd _ _) fun _ =>
    hw _ hd _ _

theorem uniform_putArray (m : Modifiers) (kind : ArrayKind) (dims definition : Nat) (v : Value)
    (site : Site Scope) (preset : Option Shape) :
    Uniform i apps (putArray env walk m kind dims definition v site preset) := by
  have hrest : ∀ (d : ArrayDefinition), d.element.Aligned → ∀ elements (shape : Shape),
      Uniform i apps (do
        if kind.isVarying then putRanges env shape m.isV1
        if m.isString then putString env walk d elements site.inside
        else putPart env walk d.element shape elements site.inside) := by
    intro d hd elements shape
    have : Uniform i apps (if m.isString then putString env walk d elements site.inside
        else putPart env walk d.element shape elements site.inside) :=
      .ite (uniform_putString hw hd _ _) (uniform_putPart hw hd _ _ _)
    exact .ite (.bind (uniform_putRanges _ _) fun _ => this) this
  refine .lift_bind (dry_arrayParts env kind dims definition v) fun parts hparts => ?_
  obtain ⟨d, elements⟩ := parts
  have hd := aligned_of_arrayParts hparts
  cases preset with
  | some shape => exact .bind (.pure _) fun _ => hrest _ hd _ _
  | none =>
    have hput : ∀ shape : Shape, Uniform i apps (do
        let shape ← pure shape
        if kind.isVarying then putRanges env shape m.isV1
        if m.isString then putString env walk d elements site.inside
        else putPart env walk d.element shape elements site.inside) :=
      fun shape => .bind (.pure _) fun _ => hrest _ hd _ _
    exact .bind (.lift (dry_shapeOf _ _ _ _ _)) fun shape =>
      .ite (.bind (uniform_putExtents _ _) fun _ => hput shape) (hput shape)

theorem uniform_putUnion (definition : Nat) (field : Option Nat) (v : Value) (site : Site Scope) :
    Uniform i apps (putUnion env walk definition field v site) := by
  have harm : ∀ u switch arm, Uniform i apps (putArm env walk u switch arm site.inside) := by
    intro u switch arm
    refine .bind (.lift (TypeVector.dry_findArm _ _ _)) fun found => ?_
    cases found with
    | none => exact .ite (.throw (by simp)) (.pure _)
    | some found =>
      dsimp only
      cases found.body with
      | empty => exact .pure _
      | absent => exact .pure _
      | stream offset =>
        exact .lift_bind (TypeVector.dry_stream _ _) fun d hd => hw d (TypeVector.aligned_stream hd) _ _
  refine .lift_bind (TypeVector.dry_unionDefinition _ _) fun u hu => ?_
  cases v with
  | union switch arm =>
    refine .bind (.lift (dry_checkSwitch _ _ _)) fun _ => .bind (.lift (dry_discriminant _ _)) fun _ => ?_
    exact .bind (.putScalar _ _ _) fun _ =>
      .bind (.align (TypeVector.aligned_unionDefinition hu)) fun _ => harm _ _ _
  | _ => exact .throw (by simp)

/-! ### Structs -/

include hl in
theorem uniform_putFields (layout : Nat) (slots : List Value) (site : Site Scope) (index : Nat)
    {ds : List Descriptor} (hds : ∀ d ∈ ds, d.Aligned) :
    Uniform i apps (putFields env walk last layout slots site index ds) := by
  induction ds generalizing index with
  | nil => exact .pure _
  | cons d ds ih =>
    have hd := hds d List.mem_cons_self
    have hrest := fun index => ih index fun e he => hds e (List.mem_cons_of_mem _ he)
    unfold putFields
    refine .ite (.bind (.lift (dry_slotValue _ _ _ _)) fun v => .ite ?_ ?_)
      (.bind (hw _ hd _ _) fun _ => hrest _)
    · exact .bind (hw _ hd _ _) fun _ => hrest _
    · exact .bind (hl _ hd _ _) fun _ => hrest _

theorem uniform_putTail (shape : Shape) (levels : Nat) :
    UniformAll i apps (putTail env walk shape levels) := by
  induction levels with
  | zero =>
    rintro ⟨o, m, form⟩ hd v site
    unfold putTail
    cases form with
    | array kind props dims definition => exact .ite (uniform_putArray hw _ _ _ _ _ _ _) (hw _ hd _ _)
    | struct kind props definition => exact .ite (hw _ hd _ _) (.throw (by simp))
    | _ => exact hw _ hd _ _
  | succ levels ih =>
    rintro ⟨o, m, form⟩ hd v site
    unfold putTail
    cases form with
    | array kind props dims definition => exact .ite (uniform_putArray hw _ _ _ _ _ _ _) (hw _ hd _ _)
    | struct kind props definition =>
      refine .ite (hw _ hd _ _) (.lift_bind (dry_structParts _ _ _) fun parts hparts => ?_)
      obtain ⟨halign, hfields⟩ := TypeVector.aligned_structDefinition (structParts_eq_ok hparts).1
      exact .bind (.align halign) fun _ => uniform_putFields hw ih _ _ _ _ hfields
    | _ => exact hw _ hd _ _

theorem uniform_putStruct (kind : StructKind) (definition : Nat) (v : Value) (site : Site Scope) :
    Uniform i apps (putStruct env walk kind definition v site) := by
  refine .lift_bind (dry_structParts _ _ _) fun parts hparts => ?_
  obtain ⟨halign, hfields⟩ := TypeVector.aligned_structDefinition (structParts_eq_ok hparts).1
  refine .ite ?_ (.bind (.lift (dry_hoistedShape _ _ _ _)) fun hoisted => ?_)
  · exact .bind (.align halign) fun _ => uniform_putFields hw hw _ _ _ _ hfields
  · exact .bind (uniform_putExtents _ _) fun _ => .bind (.align halign) fun _ =>
      uniform_putFields hw (uniform_putTail hw _ _) _ _ _ _ hfields

theorem uniform_putNested {align : Nat} (halign : align ∣ 8) (layout : Nat) {fields : List Descriptor}
    (hfields : ∀ f ∈ fields, f.Aligned) (v : Value) (site : Site Scope) :
    Uniform i apps (putNested env walk align layout fields v site) :=
  .bind (.lift (dry_structSlots _)) fun _ => .bind (.lift (dry_scopeOf _ _ _ _)) fun _ =>
    .bind (.align halign) fun _ => uniform_putFields hw hw _ _ _ _ hfields

/-! ### Pointers -/

theorem uniform_putPointee (cell : CellId) (pointee : Nat) (site : Site Scope) :
    Uniform i apps (putPointee env walk cell pointee site) :=
  .lift_bind (TypeVector.dry_stream _ _) fun _ hd => .bind (.lift (Heap.dry_load _ _)) fun _ =>
    hw _ (TypeVector.aligned_stream hd) _ _

theorem uniform_placePointee (cell : CellId) (pointee : Nat) (site : Site Scope) :
    Uniform i apps (placePointee env walk cell pointee site) :=
  .ite (.defer _) (uniform_putPointee hw _ _ _)

theorem uniform_putPointer (kind : PointerKind) (pointee : Nat) (v : Value) (site : Site Scope) :
    Uniform i apps (putPointer env walk kind pointee v site) := by
  have hplace : ∀ cell, Uniform i apps (placePointee env walk cell pointee site) :=
    fun cell => uniform_placePointee hw cell pointee site
  have hmark : ∀ cell, Uniform i apps (do
      if site.embedded then putCount env referenceMark
      placePointee env walk cell pointee site) := fun cell =>
    .ite (.bind (uniform_putCount _) fun _ => hplace cell) (hplace cell)
  have htarget : ∀ cell, Uniform i apps (putTarget env walk pointee cell site) := by
    intro cell
    refine .bind (.sight cell) fun found => ?_
    cases found with
    | again id => exact uniform_putCount id
    | first id => exact .bind (uniform_putCount id) fun _ => hplace cell
  unfold putPointer
  cases v with
  | pointer target =>
    cases kind <;> cases target
    · exact .throw (by simp)
    · exact hmark _
    · exact uniform_putCount 0
    · exact htarget _
    · exact uniform_putCount 0
    · exact htarget _
  | _ => exact .throw (by simp)

/-! ### Other values -/

theorem uniform_putPipe (element : Nat) (v : Value) (site : Site Scope) :
    Uniform i apps (putPipe env walk element v site) := by
  have hpieces : ∀ h d, d.Aligned → ∀ fuel,
      Uniform i apps (putPieces env walk h d site.inside fuel) := by
    intro h d hd fuel
    induction fuel with
    | zero => exact .pure _
    | succ fuel ih =>
      refine .bind (.onPipe _ (Pipe.faithful_ask _)) fun granted =>
        .bind (.onPipe _ (Pipe.faithful_pull _)) fun piece => .check (by simp) ?_
      refine .bind (uniform_putCount _) fun _ => .bind (.forM fun _ _ => hw _ hd _ _) fun _ => ?_
      exact .bind (.onPipe _ (Pipe.faithful_modify fun _ => rfl)) fun _ =>
        .ite (.onPipe _ (Pipe.faithful_modify fun _ => rfl)) ih
  unfold putPipe
  refine .check (by simp) (.bind (.lift v.dry_pipe?) fun h =>
    .lift_bind (TypeVector.dry_stream _ _) fun d hd => .bind (.lift d.dry_checkPiped) fun _ => ?_)
  exact .bind (.onPipe _ (Pipe.faithful_enter _)) fun _ =>
    .bind (.onPipe _ (Pipe.faithful_read _)) fun pending =>
      hpieces _ _ (TypeVector.aligned_stream hd) _

theorem uniform_putConverted (hi : i = env.interface) (index wire : Nat) (v : Value)
    (site : Site Scope) : Uniform i apps (putConverted env walk index wire v site) := by
  refine .lift_bind (Interface.dry_routine _ _) fun routine hroutine =>
    .lift_bind (TypeVector.dry_stream _ _) fun d hd => .check (by simp) (.get_bind fun f => ?_)
  have hmem : routine ∈ i.routines := by
    unfold Interface.routine at hroutine
    split at hroutine
    · rename_i hsome
      obtain rfl := Except.ok.inj hroutine
      exact hi ▸ List.mem_of_getElem? hsome
    · exact absurd hroutine (by simp)
  cases h : routine.toWire f.calls v with
  | error e =>
    refine ⟨_, .bind (.recordCall (.toWire index v false)) fun _ => .throw_answered fun _ => .inl ⟨routine, hmem, _, _, h⟩,
      fun w => ?_⟩
    rw [show (f.on w).calls = f.calls from rfl, h]
  | ok w =>
    refine ⟨_, .bind (.recordCall (.toWire index v true)) fun _ =>
      .tryFinally (hw d (TypeVector.aligned_stream hd) w
        { site with conversions := site.conversions + 1 }) (.freeWire index w), fun w => ?_⟩
    rw [show (f.on w).calls = f.calls from rfl, h]

omit hw in
/-- The words of a token follow an aligned word. -/
theorem uniform_putContext (direction : ContextDirection) (v : Value) :
    Uniform i apps (putContext env direction v) := by
  unfold putContext
  cases env.contexts with
  | none => exact .throw (by simp)
  | some registry =>
    refine .bind (.lift v.dry_context?) fun h => .bind (.lift (dry_tokenOf _ _ _)) fun u =>
      .bind (uniform_putCount _) fun _ => ?_
    have hjoin : Uniform i apps (Marshal.put (do
        Writer.putCount env.order u.first.toNat
        Writer.putWord env.order 2 u.second.toNat
        Writer.putWord env.order 2 u.third.toNat
        Writer.putRun (ByteOrder.big.encode 8 u.tail.toNat))) := by
      refine .put fun out => ?_
      obtain ⟨first, hfirst, hdvd⟩ : ∃ bytes, Writer.Writes
          (Writer.putAligned env.order 4 u.first.toNat) out (.ok ()) bytes ∧
            4 ∣ (out ++ bytes).length := Writer.writes_putAligned env.order (by decide) _
      have hword : ∀ {out : List UInt8} (n : Nat), 2 ∣ out.length →
          Writer.Writes (Writer.putWord env.order 2 n) out (.ok ()) (env.order.encode 2 n) :=
        fun n h => Writer.writes_putTogether (by
          rw [ByteOrder.length_encode]
          exact Writer.mod_eight_add_le (by decide) h)
      have htwo := Nat.dvd_trans (show 2 ∣ 4 by decide) hdvd
      refine ⟨_, _, hfirst.bind ((hword _ htwo).bind ((hword _ ?_).bind (Writer.writes_putRun _))),
        by simp⟩
      rw [List.length_append, ByteOrder.length_encode]
      exact Nat.dvd_add htwo (Nat.dvd_refl _)
    simpa only [put_bind, putCount] using hjoin

omit hw in
theorem uniform_putDeleted : Uniform i apps (putDeleted env) := by
  unfold putDeleted
  exact .check (by simp) (.bind (uniform_putCount _) fun _ => .forM fun _ _ => uniform_putCount _)

theorem uniform_putForm (hi : i = env.interface) {d : Descriptor} (hd : d.Aligned) (v : Value)
    (site : Site Scope) : Uniform i apps (putForm env walk d v site) := by
  unfold putForm
  cases hform : d.form with
  | scalar kind => exact .putScalar _ _ _
  | struct kind props definition => exact uniform_putStruct hw _ _ _ _
  | nested align layout fields =>
    obtain ⟨halign, hfields⟩ := hd
    exact uniform_putNested hw (halign _ _ _ hform) _ (hfields _ _ _ hform) _ _
  | array kind props dims definition => exact uniform_putArray hw _ _ _ _ _ _ _
  | encapsulatedUnion props definition => exact uniform_putUnion hw _ _ _ _
  | switchedUnion props field definition => exact uniform_putUnion hw _ _ _ _
  | pointer kind props pointee => exact uniform_putPointer hw _ _ _ _
  | ignore => exact uniform_putCount _
  | converted kind props routine wire => exact uniform_putConverted hw hi _ _ _ _
  | pipe props element => exact uniform_putPipe hw _ _ _
  | context direction => exact uniform_putContext _ _
  | align boundary => exact .align (by cases boundary <;> decide)
  | deletedNodes => exact uniform_putDeleted
  | void => exact .pure _
  | unhosted opcode => exact .throw (by simp)

end Walks

/-! ### Whole values and parameters -/

section

variable {env : Env}

/-- Every walk does the same with chunks and vectors of any size. -/
theorem uniform_walk (room : Nat) : UniformAll env.interface apps (walk env room) := by
  induction room with
  | zero => exact fun _ _ _ _ => .throw (by simp)
  | succ room ih =>
    intro d hd v site
    refine .bind (uniform_putForm ih rfl hd v site) fun _ => ?_
    cases d.modifiers.freeRep with
    | none => exact .pure _
    | some routine => exact .bind (.lift (Interface.dry_routine _ _)) fun _ => .recordCall _

theorem uniform_putDeferred {walk : Walk} (hw : UniformAll i apps walk) (depth : Nat)
    (ds : List (Deferred Scope)) : Uniform i apps (putDeferred env walk depth ds) := by
  induction depth generalizing ds with
  | zero =>
    cases ds with
    | nil => exact .pure _
    | cons d ds => exact .throw (by simp)
  | succ depth ih =>
    cases ds with
    | nil => exact .pure _
    | cons d ds =>
      exact .forM fun _ _ => .bind (uniform_putPointee hw _ _ _) fun _ =>
        .bind .takeDeferred fun _ => ih _

/-- Parameters are written in the same way in chunks and vectors of any size. -/
theorem uniform_putParameters (offset : Nat) (params : List Value) :
    Uniform env.interface apps (putParameters env offset params) := by
  have hw : UniformAll env.interface apps (walk env env.config.maxNesting) := uniform_walk _
  refine .lift_bind (TypeVector.dry_parameters _ _) fun list hlist => .forM fun p hp => ?_
  have hd := TypeVector.aligned_parameters hlist p hp
  cases params[p.index]? with
  | none => exact .throw (by simp)
  | some v =>
    exact .bind (hw _ hd _ _) fun _ => .bind .takeDeferred fun _ => uniform_putDeferred hw _ _

end

/-! ### Sizes of chunks and vectors -/

/-- The same with chunks and vectors of other sizes. -/
def Env.resized (env : Env) (b v : Nat) : Env :=
  { env with config := { env.config with bufferSize := b, vectorSize := v } }

section

variable (env : Env) (b v : Nat)

theorem trailingShape_resized (outermost trailing levels : Nat) :
    trailingShape (env.resized b v) outermost trailing levels =
      trailingShape env outermost trailing levels := by
  induction levels with
  | zero => rfl
  | succ levels ih =>
    funext d slots scope
    simp only [trailingShape, ih]
    rfl

theorem putFields_resized : putFields (env.resized b v) = putFields env := by
  funext walk last layout slots site index ds
  induction ds generalizing index with
  | nil => rfl
  | cons d ds ih =>
    simp only [putFields, ih]
    rfl

theorem putTail_resized (walk : Walk) (shape : Shape) (levels : Nat) :
    putTail (env.resized b v) walk shape levels = putTail env walk shape levels := by
  induction levels with
  | zero =>
    funext d x site
    unfold putTail
    rfl
  | succ levels ih =>
    funext d x site
    unfold putTail
    simp only [ih, putFields_resized]
    rfl

theorem putPieces_resized : putPieces (env.resized b v) = putPieces env := by
  funext walk h element site fuel
  induction fuel with
  | zero => rfl
  | succ fuel ih =>
    simp only [putPieces, ih]
    rfl

theorem putForm_resized : putForm (env.resized b v) = putForm env := by
  funext walk d x site
  unfold putForm
  cases d.form with
  | struct kind props definition =>
    show putStruct _ _ _ _ _ _ = putStruct _ _ _ _ _ _
    unfold putStruct hoistedShape
    simp only [putFields_resized, putTail_resized, trailingShape_resized]
    rfl
  | nested align layout fields =>
    show putNested _ _ _ _ _ _ _ = putNested _ _ _ _ _ _ _
    unfold putNested
    rw [putFields_resized]
    rfl
  | pipe props element =>
    show putPipe _ _ _ _ _ = putPipe _ _ _ _ _
    unfold putPipe
    rw [putPieces_resized]
    rfl
  | _ => rfl

theorem walk_resized (room : Nat) : walk (env.resized b v) room = walk env room := by
  induction room with
  | zero => rfl
  | succ room ih =>
    funext d x site
    simp only [walk, ih, putForm_resized]
    rfl

theorem putDeferred_resized : putDeferred (env.resized b v) = putDeferred env := by
  funext walk depth ds
  induction depth generalizing ds with
  | zero => cases ds <;> rfl
  | succ depth ih =>
    cases ds with
    | nil => rfl
    | cons d ds =>
      simp only [putDeferred, ih]
      rfl

/-- A walk does not look at the sizes. -/
theorem putParameters_resized : putParameters (env.resized b v) = putParameters env := by
  funext offset params
  unfold putParameters flush
  rw [walk_resized, putDeferred_resized]
  rfl

end

end Marshal

end Ndr
