import Ndr.Proofs.Conversions.Level
import Ndr.Proofs.Likeness

/-!
Routines that release a host's value after it was written. They have no say in a message: an operation
that writes does the same, but for their calls, when all of them are left out; reading never looks at
them. A conformant array or struct at the end of a struct is written past the routine that stands ahead
of it, and its value is not released.
-/

namespace Ndr

/-- A descriptor with this routine ahead of it, or with none, that releases its value. -/
def Descriptor.releasedBy (d : Descriptor) (routine : Option Nat) : Descriptor :=
  { d with modifiers := { d.modifiers with freeRep := routine } }

/-- Whether a type ends a conformant struct: its extents travel ahead of the struct. -/
def Descriptor.isTail (d : Descriptor) : Bool :=
  match d.form with
  | .array kind .. => kind.isConformant
  | .struct kind .. => kind ≠ .fixed
  | _ => false

namespace Routine

def Call.isRelease : Call → Bool
  | freeInstance .. => true
  | _ => false

/-- The calls that have a result that travels. -/
def heard (calls : List Call) : List Call := calls.filter (!·.isRelease)

theorem heard_cons {calls calls' : List Call} (c : Call) (h : heard calls = heard calls') :
    heard (c :: calls) = heard (c :: calls') := by
  unfold heard at h ⊢
  rw [List.filter_cons, List.filter_cons, h]

/-- A routine does not take account of the values that were released. -/
def Unmoved (r : Routine) : Prop :=
  ∀ calls calls', heard calls = heard calls' → r.toWire calls = r.toWire calls'

end Routine

open Routine (heard heard_cons)

/-! ### Writing -/

namespace Marshal

variable {env : Env} {M : Nat → Prop}

/-- The walk that releases no value of the host. -/
def bareWalk (env : Env) : Nat → Walk
  | 0 => fun d _ _ => throw (.nestingTooDeep env.config.maxNesting d.offset)
  | room + 1 => putForm env (bareWalk env room)

/-- Two states that differ in no more than the releases among the calls. Only pointees of which `M`
holds were put off. -/
def Unheard (M : Nat → Prop) (s t : State) : Prop :=
  Defers M s ∧ ∃ calls, t = { s with calls } ∧ heard s.calls = heard calls

theorem unheard_put {α : Type} (x : Put α) : Tandem (Unheard M) (put x) (put x) := by
  refine .onPart (fun s t hst => ?_) x
  obtain ⟨hs, calls, rfl, hcalls⟩ := hst
  exact ⟨rfl, fun writer => ⟨hs, calls, rfl, hcalls⟩⟩

theorem unheard_onPipe {α : Type} (h : PipeHandle) (x : EStateM Fault Pipe α) :
    Tandem (Unheard M) (onPipe h x) (onPipe h x) := by
  refine .onPart (fun s t hst => ?_) _
  obtain ⟨hs, calls, rfl, hcalls⟩ := hst
  exact ⟨rfl, fun pipes => ⟨hs, calls, rfl, hcalls⟩⟩

theorem unheard_recordCall (c : Routine.Call) : Tandem (Unheard M) (recordCall c) (recordCall c) := by
  refine .modify ?_
  rintro s _ ⟨hs, calls, rfl, hcalls⟩
  exact ⟨hs, c :: calls, rfl, heard_cons c hcalls⟩

theorem relates_unheard (env : Env) (M : Nat → Prop) :
    RelatesNodes env env M fun x y => Tandem (Unheard M) x y where
  pure := .pure
  throw := .throw
  bind := .bind
  align _ := unheard_put _
  count _ := unheard_put _
  shortCount _ := unheard_put _
  scalar _ _ := unheard_put _
  run _ := unheard_put _
  token _ := .bind (unheard_put _) fun _ => .bind (unheard_put _) fun _ =>
    .bind (unheard_put _) fun _ => .bind (unheard_put _) fun _ => unheard_put _
  sight c := .see fun s t hst => by
    obtain ⟨hs, calls, rfl, hcalls⟩ := hst
    refine Tandem.bind (.lift (s.nodes.sight c)) (fun found => ?_) s _ ⟨hs, calls, rfl, hcalls⟩
    refine .bind (.modify ?_) fun _ => .pure _
    rintro s _ ⟨hs, calls, rfl, hcalls⟩
    exact ⟨hs, calls, rfl, hcalls⟩
  defer hd := .modify fun s t hst => by
    obtain ⟨hs, calls, rfl, hcalls⟩ := hst
    refine ⟨fun e he => ?_, calls, rfl, hcalls⟩
    rcases List.mem_cons.1 he with rfl | he
    · exact hd
    · exact hs e he
  takeDeferred h := by
    rintro s _ ⟨hs, calls, rfl, hcalls⟩
    exact h s.deferred.reverse (fun d hd => hs d (List.mem_reverse.1 hd)) { s with deferred := [] } _
      ⟨by simp [Defers], calls, rfl, hcalls⟩

/-- A value is released, or not, and nothing else happens. -/
theorem unheard_freeInstance {index : Nat} {routine : Routine}
    (h : env.interface.routine index = .ok routine) (v : Value) :
    Tandem (Unheard M) (freeInstance env index v) (pure ⟨⟩) := by
  rintro s _ ⟨hs, calls, rfl, hcalls⟩
  unfold freeInstance
  rw [h]
  exact .ok ⟨hs, calls, rfl, hcalls⟩

/-- A conversion goes the same way, where its routine takes no account of what was released. -/
theorem unheard_putConverted {walk walk' : Walk} {index wire : Nat} {site : Site Scope}
    (hroutine : ∀ routine, env.interface.routine index = .ok routine → routine.Unmoved)
    (hw : ∀ d w, env.vector.stream wire = .ok d →
      Tandem (Unheard M) (walk d w { site with conversions := site.conversions + 1 })
        (walk' d w { site with conversions := site.conversions + 1 })) (v : Value) :
    Tandem (Unheard M) (putConverted env walk index wire v site)
      (putConverted env walk' index wire v site) := by
  have hR := (relates_unheard env M).toRelatesSilent
  refine hR.lift_bind rfl fun routine hfound => hR.lift_bind rfl fun d hd => hR.check ?_
  have hmade : ∀ made, Tandem (Unheard M) (putMade walk index v d site made)
      (putMade walk' index v d site made) := by
    intro made
    cases made with
    | error e => exact .bind (unheard_recordCall _) fun _ => .throw e
    | ok w => exact .bind (unheard_recordCall _) fun _ => (hw d w hd).tryFinally (unheard_recordCall _)
  refine .see fun s t hst => ?_
  have hsame : routine.toWire t.calls v = routine.toWire s.calls v := by
    obtain ⟨-, calls, rfl, hcalls⟩ := hst
    rw [hroutine routine hfound _ _ hcalls]
  show EndsAlike (Unheard M) (putMade walk index v d site (routine.toWire s.calls v) s)
    (putMade walk' index v d site (routine.toWire t.calls v) t)
  rw [hsame]
  exact hmade _ s t hst

/-- What stands at an offset is met by a walk over the parameters of a list. -/
def MetAt (env : Env) (list : List Parameter) (offset : Nat) : Prop :=
  ∀ d, env.vector.stream offset = .ok d → env.vector.Reached list d

section

variable {list : List Parameter}
  (hroutines : ∀ index routine, env.interface.routine index = .ok routine → routine.Unmoved)
  (hregistered : ∀ d index, env.vector.Reached list d → d.modifiers.freeRep = some index →
    ∃ routine, env.interface.routine index = .ok routine)

include hroutines hregistered

/-- **No walk is swayed by releases**: over the types that the parameters lead to it does the same as
the one that leaves them out. -/
theorem walk_unheard (room : Nat) : RelatesWalks (fun _ => env.vector.Reached list)
    (fun x y => Tandem (Unheard (MetAt env list)) x y) (walk env room) (bareWalk env room) := by
  have hR := relates_unheard env (MetAt env list)
  have hN := (env.vector.closed_reached list).atHand
  induction room with
  | zero => exact fun d v site _ => .throw _
  | succ room ih =>
    intro d v site hd
    have hform : Tandem (Unheard (MetAt env list)) (putForm env (walk env room) d v site)
        (putForm env (bareWalk env room) d v site) := by
      refine hR.toRelatesSilent.putForm ih (.refl env _) (fun _ _ _ => hN.embedded (b := true))
        (.refl _ _) (fun _ => hN.embedded (b := true) hd) v ?_ ?_ ?_
        fun _ => hR.toRelatesSilent.putDeleted rfl
      · intro kind props pointee hpointer
        have hpointee : MetAt env list pointee := fun _ he => hN.pointee hd hpointer he
        exact hR.putPointer ih (.refl env) rfl hpointee hpointee kind v site
      · intro kind props index wire hconverted
        exact unheard_putConverted (hroutines index)
          (fun e w he => ih e w _ (hN.wire (b := true) hd hconverted he)) v
      · intro props element hpiped
        exact hR.toRelatesSilent.putPipe _ _ rfl v site fun _ h e _ he =>
          hR.toRelatesSilent.putStream ih (.refl env) (hN.embedded (b := true) hd (.piped hpiped he))
            (unheard_onPipe h)
    rw [bareWalk, ← bind_pure_unit (x := putForm env (bareWalk env room) d v site)]
    refine .bind hform fun _ => ?_
    cases hfree : d.modifiers.freeRep with
    | none => exact .pure _
    | some index =>
      obtain ⟨routine, hroutine⟩ := hregistered d index hd hfree
      exact unheard_freeInstance hroutine v

/-- **Releases are not seen in a message**: with routines that are registered and take no account of
what was released, an operation that releases no value of the host ends in the same way, with the same
fault or with the same bytes, node table and pipes. -/
theorem putParameters_unheard {offset : Nat} (hlist : env.vector.parameters offset = .ok list)
    (params : List Value) {s : State} (hs : s.deferred = []) :
    EndsAlike (Unheard (MetAt env list)) (putParameters env offset params s)
      (putParametersBy env (bareWalk env env.config.maxNesting) offset params s) := by
  have hR := relates_unheard env (MetAt env list)
  have hw := walk_unheard hroutines hregistered
  have hall : Tandem (Unheard (MetAt env list)) (putParameters env offset params)
      (putParametersBy env (bareWalk env env.config.maxNesting) offset params) := by
    refine hR.toRelatesSilent.lift_bind rfl fun found hfound => ?_
    obtain rfl := Except.ok.inj (hlist.symm.trans hfound)
    refine hR.toRelatesSilent.forM fun p hp => ?_
    cases params[p.index]? with
    | none => exact .throw _
    | some v =>
      refine .bind (hw _ _ _ _ (.parameter hp)) fun _ => ?_
      exact hR.flush (hw _) (.refl env _) fun _ hM => ⟨rfl, hM⟩
  exact hall s s ⟨by simp [Defers, hs], s.calls, rfl, rfl⟩

end

/-- **A value is released once it is written**, last of all and as the host gave it, and the routine
ahead of its type does nothing else. -/
theorem walk_releasedBy {index : Nat} {routine : Routine}
    (h : env.interface.routine index = .ok routine) (room : Nat) (d : Descriptor) (v : Value)
    (site : Site Scope) : walk env (room + 1) (d.releasedBy (some index)) v site = (do
      walk env (room + 1) (d.releasedBy none) v site
      recordCall (.freeInstance index v)) := by
  have hform : ∀ r, putForm env (walk env room) (d.releasedBy r) v site
      = putForm env (walk env room) d v site := by
    obtain ⟨offset, modifiers, form⟩ := d
    intro r
    cases form <;> rfl
  have hrelease : freeInstance env index v = recordCall (.freeInstance index v) := by
    unfold freeInstance
    rw [h]
    rfl
  rw [walk, walk, hform, hform]
  simp only [Descriptor.releasedBy, hrelease, bind_assoc, pure_bind]

/-- **The end of a conformant struct is not released**: its conformant array, or the conformant struct
that ends with one, is written past the routine that stands ahead of it. -/
theorem putTail_releasedBy {d : Descriptor} (h : d.isTail = true) (routine : Option Nat) (walk : Walk)
    (shape : Shape) (levels : Nat) (v : Value) (site : Site Scope) :
    putTail env walk shape levels (d.releasedBy routine) v site
      = putTail env walk shape levels d v site := by
  obtain ⟨offset, modifiers, form⟩ := d
  cases form with
  | array kind props dims definition =>
    have hconformant : kind.isConformant = true := h
    unfold putTail
    simp only [Descriptor.releasedBy, hconformant, if_true]
    rfl
  | struct kind props definition =>
    have hfixed : kind ≠ .fixed := of_decide_eq_true h
    unfold putTail
    simp only [Descriptor.releasedBy, if_neg hfixed]
  | _ => exact absurd h Bool.false_ne_true

end Marshal

/-! ### Reading -/

namespace Unmarshal

variable {env : Env} {walk last : Walk}

/-- A walk that does not look at routines that release values. -/
def Overlooks (walk : Walk) : Prop :=
  ∀ d routine site, walk (d.releasedBy routine) site = walk d site

theorem overlooks_walk (room : Nat) : Overlooks (Unmarshal.walk env room) := by
  intro d routine site
  obtain ⟨offset, modifiers, form⟩ := d
  cases room with
  | zero => rfl
  | succ room => cases form <;> rfl

theorem overlooks_getTail (hw : Overlooks walk) (extents : List Nat) (levels : Nat) :
    Overlooks (getTail env walk extents levels) := by
  intro d routine site
  have hwalk := hw d routine site
  obtain ⟨offset, modifiers, form⟩ := d
  cases form with
  | array kind props dims definition =>
    unfold getTail
    show (if kind.isConformant = true then _ else _) = if kind.isConformant = true then _ else _
    rw [hwalk]
    rfl
  | struct kind props definition =>
    unfold getTail
    show (if kind = .fixed then _ else _) = if kind = .fixed then _ else _
    rw [hwalk]
    rfl
  | _ =>
    unfold getTail
    exact hwalk

/-- **Reading never looks at routines that release values**: the fields of a struct are read in the
same way whatever routines stand ahead of them. -/
theorem getFields_releasedBy (hw : Overlooks walk) (hl : Overlooks last)
    (routine : Descriptor → Option Nat) (layout : Nat) (site : Site ScopeId) (index : Nat)
    (ds : List Descriptor) (slots : Array Value) :
    getFields env walk last layout site index (ds.map fun d => d.releasedBy (routine d)) slots
      = getFields env walk last layout site index ds slots := by
  have hfields : ∀ es : List Descriptor,
      (es.map fun d => d.releasedBy (routine d)).any Descriptor.isField = es.any Descriptor.isField := by
    intro es
    rw [List.any_map]
    rfl
  induction ds generalizing index slots with
  | nil => rfl
  | cons d ds ih =>
    rw [List.map_cons, getFields, getFields, hfields, hw, hl]
    simp only [ih]
    rfl

end Unmarshal

end Ndr
