import Ndr.Proofs.Unmarshal.Traversal
import Ndr.Proofs.Unmarshal.Typing

/-!
What values reading gives. A way of asserting something of the results of actions is given, with what
it says of the steps of reading and of actions in turn; values are told apart by their descriptors. The
one traversal then tells what every walk gives, where the closure of these values under the forms of
types is known.
-/

namespace Ndr.Unmarshal

variable {env : Env} {H : {α : Type} → (α → Prop) → Unmarshalling α → Prop}
  {T : Descriptor → Value → Prop} {walk last : Walk}

/-- Slots of a struct that each hold nothing yet, or a value of a field. -/
def Slots (env : Env) (T : Descriptor → Value → Prop) (layout : Nat) (fields : List Descriptor)
    (slots : List Value) : Prop :=
  ∀ (k : Nat) v, slots[k]? = some v → v = .void ∨ ∃ d, IsField env layout fields k d ∧ T d v

theorem Slots.setIfInBounds {layout : Nat} {fields : List Descriptor} {slots : Array Value}
    {index k : Nat} {d : Descriptor} {v : Value} (h : Slots env T layout fields slots.toList)
    (hd : (fields.filter Descriptor.isField)[index]? = some d)
    (hk : env.interface.layout.slot layout index = .ok k) (hv : T d v) :
    Slots env T layout fields (slots.setIfInBounds k v).toList := by
  intro j w hw
  rw [Array.getElem?_toList, Array.getElem?_setIfInBounds] at hw
  by_cases hj : k = j
  · subst hj
    rw [if_pos rfl] at hw
    split at hw
    · exact .inr ⟨d, ⟨index, hd, hk⟩, Option.some.inj hw ▸ hv⟩
    · exact absurd hw (by simp)
  · rw [if_neg hj] at hw
    exact h j w (by rwa [Array.getElem?_toList])

/-! ### Assertions -/

/-- A way of asserting that an action gives only results of which `Q` holds. What is known of the first
result comes as a premise of what is asked of the last. -/
structure Asserts (env : Env) (H : {α : Type} → (α → Prop) → Unmarshalling α → Prop) : Prop where
  plain : RelatesPlain env fun x _ => H (fun _ => True) x
  pure : ∀ {α : Type} {Q : α → Prop} {a : α}, Q a → H Q (pure a)
  throw : ∀ {α : Type} {Q : α → Prop} (e : Fault), H Q (throw e : Unmarshalling α)
  mono : ∀ {α : Type} {P Q : α → Prop} {x : Unmarshalling α}, H P x → (∀ a, P a → Q a) → H Q x
  bind : ∀ {α β : Type} {P : α → Prop} {Q : β → Prop} {x : Unmarshalling α}
    {f : α → Unmarshalling β}, H P x → (∀ a, H (fun b => P a → Q b) (f a)) → H Q (x >>= f)
  lift : ∀ {α : Type} (x : Except Fault α), H (fun a => x = .ok a) (liftM x)
  scalar : ∀ kind, H (fun v => ∃ n, v = kind.ofWord n)
    (fetch (Reader.getScalar env.representation kind))
  seeCalls : ∀ {α : Type} {Q : α → Prop} {f : List Routine.Call → Unmarshalling α},
    (∀ c, H Q (f c)) → H Q (get >>= fun s => f s.calls)

/-- Walks that give values of their descriptors. -/
abbrev GivesTypes (H : {α : Type} → (α → Prop) → Unmarshalling α → Prop)
    (T : Descriptor → Value → Prop) (walk : Walk) : Prop :=
  ∀ d site, H (T d) (walk d site)

namespace Asserts

variable (hH : Asserts env H)

include hH

section

variable {α β : Type} {P : α → Prop} {Q : β → Prop}

/-- The result of the first action does not matter. -/
theorem andThen {x : Unmarshalling α} {f : α → Unmarshalling β} (hx : H P x)
    (hf : ∀ a, H Q (f a)) : H Q (x >>= f) :=
  hH.bind hx fun a => hH.mono (hf a) fun _ h _ => h

/-- What follows a computation may count on its result. -/
theorem lift_bind {x : Except Fault α} {f : α → Unmarshalling β} (h : ∀ a, x = .ok a → H Q (f a)) :
    H Q (liftM x >>= f) := by
  cases x with
  | ok a => exact h a rfl
  | error e => exact hH.throw e

omit hH in
theorem ite {c : Prop} [Decidable c] {x y : Unmarshalling α} (hx : H P x) (hy : H P y) :
    H P (if c then x else y) := by
  split
  · exact hx
  · exact hy

/-- A check ahead of an action. -/
theorem check {c : Prop} [Decidable c] {e : Fault} {f : PUnit → Unmarshalling α} (h : H P (f ⟨⟩)) :
    H P (if c then MonadExcept.throw e >>= f else f ⟨⟩) := ite (hH.throw e) h

theorem repeatM {x : Unmarshalling α} (h : H P x) (n : Nat) :
    H (fun l => ∀ a ∈ l, P a) (repeatM n x) := by
  induction n with
  | zero => exact hH.pure (by simp)
  | succ n ih =>
    rw [repeatM_succ]
    refine hH.bind h fun a => ?_
    rw [map_eq_pure_bind]
    refine hH.bind ih fun l => hH.pure fun hl ha => ?_
    exact List.forall_mem_cons.2 ⟨ha, hl⟩

theorem forM {f : α → Unmarshalling PUnit} {l : List α} (h : ∀ a ∈ l, H (fun _ => True) (f a)) :
    H (fun _ => True) (l.forM f) := hH.plain.forM (g := f) h

theorem mapM {R : α → β → Prop} {f : α → Unmarshalling β} {l : List α}
    (h : ∀ a ∈ l, H (R a) (f a)) : H (List.Forall₂ R l) (l.mapM f) := by
  induction l with
  | nil => rw [List.mapM_nil]; exact hH.pure .nil
  | cons a l ih =>
    rw [List.mapM_cons]
    refine hH.bind (h a List.mem_cons_self) fun b => ?_
    refine hH.bind (ih fun c hc => h c (List.mem_cons_of_mem _ hc)) fun bs => hH.pure ?_
    exact fun hbs hb => .cons hb hbs

theorem foldIndices {f : β → Nat → Unmarshalling β} (h : ∀ b n, H (fun b' => Q b → Q b') (f b n))
    (s : Shape) (b : β) : H (fun b' => Q b → Q b') (s.foldIndices f b) := by
  rw [Shape.foldIndices_eq]
  induction s.indices generalizing b with
  | nil => exact hH.pure id
  | cons n l ih =>
    exact hH.bind (h b n) fun c => hH.mono (ih c) fun _ hlast hfirst hb => hlast (hfirst hb)

end

theorem getExtents (dims : Nat) (v1 : Bool) : H (fun _ => True) (getExtents env dims v1) :=
  hH.mono (hH.repeatM (hH.plain.getSize (.refl env) v1) dims) fun _ _ => trivial

/-! ### Arrays -/

section Arrays

variable (hscalar : ∀ {o m kind} n, T ⟨o, m, .scalar kind⟩ (Scalar.ofWord kind n))
  (hw : GivesTypes H T walk)

include hscalar hw

theorem getElements (element : Descriptor) (n : Nat) (site : Site ScopeId) :
    H (fun vs => ∀ v ∈ vs, T element v) (getElements env walk element n site) := by
  refine hH.andThen (hH.lift _) fun _ => ?_
  cases hk : element.byteElement? with
  | none => exact hH.repeatM (hw _ _) _
  | some kind =>
    refine hH.andThen (hH.lift _) fun _ => hH.andThen (hH.plain.run n) fun bytes => hH.pure ?_
    obtain ⟨o, m, form⟩ := element
    intro v hv
    obtain ⟨b, -, rfl⟩ := List.mem_map.1 hv
    cases form with
    | scalar k =>
      simp only [Descriptor.byteElement?, Option.ite_none_right_eq_some] at hk
      obtain ⟨⟨hbyte, -⟩, hk⟩ := hk
      obtain rfl := Option.some.inj hk
      have hword : k.ofByte b = k.ofWord b.toNat := by
        rcases hbyte with rfl | rfl | rfl <;> simp [Scalar.ofByte, Scalar.ofWord]
      exact hword ▸ hscalar _
    | _ => simp [Descriptor.byteElement?] at hk

theorem getString (element : Descriptor) (shape : Shape) (site : Site ScopeId) :
    H (fun vs => ∀ v ∈ vs, T element v) (getString env walk element shape site) := by
  cases shape with
  | nil => exact hH.pure (by simp)
  | cons span spans =>
    unfold Unmarshal.getString
    refine hH.check ?_
    refine hH.bind (hH.getElements hscalar hw _ _ _) fun elements => ?_
    refine hH.mono (hH.lift _) fun text h hall v hv => hall v ?_
    unfold stripTerminator at h
    split at h
    · exact absurd h (by simp)
    · split at h
      · cases h
        exact (List.dropLast_sublist _).mem hv
      · exact absurd h (by simp)

omit hscalar in
/-- What is not sent is the zero of the type. -/
theorem getPart (element : Descriptor) (shape : Shape) (total : Nat) (site : Site ScopeId) :
    H (fun vs => ∀ v ∈ vs, zeroValue env element ≠ .ok v → T element v)
      (getPart env walk element shape total site) := by
  refine hH.andThen (hH.lift _) fun _ => hH.check (hH.bind (hH.lift _) fun zero => ?_)
  have hfold := hH.foldIndices (Q := fun cells : Array Value =>
    ∀ v ∈ cells, zeroValue env element ≠ .ok v → T element v)
    (f := fun cells place => return cells.setIfInBounds place (← walk element site))
    (fun cells place => hH.bind (hw element site) fun w => hH.pure fun hw' hcells v hv hz => by
      rcases Array.mem_or_eq_of_mem_setIfInBounds hv with hv | rfl
      · exact hcells v hv hz
      · exact hw') shape (Array.replicate total zero)
  refine hH.bind hfold fun cells => hH.pure fun hcells hzero v hv hz => ?_
  refine hcells (fun w hw' hz' => ?_) v (Array.mem_toList_iff.1 hv) hz
  exact absurd ((Array.mem_replicate.1 hw').2 ▸ hzero) hz'

theorem getContents (m : Modifiers) (kind : ArrayKind) (d : ArrayDefinition) (site : Site ScopeId)
    (read : Option (List Nat)) :
    H (fun v => ∃ vs, v = .array vs ∧ ∀ w ∈ vs, zeroValue env d.element ≠ .ok w → T d.element w)
      (getContents env walk m kind d site read) := by
  refine hH.andThen (hH.plain.extentsIn _ _ _) fun extents => hH.andThen (hH.lift _) fun total => ?_
  refine hH.andThen (hH.lift _) fun _ =>
    hH.andThen (hH.plain.getShape (.refl env) _ _ _ _ _) fun shape => ?_
  have helements : H (fun vs => ∀ w ∈ vs, zeroValue env d.element ≠ .ok w → T d.element w)
      (if m.isString then Unmarshal.getString env walk d.element shape site.inside
      else if shape.isFull then Unmarshal.getElements env walk d.element total site.inside
      else Unmarshal.getPart env walk d.element shape total site.inside) := by
    refine ite (hH.mono (hH.getString hscalar hw _ _ _) ?_)
      (ite (hH.mono (hH.getElements hscalar hw _ _ _) ?_) (hH.getPart hw _ _ _ _))
    all_goals exact fun vs hall w hmem _ => hall w hmem
  exact hH.bind helements fun vs => hH.pure fun hall => ⟨vs, rfl, hall⟩

/-- The elements of an array are values of their type, or zero. -/
theorem getArray (m : Modifiers) (kind : ArrayKind) (dims definition : Nat) (site : Site ScopeId)
    (preset : Option (List Nat)) :
    H (fun v => ∃ d vs, env.vector.arrayDefinition definition kind.isVarying = .ok d ∧ v = .array vs ∧
        ∀ w ∈ vs, zeroValue env d.element ≠ .ok w → T d.element w)
      (getArray env walk m kind dims definition site preset) := by
  rw [getArray_eq]
  refine hH.bind (hH.lift _) fun d => hH.andThen (hH.lift _) fun _ => ?_
  refine hH.andThen (hH.lift _) fun _ => hH.andThen (hH.lift _) fun _ => ?_
  refine hH.andThen (P := fun _ => True) (ite ?_ (hH.pure trivial)) fun read =>
    hH.mono (hH.getContents hscalar hw m kind d site read) fun v ⟨vs, hv, hall⟩ hd =>
      ⟨d, vs, hd, hv, hall⟩
  cases preset with
  | some counts => exact hH.pure trivial
  | none =>
    dsimp only
    rw [map_eq_pure_bind]
    exact hH.andThen (hH.getExtents _ _) fun _ => hH.pure trivial

end Arrays

end Asserts

/-! ### Values of types -/

/-- Values that are closed under the forms of types. What arrays, pointers and lists of deleted nodes
give is asserted as a whole. -/
structure Typing (env : Env) (H : {α : Type} → (α → Prop) → Unmarshalling α → Prop)
    (T : Descriptor → Value → Prop) : Prop extends Asserts env H where
  ofWord : ∀ {o m kind} n, T ⟨o, m, .scalar kind⟩ (Scalar.ofWord kind n)
  struct : ∀ {o m kind props definition s slots}, env.vector.structDefinition definition = .ok s →
    Slots env T s.layout s.fields slots → T ⟨o, m, .struct kind props definition⟩ (.struct slots)
  nested : ∀ {o m align layout fields slots}, Slots env T layout fields slots →
    T ⟨o, m, .nested align layout fields⟩ (.struct slots)
  emptyArm : ∀ {o m form}, (∃ props definition, form = .encapsulatedUnion props definition) ∨
      (∃ props field definition, form = .switchedUnion props field definition) →
    ∀ switch, T ⟨o, m, form⟩ (.union switch .void)
  arm : ∀ {o m form definition u switch a offset d v},
    (∃ props, form = .encapsulatedUnion props definition) ∨
      (∃ props field, form = .switchedUnion props field definition) →
    env.vector.unionDefinition definition = .ok u → env.vector.findArm u switch = .ok (some a) →
    a.body = .stream offset → env.vector.stream offset = .ok d → T d v →
    T ⟨o, m, form⟩ (.union (Int64.ofInt switch) v)
  ignore : ∀ {o m}, T ⟨o, m, .ignore⟩ (.pointer none)
  converted : ∀ {o m kind props index wire routine calls d w v},
    env.interface.routine index = .ok routine → env.vector.stream wire = .ok d → T d w →
    routine.fromWire calls w = .ok v → T ⟨o, m, .converted kind props index wire⟩ v
  align : ∀ {o m boundary}, T ⟨o, m, .align boundary⟩ .void
  void : ∀ {o m}, T ⟨o, m, .void⟩ .void
  context : ∀ {o m} direction current, H (T ⟨o, m, .context direction⟩)
    (getContext env direction current)
  array : ∀ {o m kind props dims definition room} site preset, GivesTypes H T (Unmarshal.walk env room) →
    H (T ⟨o, m, .array kind props dims definition⟩)
      (getArray env (Unmarshal.walk env room) m kind dims definition site preset)
  pointer : ∀ {o m kind props pointee room} site, GivesTypes H T (Unmarshal.walk env room) →
    H (T ⟨o, m, .pointer kind props pointee⟩) (getPointer env (Unmarshal.walk env room) kind pointee site)
  deletedNodes : ∀ {o m}, H (T ⟨o, m, .deletedNodes⟩) (getDeleted env)

namespace Typing

variable (hT : Typing env H T)

include hT

/-! ### Unions -/

theorem getUnion (hw : GivesTypes H T walk) {o : Nat} {m : Modifiers} {form : TypeForm}
    {definition : Nat} {field : Option Nat} {site : Site ScopeId}
    (hform : (∃ props, form = .encapsulatedUnion props definition) ∨
      (∃ props field, form = .switchedUnion props field definition)) :
    H (T ⟨o, m, form⟩) (getUnion env walk definition field site) := by
  have harm : ∀ (u : UnionDefinition) switch, H (fun v =>
      env.vector.unionDefinition definition = .ok u → T ⟨o, m, form⟩ (.union (Int64.ofInt switch) v))
      (getArm env walk u switch site.inside) := by
    intro u switch
    have hempty : T ⟨o, m, form⟩ (.union (Int64.ofInt switch) .void) := by
      refine hT.emptyArm (hform.imp ?_ ?_) _
      · rintro ⟨props, h⟩
        exact ⟨props, definition, h⟩
      · rintro ⟨props, field, h⟩
        exact ⟨props, field, definition, h⟩
    refine hT.bind (hT.lift _) fun arm => ?_
    cases arm with
    | none => exact Asserts.ite (hT.pure fun _ _ => hempty) (hT.throw _)
    | some arm =>
      dsimp only
      cases hb : arm.body with
      | empty => exact hT.pure fun _ _ => hempty
      | absent => exact hT.pure fun _ _ => hempty
      | stream offset =>
        refine hT.bind (hT.lift _) fun d => hT.mono (hw d _) fun v hv hd ha hu => ?_
        exact hT.arm hform hu ha hb hd hv
  refine hT.bind (hT.lift _) fun u => hT.andThen (hT.scalar _) fun v => ?_
  cases v.toInt? with
  | none => exact hT.throw _
  | some switch =>
    have hrest : H (fun v => env.vector.unionDefinition definition = .ok u → T ⟨o, m, form⟩ v) (do
        fetch (Reader.align u.align)
        let arm ← getArm env walk u switch site.inside
        return Value.union (Int64.ofInt switch) arm) :=
      hT.andThen (hT.plain.align _) fun _ => hT.bind (harm u switch) fun _ => hT.pure fun h => h
    cases field with
    | none => exact hrest
    | some field => exact hT.andThen (hT.plain.checkBound _ _ _) fun _ => hrest

/-! ### Structs -/

/-- Fields are read into their slots; those before the field `index` were read. -/
theorem getFields (hw : GivesTypes H T walk) (hl : GivesTypes H T last) (layout : Nat)
    (site : Site ScopeId) {fields : List Descriptor} (before ds : List Descriptor)
    (hf : fields = before ++ ds) (index : Nat)
    (hi : index = (before.filter Descriptor.isField).length) (slots : Array Value) :
    H (fun slots' => Slots env T layout fields slots.toList → Slots env T layout fields slots'.toList)
      (getFields env walk last layout site index ds slots) := by
  induction ds generalizing before index slots with
  | nil => exact hT.pure id
  | cons d ds ih =>
    unfold Unmarshal.getFields
    have hf' : fields = (before ++ [d]) ++ ds := by rw [hf, List.append_assoc]; rfl
    by_cases hd : d.isField = true
    · rw [if_pos hd]
      have hget : (fields.filter Descriptor.isField)[index]? = some d := by
        rw [hf, List.filter_append, List.filter_cons_of_pos hd, hi,
          List.getElem?_append_right (Nat.le_refl _), Nat.sub_self]
        rfl
      have hrest : ∀ v : Value, H (fun slots' => T d v → Slots env T layout fields slots.toList →
          Slots env T layout fields slots'.toList) (do
          setField site.scope index v.toInt?
          let slot ← env.interface.layout.slot layout index
          Unmarshal.getFields env walk last layout site (index + 1) ds
            (slots.setIfInBounds slot v)) := by
        intro v
        refine hT.andThen (hT.plain.setField _ _ _) fun _ => hT.bind (hT.lift _) fun slot => ?_
        have hi' : index + 1 = ((before ++ [d]).filter Descriptor.isField).length := by
          rw [List.filter_append, List.length_append, hi, List.filter_cons_of_pos hd]
          rfl
        refine hT.mono (ih _ hf' _ hi' _) fun slots' h hslot hv hs => h ?_
        exact hs.setIfInBounds hget hslot hv
      exact Asserts.ite (hT.bind (hw d site) hrest) (hT.bind (hl d site) hrest)
    · rw [if_neg hd]
      refine hT.andThen (hw d site) fun _ => ih _ hf' _ ?_ _
      rw [List.filter_append, List.filter_cons_of_neg hd, List.length_append, hi]
      rfl

theorem getBody (hw : GivesTypes H T walk) (hl : GivesTypes H T last) (align layout count : Nat)
    (fields : List Descriptor) (site : Site ScopeId) :
    H (fun v => ∃ slots, v = .struct slots ∧ Slots env T layout fields slots)
      (getBody env walk last align layout count fields site) := by
  refine hT.andThen (hT.plain.align _) fun _ => ?_
  refine hT.bind (hT.getFields hw hl layout site [] fields rfl 0 rfl _) fun slots => ?_
  refine hT.andThen (hT.plain.verifyLate _) fun _ => hT.pure fun h => ⟨_, rfl, h fun k v hv => .inl ?_⟩
  rw [Array.toList_replicate] at hv
  exact (List.mem_replicate.1 (List.mem_of_getElem? hv)).2

theorem structBody (hw : GivesTypes H T walk) (hl : GivesTypes H T last) {o : Nat} {m : Modifiers}
    {props : UInt8} {kind : StructKind} {definition : Nat} {s : StructDefinition} (count : Nat)
    (site : Site ScopeId) :
    H (fun v => env.vector.structDefinition definition = .ok s →
        T ⟨o, m, .struct kind props definition⟩ v)
      (Unmarshal.getBody env walk last s.align s.layout count s.fields site) := by
  refine hT.mono (hT.getBody hw hl _ _ _ _ _) ?_
  rintro v ⟨slots, rfl, h⟩ hs
  exact hT.struct hs h

theorem getTail {room : Nat} (hw : GivesTypes H T (Unmarshal.walk env room)) (extents : List Nat)
    (levels : Nat) : GivesTypes H T (getTail env (Unmarshal.walk env room) extents levels) := by
  induction levels with
  | zero =>
    rintro ⟨o, m, form⟩ site
    unfold Unmarshal.getTail
    cases form with
    | array kind props dims definition => exact Asserts.ite (hT.array _ _ hw) (hw _ _)
    | struct kind props definition => exact Asserts.ite (hw _ _) (hT.throw _)
    | _ => exact hw _ _
  | succ levels ih =>
    rintro ⟨o, m, form⟩ site
    unfold Unmarshal.getTail
    cases form with
    | array kind props dims definition => exact Asserts.ite (hT.array _ _ hw) (hw _ _)
    | struct kind props definition =>
      refine Asserts.ite (hw _ _) (hT.bind (hT.lift _) fun s => hT.andThen (hT.lift _) fun count => ?_)
      exact hT.andThen (hT.plain.openStruct _ _) fun _ => hT.structBody hw ih _ _
    | _ => exact hw _ _

theorem getStruct {room : Nat} (hw : GivesTypes H T (Unmarshal.walk env room)) {o : Nat}
    {m : Modifiers} {props : UInt8} (kind : StructKind) (definition : Nat) (site : Site ScopeId) :
    H (T ⟨o, m, .struct kind props definition⟩)
      (getStruct env (Unmarshal.walk env room) kind definition site) := by
  refine hT.bind (hT.lift _) fun d => hT.andThen (hT.lift _) fun count => ?_
  refine hT.andThen (hT.plain.openStruct _ _) fun inner => ?_
  refine Asserts.ite (hT.structBody hw hw _ _) (hT.andThen (hT.lift _) fun hoisted => ?_)
  exact hT.andThen (hT.getExtents _ _) fun _ => hT.structBody hw (hT.getTail hw _ _) _ _

theorem getNested (hw : GivesTypes H T walk) {o : Nat} {m : Modifiers} (align layout : Nat)
    (fields : List Descriptor) (site : Site ScopeId) :
    H (T ⟨o, m, .nested align layout fields⟩) (getNested env walk align layout fields site) := by
  refine hT.andThen (hT.lift _) fun count => hT.andThen (hT.plain.openStruct _ _) fun inner => ?_
  refine hT.mono (hT.getBody hw hw _ _ _ _ _) ?_
  rintro v ⟨slots, rfl, h⟩
  exact hT.nested h

/-! ### Values -/

theorem getConverted (hw : GivesTypes H T walk) {o : Nat} {m : Modifiers} {kind : ConversionKind}
    {props : UInt8} (index wire : Nat) (site : Site ScopeId) :
    H (T ⟨o, m, .converted kind props index wire⟩) (getConverted env walk index wire site) := by
  refine hT.bind (hT.lift _) fun routine => hT.bind (hT.lift _) fun d => hT.check ?_
  refine hT.bind (hw d _) fun w => ?_
  refine hT.seeCalls (f := fun calls => do
    recordCall (.fromWire index w (Routine.succeeded (routine.fromWire calls w)))
    recordCall (.freeWire index w)
    routine.fromWire calls w) fun calls => ?_
  refine hT.andThen (hT.plain.call _) fun _ => hT.andThen (hT.plain.call _) fun _ => ?_
  exact hT.mono (hT.lift _) fun v hv hw hd hroutine => hT.converted hroutine hd hw hv

/-- **What walks give**: values of their descriptors. -/
theorem walks (room : Nat) : GivesTypes H T (Unmarshal.walk env room) := by
  induction room with
  | zero => exact fun _ _ => hT.throw _
  | succ room ih =>
    rintro ⟨o, m, form⟩ site
    show H _ (getForm env (Unmarshal.walk env room) ⟨o, m, form⟩ site)
    unfold getForm
    cases form with
    | scalar kind =>
      refine hT.bind (hT.scalar kind) fun v => hT.andThen (hT.lift _) fun _ => hT.pure ?_
      rintro ⟨n, rfl⟩
      exact hT.ofWord n
    | struct kind props definition => exact hT.getStruct ih _ _ _
    | nested align layout fields => exact hT.getNested ih _ _ _ _
    | array kind props dims definition => exact hT.array _ _ ih
    | encapsulatedUnion props definition => exact hT.getUnion ih (.inl ⟨_, rfl⟩)
    | switchedUnion props field definition => exact hT.getUnion ih (.inr ⟨_, _, rfl⟩)
    | pointer kind props pointee => exact hT.pointer _ ih
    | ignore => exact hT.andThen hT.plain.count fun _ => hT.pure hT.ignore
    | converted kind props routine wire => exact hT.getConverted ih _ _ _
    | pipe props element => exact hT.throw _
    | context direction => exact hT.context _ _
    | align boundary => exact hT.andThen (hT.plain.align _) fun _ => hT.pure hT.align
    | deletedNodes => exact hT.deletedNodes
    | void => exact hT.pure hT.void
    | unhosted opcode => exact hT.throw _

end Typing

end Ndr.Unmarshal
