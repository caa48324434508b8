import Ndr.Machine
import Ndr.Proofs.Conformance.Chain
import Ndr.Proofs.Lockstep.Array
import Ndr.Value.Equality

/-!
Conformance ahead of structs: where structs end one with the other and the last one with a conformant
array, writing puts the extents of that array ahead of the outermost struct and nowhere else, and
reading takes them from there for the same array.
-/

namespace Ndr

open TypeVector (Chain)

variable {d : StructDefinition} {ds : List StructDefinition} {f : Descriptor} {kind : ArrayKind}
  {props : UInt8} {n dims t levels : Nat}

/-- The number of the last field of a struct. -/
def StructDefinition.lastIndex (d : StructDefinition) : Nat :=
  (d.fields.filter Descriptor.isField).length - 1

theorem conformantTail?_of_array (hlast : d.lastField? = some f)
    (hform : f.form = .array kind props dims t) (hkind : kind.isConformant) :
    conformantTail? d.fields t = some (d.lastIndex, .array f.modifiers kind dims t) := by
  unfold StructDefinition.lastField? at hlast
  unfold conformantTail?
  simp [hlast, hform, hkind, StructDefinition.lastIndex]

theorem conformantTail?_of_struct {kind : StructKind} {definition : Nat}
    (hlast : d.lastField? = some f) (hform : f.form = .struct kind props definition)
    (hkind : kind ≠ .fixed) :
    conformantTail? d.fields t = some (d.lastIndex, .struct definition) := by
  unfold StructDefinition.lastField? at hlast
  unfold conformantTail?
  simp [hlast, hform, hkind, StructDefinition.lastIndex]

/-- The last field is among those behind a descriptor, where there are any. -/
theorem getLast?_fields_cons {g : Descriptor} {fields : List Descriptor}
    (h : fields.any Descriptor.isField) : ((g :: fields).filter Descriptor.isField).getLast? =
      (fields.filter Descriptor.isField).getLast? := by
  obtain ⟨e, he, hfield⟩ := List.any_eq_true.1 h
  have hne := List.ne_nil_of_mem (List.mem_filter.2 ⟨he, hfield⟩)
  rw [List.filter_cons]
  split
  · exact List.getLast?_cons_of_ne_nil hne
  · rfl

theorem filter_fields_eq_nil {fields : List Descriptor} (h : ¬fields.any Descriptor.isField) :
    fields.filter Descriptor.isField = [] :=
  List.filter_eq_nil_iff.2 fun e he hfield => h (List.any_eq_true.2 ⟨e, he, hfield⟩)

/-- The kind of a struct and the array at its end agree on the width of the counts. -/
theorem width_of_kind {outer : StructKind} (h : outer = .v1Conformant → f.modifiers.isV1) :
    decide (outer = .v1Conformant ∨ f.modifiers.isV1 = true) = f.modifiers.isV1 := by
  cases hm : f.modifiers.isV1 with
  | true => simp
  | false => simpa [hm] using h

/-! ### Writing -/

namespace Marshal

section

variable (env : Env)

/-- The value at the end of structs each of which is the last field of the one before it, and the
scope that it stands in. -/
def heldAtEnd : List StructDefinition → Value → Scope → Except Fault (Value × Scope)
  | [], v, scope => return (v, scope)
  | d :: ds, v, _ => do
    let slots ← structSlots v
    let scope ← scopeOf env d.layout d.fields slots
    heldAtEnd ds (← slotValue env d.layout slots d.lastIndex) scope

/-- Write structs each of which is the last field of the one before it: each one is aligned, and its
fields are written in its own scope, the last one as the next struct. What the innermost struct ends
with is written by `last`. -/
def putChain (walk : Walk) (last : Value → Site Scope → Marshalling Unit) :
    List StructDefinition → Value → Site Scope → Marshalling Unit
  | [], v, site => last v site
  | d :: ds, v, site => do
    let slots ← structSlots v
    let scope ← scopeOf env d.layout d.fields slots
    put (Writer.align d.align)
    putFields env walk (fun _ v site => putChain walk last ds v site) d.layout slots
      { site with scope, embedded := true } 0 d.fields

/-- Write an array of this shape without its extents. -/
def putUncounted (walk : Walk) (m : Modifiers) (kind : ArrayKind) (dims definition : Nat)
    (shape : Shape) (v : Value) (site : Site Scope) : Marshalling Unit := do
  let parts ← arrayParts env kind dims definition v
  putContents env walk m kind parts.1 shape parts.2 site

/-- Write structs that end with a conformant array: the extents of the array, as its bounds are in
the scope of the innermost struct, and behind them the structs without these extents. -/
def putHoisted (walk : Walk) (m : Modifiers) (kind : ArrayKind) (dims definition : Nat)
    (ds : List StructDefinition) (v : Value) (site : Site Scope) : Marshalling Unit := do
  let held ← heldAtEnd env ds v site.scope
  let parts ← arrayParts env kind dims definition held.1
  let shape ← shapeOf parts.1 kind m.isString parts.2 held.2
  putExtents env shape m.isV1
  putChain env walk (putUncounted env walk m kind dims definition shape) ds v site

end

variable {env : Env} {walk : Walk} {shape : Shape}

/-- The parts of a struct whose definition is known. -/
theorem structParts_bind {α : Type} (hd : env.vector.structDefinition n = .ok d) (v : Value)
    (k : StructDefinition × List Value × Scope → Marshalling α) :
    (do let parts ← structParts env n v; k parts : Marshalling α) = (do
      let slots ← structSlots v
      let scope ← scopeOf env d.layout d.fields slots
      k (d, slots, scope) : Marshalling α) := by
  unfold structParts
  simp only [hd, lift_bind, lift_ok_bind, bind_assoc]
  rfl

/-- Only the last field goes through the walk for it. -/
theorem putFields_congr {last last' : Walk} {layout : Nat} {slots : List Value} {site : Site Scope}
    {fields : List Descriptor} (h : ∀ g, (fields.filter Descriptor.isField).getLast? = some g →
      ∀ v, last g v site = last' g v site) (index : Nat) :
    putFields env walk last layout slots site index fields =
      putFields env walk last' layout slots site index fields := by
  induction fields generalizing index with
  | nil => rfl
  | cons g fields ih =>
    unfold putFields
    by_cases hany : fields.any Descriptor.isField
    · rw [getLast?_fields_cons hany] at h
      simp only [if_pos hany, ih h]
    · have hnone := filter_fields_eq_nil hany
      have hrest := ih fun e he => by rw [hnone] at he; exact absurd he (by simp)
      by_cases hg : g.isField
      · rw [List.filter_cons_of_pos hg, hnone] at h
        simp only [if_pos hg, if_neg hany, hrest, h g rfl]
      · simp only [if_neg hg, hrest]

/-- The shape of the array is found at the end of the chain, through all its structs. -/
theorem trailingShape_eq (h : env.vector.Chain n (d :: ds) f)
    (hform : f.form = .array kind props dims t) (hlevels : (d :: ds).length ≤ levels)
    (outermost : Nat) (slots : List Value) (scope : Scope) :
    trailingShape env outermost t levels d slots scope = (do
      let held ← heldAtEnd env ds (← slotValue env d.layout slots d.lastIndex) scope
      let parts ← arrayParts env kind dims t held.1
      return (f.modifiers.isV1, ← shapeOf parts.1 kind f.modifiers.isString parts.2 held.2)) := by
  generalize hchain : d :: ds = chain at h hlevels
  induction h generalizing d ds levels slots scope with
  | array hd hlast hform' hkind =>
    obtain ⟨rfl, rfl⟩ := List.cons.inj hchain
    obtain ⟨levels, rfl⟩ : ∃ k, levels = k + 1 := ⟨levels - 1, by simp at hlevels; omega⟩
    obtain ⟨rfl, -, rfl, rfl⟩ := TypeForm.array.inj (hform.symm.trans hform')
    unfold trailingShape
    simp only [conformantTail?_of_array hlast hform hkind, heldAtEnd, pure_bind]
  | @struct _ _ _ _ f _ _ _ hd hlast hform' hkind hrest ih =>
    obtain ⟨rfl, rfl⟩ := List.cons.inj hchain
    obtain ⟨levels, rfl⟩ : ∃ k, levels = k + 1 := ⟨levels - 1, by simp at hlevels; omega⟩
    obtain ⟨d', ds', -, rfl, hd', -⟩ := hrest.first
    unfold trailingShape
    simp only [conformantTail?_of_struct hlast hform' hkind, structParts, hd', heldAtEnd, bind_assoc,
      pure_bind]
    refine bind_congr fun held => ?_
    show (structSlots held >>= _) = _
    refine bind_congr fun slots' => bind_congr fun scope' => ?_
    rw [ih hform _ _ rfl (by simpa using hlevels)]

/-- The end of a struct is written as what the chain goes on with. -/
theorem putTail_eq (h : env.vector.Chain n (d :: ds) f)
    (hform : f.form = .array kind props dims t) (hlevels : ds.length ≤ levels) {g : Descriptor}
    (hg : d.lastField? = some g) (v : Value) (site : Site Scope) :
    putTail env walk shape levels g v site =
      putChain env walk (putUncounted env walk f.modifiers kind dims t shape) ds v site := by
  generalize hchain : d :: ds = chain at h
  induction h generalizing d ds levels g v site with
  | array hd hlast hform' hkind =>
    obtain ⟨rfl, rfl⟩ := List.cons.inj hchain
    obtain rfl := Option.some.inj (hlast.symm.trans hg)
    obtain ⟨rfl, -, rfl, rfl⟩ := TypeForm.array.inj (hform.symm.trans hform')
    unfold putTail
    simp only [hform, hkind, if_true, putArray_eq, pure_bind]
    rfl
  | @struct _ _ _ _ f _ _ _ hd hlast hform' hkind hrest ih =>
    obtain ⟨rfl, rfl⟩ := List.cons.inj hchain
    obtain rfl := Option.some.inj (hlast.symm.trans hg)
    obtain ⟨d', ds', -, rfl, hd', -⟩ := hrest.first
    obtain ⟨levels, rfl⟩ : ∃ k, levels = k + 1 := ⟨levels - 1, by simp at hlevels; omega⟩
    have hfields : ∀ slots (site : Site Scope) index,
        putFields env walk (putTail env walk shape levels) d'.layout slots site index d'.fields =
          putFields env walk (fun _ v site => putChain env walk
            (putUncounted env walk f.modifiers kind dims t shape) ds' v site)
            d'.layout slots site index d'.fields := fun slots site index =>
      putFields_congr (fun g hg v => ih hform (by simpa using hlevels) hg v site rfl) index
    unfold putTail
    simp only [hform', if_neg hkind]
    rw [structParts_bind hd']
    simp only [hfields]
    rfl

/-- **The extents of the array at the end of a chain travel ahead of its first struct**, and nowhere
else in it. -/
theorem putStruct_eq (h : env.vector.Chain n (d :: ds) f)
    (hform : f.form = .array kind props dims t) (ht : d.trailing = some t)
    (hlevels : (d :: ds).length ≤ env.config.maxNesting) {outer : StructKind}
    (houter : outer ≠ .fixed) (hv1 : outer = .v1Conformant → f.modifiers.isV1) (v : Value)
    (site : Site Scope) :
    putStruct env walk outer n v site =
      putHoisted env walk f.modifiers kind dims t (d :: ds) v site := by
  obtain ⟨_, _, g, hcons, hd, hg⟩ := h.first
  obtain ⟨rfl, rfl⟩ := List.cons.inj hcons
  have hfields : ∀ shape slots (site : Site Scope) index,
      putFields env walk (putTail env walk shape env.config.maxNesting) d.layout slots site index
          d.fields =
        putFields env walk (fun _ v site => putChain env walk
          (putUncounted env walk f.modifiers kind dims t shape) ds v site)
          d.layout slots site index d.fields := fun shape slots site index =>
    putFields_congr (fun e he v => by
      obtain rfl := Option.some.inj (hg.symm.trans he)
      exact putTail_eq h hform (Nat.le_of_succ_le hlevels) hg v site) index
  unfold putStruct putHoisted heldAtEnd
  rw [structParts_bind hd]
  simp only [lift_bind, bind_assoc]
  refine lift_bind_congr fun slots hslots => lift_bind_congr fun scope hscope => ?_
  simp only [if_neg houter, hoistedShape, ht, trailingShape_eq h hform hlevels, lift_bind, bind_assoc]
  refine bind_congr fun held => bind_congr fun last => bind_congr fun parts => bind_congr fun shape => ?_
  show (do
    putExtents env shape (decide (outer = StructKind.v1Conformant ∨ f.modifiers.isV1 = true))
    put (Writer.align d.align)
    putFields env walk (putTail env walk shape env.config.maxNesting) d.layout slots
      { site with scope, embedded := true } 0 d.fields) = _
  unfold putChain
  simp only [width_of_kind hv1, hfields, hslots, hscope, lift_ok_bind]

end Marshal

/-! ### Reading -/

namespace Unmarshal

section

variable (env : Env)

/-- Read structs each of which is the last field of the one before it, each in a scope of its own.
What the innermost struct ends with is read by `last`. -/
def getChain (walk : Walk) (last : Site ScopeId → Unmarshalling Value) :
    List StructDefinition → Site ScopeId → Unmarshalling Value
  | [], site => last site
  | d :: ds, site => do
    let count ← env.interface.layout.slotCount d.layout
    let inner ← openStruct count site
    getBody env walk (fun _ site => getChain walk last ds site) d.align d.layout count d.fields inner

/-- Read an array whose extents are known, each of which is compared with its bound in the scope
that the array stands in. -/
def getUncounted (walk : Walk) (m : Modifiers) (kind : ArrayKind) (dims definition : Nat)
    (extents : List Nat) (site : Site ScopeId) : Unmarshalling Value := do
  let a ← env.vector.arrayDefinition definition kind.isVarying
  a.checkDims dims
  a.checkBounds kind
  a.checkCharacters m.isString
  getContents env walk m kind a site (some extents)

/-- Read structs, `d` and those that end it, that end with a conformant array: the extents of the
array, and behind them the structs without these extents. -/
def getHoisted (walk : Walk) (m : Modifiers) (kind : ArrayKind) (dims definition : Nat)
    (d : StructDefinition) (ds : List StructDefinition) (site : Site ScopeId) :
    Unmarshalling Value := do
  let count ← env.interface.layout.slotCount d.layout
  let inner ← openStruct count site
  let extents ← getExtents env dims m.isV1
  let last := getUncounted env walk m kind dims definition extents
  getBody env walk (fun _ site => getChain env walk last ds site) d.align d.layout count d.fields inner

end

variable {env : Env} {walk : Walk} {extents : List Nat}

/-- Only the last field goes through the walk for it. -/
theorem getFields_congr {last last' : Walk} {layout : Nat} {site : Site ScopeId}
    {fields : List Descriptor} (h : ∀ g, (fields.filter Descriptor.isField).getLast? = some g →
      last g site = last' g site) (index : Nat) (slots : Array Value) :
    getFields env walk last layout site index fields slots =
      getFields env walk last' layout site index fields slots := by
  induction fields generalizing index slots with
  | nil => rfl
  | cons g fields ih =>
    unfold getFields
    by_cases hany : fields.any Descriptor.isField
    · rw [getLast?_fields_cons hany] at h
      simp only [if_pos hany, ih h]
    · have hnone := filter_fields_eq_nil hany
      have hrest := ih fun e he => by rw [hnone] at he; exact absurd he (by simp)
      by_cases hg : g.isField
      · rw [List.filter_cons_of_pos hg, hnone] at h
        simp only [if_pos hg, if_neg hany, hrest, h g rfl]
      · simp only [if_neg hg, hrest]

/-- The dimensions of the array are found at the end of the chain. -/
theorem trailingDims_eq (h : env.vector.Chain n (d :: ds) f)
    (hform : f.form = .array kind props dims t) (hlevels : (d :: ds).length ≤ levels)
    (outermost : Nat) :
    trailingDims env outermost t levels d = .ok (dims, f.modifiers.isV1) := by
  generalize hchain : d :: ds = chain at h hlevels
  induction h generalizing d ds levels with
  | array hd hlast hform' hkind =>
    obtain ⟨rfl, rfl⟩ := List.cons.inj hchain
    obtain ⟨levels, rfl⟩ : ∃ k, levels = k + 1 := ⟨levels - 1, by simp at hlevels; omega⟩
    obtain ⟨rfl, -, rfl, rfl⟩ := TypeForm.array.inj (hform.symm.trans hform')
    unfold trailingDims
    simp only [conformantTail?_of_array hlast hform hkind]
  | @struct _ _ _ _ f _ _ _ hd hlast hform' hkind hrest ih =>
    obtain ⟨rfl, rfl⟩ := List.cons.inj hchain
    obtain ⟨levels, rfl⟩ : ∃ k, levels = k + 1 := ⟨levels - 1, by simp at hlevels; omega⟩
    obtain ⟨d', ds', -, rfl, hd', -⟩ := hrest.first
    unfold trailingDims
    simp only [conformantTail?_of_struct hlast hform' hkind, hd']
    exact ih hform rfl (by simpa using hlevels)

/-- The end of a struct is read as what the chain goes on with. -/
theorem getTail_eq (h : env.vector.Chain n (d :: ds) f)
    (hform : f.form = .array kind props dims t) (hlevels : ds.length ≤ levels) {g : Descriptor}
    (hg : d.lastField? = some g) (site : Site ScopeId) :
    getTail env walk extents levels g site =
      getChain env walk (getUncounted env walk f.modifiers kind dims t extents) ds site := by
  generalize hchain : d :: ds = chain at h
  induction h generalizing d ds levels g site with
  | array hd hlast hform' hkind =>
    obtain ⟨rfl, rfl⟩ := List.cons.inj hchain
    obtain rfl := Option.some.inj (hlast.symm.trans hg)
    obtain ⟨rfl, -, rfl, rfl⟩ := TypeForm.array.inj (hform.symm.trans hform')
    unfold getTail
    simp only [hform, hkind, if_true, getArray_eq, pure_bind]
    rfl
  | @struct _ _ _ _ f _ _ _ hd hlast hform' hkind hrest ih =>
    obtain ⟨rfl, rfl⟩ := List.cons.inj hchain
    obtain rfl := Option.some.inj (hlast.symm.trans hg)
    obtain ⟨d', ds', -, rfl, hd', -⟩ := hrest.first
    obtain ⟨levels, rfl⟩ : ∃ k, levels = k + 1 := ⟨levels - 1, by simp at hlevels; omega⟩
    have hfields : ∀ (site : Site ScopeId) index slots,
        getFields env walk (getTail env walk extents levels) d'.layout site index d'.fields slots =
          getFields env walk (fun _ site => getChain env walk
            (getUncounted env walk f.modifiers kind dims t extents) ds' site)
            d'.layout site index d'.fields slots := fun site index slots =>
      getFields_congr (fun g hg => ih hform (by simpa using hlevels) hg site rfl) index slots
    unfold getTail
    simp only [hform', if_neg hkind, hd', lift_ok_bind, getBody, hfields]
    rfl

/-- **The extents of the array at the end of a chain are read ahead of its first struct**, as many
as the array has dimensions, and given to that array. -/
theorem getStruct_eq (h : env.vector.Chain n (d :: ds) f)
    (hform : f.form = .array kind props dims t) (ht : d.trailing = some t)
    (hlevels : (d :: ds).length ≤ env.config.maxNesting) {outer : StructKind}
    (houter : outer ≠ .fixed) (hv1 : outer = .v1Conformant → f.modifiers.isV1)
    (site : Site ScopeId) :
    getStruct env walk outer n site =
      getHoisted env walk f.modifiers kind dims t d ds site := by
  obtain ⟨_, _, g, hcons, hd, hg⟩ := h.first
  obtain ⟨rfl, rfl⟩ := List.cons.inj hcons
  have hfields : ∀ extents (site : Site ScopeId) index slots,
      getFields env walk (getTail env walk extents env.config.maxNesting) d.layout site index
          d.fields slots =
        getFields env walk (fun _ site => getChain env walk
          (getUncounted env walk f.modifiers kind dims t extents) ds site)
          d.layout site index d.fields slots := fun extents site index slots =>
    getFields_congr (fun e he => by
      obtain rfl := Option.some.inj (hg.symm.trans he)
      exact getTail_eq h hform (Nat.le_of_succ_le hlevels) hg site) index slots
  unfold getStruct getHoisted
  simp only [hd, lift_ok_bind, if_neg houter, hoistedDims, ht, trailingDims_eq h hform hlevels,
    width_of_kind hv1,
    getBody, hfields]

end Unmarshal

/-! ### Counts -/

/-- Counts one behind the other, the first of them behind its padding. -/
def countBytes (order : ByteOrder) (width position : Nat) : List Nat → List UInt8
  | [] => []
  | n :: ns => List.replicate (padding position width) 0 ++ (n :: ns).flatMap (order.encode width)

/-- The bytes of a count. -/
def countWidth (v1 : Bool) : Nat := if v1 then 2 else 4

section

variable {order : ByteOrder} {width position : Nat}

theorem countBytes_of_aligned (h : padding position width = 0) (ns : List Nat) :
    countBytes order width position ns = ns.flatMap (order.encode width) := by
  cases ns with
  | nil => rfl
  | cons => rw [countBytes, h]; rfl

/-- Behind an aligned count the position is aligned. -/
theorem padding_alignedBytes {v1 : Bool} {n : Nat} : padding (position +
    (alignedBytes order (countWidth v1) n position).length) (countWidth v1) = 0 := by
  have hlength : (alignedBytes order (countWidth v1) n position).length =
      padding position (countWidth v1) + countWidth v1 := by
    simp [alignedBytes]
  rw [hlength]
  cases v1 <;> simp only [padding, countWidth] <;> simp <;> omega

theorem countBytes_cons {v1 : Bool} {n : Nat} {ns : List Nat} :
    countBytes order (countWidth v1) position (n :: ns) =
      alignedBytes order (countWidth v1) n position ++ countBytes order (countWidth v1)
        (position + (alignedBytes order (countWidth v1) n position).length) ns := by
  rw [countBytes_of_aligned padding_alignedBytes, alignedBytes, countBytes, List.flatMap_cons,
    List.append_assoc]

end

theorem Marshal.wrote_putSize {env : Marshal.Env} {v1 : Bool} {n : Nat} {u : Unit}
    {s s' : Marshal.State} (e : putSize env v1 n s = .ok u s') : n < 256 ^ countWidth v1 ∧
      Writer.Wrote s.writer s'.writer
        (alignedBytes env.order (countWidth v1) n s.writer.position) := by
  have heq : putSize env v1 n = (if 256 ^ countWidth v1 ≤ n then throw .integerOverflow
      else put (Writer.putAligned env.order (countWidth v1) n)) := by
    cases v1 with
    | true | false => rfl
  rw [heq] at e
  split at e
  · exact absurd e throw_ne_ok
  · rename_i hn
    obtain ⟨w, hput, rfl⟩ := onPart_eq_ok.1 e
    exact ⟨Nat.not_le.1 hn, Writer.wrote_putAligned hput⟩

/-- The extents of a shape are written one behind the other, and no other bytes. -/
theorem Marshal.wrote_putExtents {env : Marshal.Env} {shape : Shape} {v1 : Bool} {u : Unit}
    {s s' : Marshal.State} (e : putExtents env shape v1 s = .ok u s') :
    (∀ n ∈ shape.map (·.extent), n < 256 ^ countWidth v1) ∧
      Writer.Wrote s.writer s'.writer (countBytes env.order (countWidth v1) s.writer.position
        (shape.map (·.extent))) := by
  unfold putExtents at e
  induction shape generalizing s with
  | nil =>
    obtain ⟨-, rfl⟩ := pure_eq_ok.1 e
    exact ⟨fun n hn => absurd hn List.not_mem_nil, .refl⟩
  | cons p shape ih =>
    obtain ⟨_, s1, h1, e⟩ := bind_eq_ok.1 e
    obtain ⟨hn, hwrote⟩ := wrote_putSize h1
    obtain ⟨hrest, hwrote'⟩ := ih e
    rw [hwrote.position] at hwrote'
    refine ⟨List.forall_mem_cons.2 ⟨hn, hrest⟩, ?_⟩
    rw [List.map_cons, countBytes_cons]
    exact hwrote.trans hwrote'

theorem Unmarshal.getSize_ok {env : Unmarshal.Env} {v1 : Bool} {n : Nat}
    (hn : n < 256 ^ countWidth v1) {u : Unmarshal.State} {tail : List UInt8}
    (hr : u.reader.rest =
      alignedBytes env.order (countWidth v1) n u.reader.position ++ tail) :
    ∃ r, getSize env v1 u = .ok n { u with reader := r } ∧ Reader.Took u.reader r
      (alignedBytes env.order (countWidth v1) n u.reader.position).length tail := by
  obtain ⟨r, hok, htook⟩ := Reader.getAligned_ok hn hr
  have heq : getSize env v1 = fetch (Reader.getAligned env.order (countWidth v1)) := by
    cases v1 with
    | true | false => rfl
  rw [heq]
  exact ⟨r, onPart_eq_ok.2 ⟨r, hok, rfl⟩, htook⟩

/-- Extents that were written are read where they stand. -/
theorem Unmarshal.getExtents_ok {env : Unmarshal.Env} {v1 : Bool} {ns : List Nat}
    (hn : ∀ n ∈ ns, n < 256 ^ countWidth v1) {u : Unmarshal.State} {tail : List UInt8}
    (hr : u.reader.rest =
      countBytes env.order (countWidth v1) u.reader.position ns ++ tail) :
    ∃ r, getExtents env ns.length v1 u = .ok ns { u with reader := r } ∧ r.rest = tail := by
  unfold getExtents
  induction ns generalizing u with
  | nil => exact ⟨u.reader, rfl, hr⟩
  | cons n ns ih =>
    obtain ⟨hn, hrest⟩ := List.forall_mem_cons.1 hn
    rw [countBytes_cons, List.append_assoc] at hr
    obtain ⟨r, hok, htook⟩ := getSize_ok hn hr
    obtain ⟨r', hok', hr'⟩ := ih hrest (u := { u with reader := r }) (by
      rw [htook.rest, htook.position])
    refine ⟨r', ?_, hr'⟩
    rw [List.length_cons, repeatM_succ]
    exact bind_eq_ok.2 ⟨n, _, hok, map_eq_ok.2 ⟨ns, hok', rfl⟩⟩

/-- **The counts that travel ahead of a chain.** Where a chain of structs is written, its message
begins with the extents of the array at its end, one for each dimension, as its bounds are in the
innermost struct. Wherever these bytes stand at that position, reading finds the same extents. -/
theorem Marshal.extents_travel {env : Marshal.Env} {walk : Walk} {m : Modifiers}
    {v : Value} {site : Site Scope} {u : Unit} {s s' : State}
    (e : putHoisted env walk m kind dims t ds v site s = .ok u s') :
    ∃ held parts shape s₁, heldAtEnd env ds v site.scope = .ok held ∧
      arrayParts env kind dims t held.1 = .ok parts ∧
      shapeOf parts.1 kind m.isString parts.2 held.2 = .ok shape ∧ shape.length = dims ∧
      Writer.Wrote s.writer s₁.writer (countBytes env.order (countWidth m.isV1) s.writer.position
        (shape.map (·.extent))) ∧
      putChain env walk (putUncounted env walk m kind dims t shape) ds v site s₁ = .ok u s' ∧
      ∀ (env' : Unmarshal.Env) (w : Unmarshal.State) (tail : List UInt8), env'.order = env.order →
        w.reader.position = s.writer.position →
        w.reader.rest = countBytes env.order (countWidth m.isV1) s.writer.position
          (shape.map (·.extent)) ++ tail →
        ∃ r, Unmarshal.getExtents env' dims m.isV1 w =
          .ok (shape.map (·.extent)) { w with reader := r } ∧ r.rest = tail := by
  obtain ⟨held, _, h1, e⟩ := bind_eq_ok.1 e
  obtain ⟨hheld, rfl⟩ := lift_eq_ok.1 h1
  obtain ⟨parts, _, h2, e⟩ := bind_eq_ok.1 e
  obtain ⟨hparts, rfl⟩ := lift_eq_ok.1 h2
  obtain ⟨shape, _, h3, e⟩ := bind_eq_ok.1 e
  obtain ⟨hshape, rfl⟩ := lift_eq_ok.1 h3
  obtain ⟨_, s₁, h4, hchain⟩ := bind_eq_ok.1 e
  obtain ⟨hfits, hwrote⟩ := wrote_putExtents h4
  have hdims : shape.length = dims := by
    obtain ⟨-, hdims, -⟩ := arrayParts_eq_ok hparts
    obtain ⟨-, -, hshapes⟩ := shapeOf_eq_ok hshape
    unfold ArrayDefinition.checkDims at hdims
    split at hdims
    · rename_i hdims'
      rw [hdims', hshapes.length_eq]
    · exact absurd hdims (by simp)
  refine ⟨held, parts, shape, s₁, hheld, hparts, hshape, hdims, hwrote, hchain,
    fun env' w tail horder hposition hr => ?_⟩
  rw [← horder, ← hposition] at hr
  obtain ⟨r, hok, hrest⟩ := Unmarshal.getExtents_ok hfits hr
  rw [List.length_map, hdims] at hok
  exact ⟨r, hok, hrest⟩

/-! ### Assembled interfaces -/

namespace Assembler

variable {i : Interface} {a b : Assembler} {id : StructId} {ids : List StructId}
  {array : ArraySpec} {log : List (Nat × Request)}

/-- What both sides make of a struct that ends, through the structs behind it, with an array that is
defined at `t`. -/
structure Hoists (i : Interface) (array : ArraySpec) (t : Nat) (first : StructDefinition)
    (rest : List StructDefinition) (d : Descriptor) : Prop where
  writes (env : Marshal.Env) (henv : env.interface = i)
    (hlevels : (first :: rest).length ≤ env.config.maxNesting) (walk : Marshal.Walk) (v : Value)
    (site : Site Scope) : Marshal.putForm env walk d v site =
      Marshal.putHoisted env walk (array.modify {}) array.kind array.bounds.length t (first :: rest)
        v site
  reads (env : Unmarshal.Env) (henv : env.interface = i)
    (hlevels : (first :: rest).length ≤ env.config.maxNesting) (walk : Unmarshal.Walk)
    (site : Site ScopeId) : Unmarshal.getForm env walk d site =
      Unmarshal.getHoisted env walk (array.modify {}) array.kind array.bounds.length t first rest
        site

/-- A descriptor of the first struct of a chain is written and read with the extents of the array at
the end of the chain ahead of it. -/
theorem hoists_of_settled (hs : Settled i a a) (hplain : ∀ id s, a.spec? id = some s → s.Plain)
    (h : a.Chain (id :: ids) array) {m : Modifiers} {d : Descriptor}
    (hd : Spells i a m (.struct id) d) :
    ∃ n first rest f t, SpellsChain i a (id :: ids) array n first rest f t ∧
      Hoists i array t first rest d := by
  obtain ⟨s, outer, props, n, hform, -, hspec, htells, hoffset⟩ := spells_struct hd
  obtain ⟨houter, hkind⟩ := kind_of_tells htells (h.endsWith hspec)
  obtain ⟨first, rest, f, t, hchain, ht⟩ := chain_of_settled hs hplain h hoffset
  obtain ⟨-, hmodifiers, props', t', hf⟩ := spells_arrayForm hchain.array
  obtain rfl : t' = t := by
    have := hchain.place
    rw [hf] at this
    exact Option.some.inj this
  have hv1 : outer = .v1Conformant → f.modifiers.isV1 := fun he => by
    rw [hmodifiers, array.isV1_modify, hkind.1 he]
  refine ⟨n, first, rest, f, t', hchain, ?_, ?_⟩
  · rintro env rfl hlevels walk v site
    unfold Marshal.putForm
    simp only [hform]
    rw [Marshal.putStruct_eq hchain.chain hf ht hlevels houter hv1, hmodifiers]
  · rintro env rfl hlevels walk site
    unfold Unmarshal.getForm
    simp only [hform]
    rw [Unmarshal.getStruct_eq hchain.chain hf ht hlevels houter hv1, hmodifiers]

/-- **Conformance is ahead of the outermost struct.** In an interface that was assembled, where structs
end by value one with the other and the last one with a conformant array, the assembler, the writer
and the reader go by the same array: its extents are ahead of the first struct, and in none of them. -/
theorem conformance_hoisted (h : Assembled b log) (e : Interface.ofAssembler b = .ok i)
    (hi : i.Small) (hstructs : ∀ id s, b.spec? id = some s → s.Plain)
    (hlog : ∀ p ∈ log, p.2.Plain) :
    ∃ a : Assembler, (∀ id, a.spec? id = b.spec? id) ∧ (∀ p ∈ log, p.2.ReadAt i a p.1) ∧
      ∀ id ids array m d, b.Chain (id :: ids) array → Spells i a m (.struct id) d →
        ∃ n first rest f t, SpellsChain i a (id :: ids) array n first rest f t ∧
          Hoists i array t first rest d := by
  obtain ⟨a, hspec, hsettled, hread⟩ := settled_of_ofAssembler h e hi
  exact ⟨a, hspec, fun p hp => hread p hp (hlog p hp), fun id ids array m d hchain hd =>
    hoists_of_settled hsettled (fun id s hs => hstructs id s ((hspec id).symm.trans hs))
      (hchain.congr hspec) hd⟩

end Assembler

/-! ### Structs in place -/

/-- A vector whose only parameter list, at 12, has a struct of a short and a nested struct; the nested
struct has a long, and ends with an array of as many shorts. -/
def nestedTailVector : TypeVector where
  bytes := #[8, 0, 10, 0, 1, 255, 255, 255, 0, 0, 0, 0, 1, 0, 0, 0, 0, 0, 0, 0, 15, 2, 255, 255,
    56, 0, 0, 0, 254, 255, 255, 255, 1, 255, 255, 255, 0, 0, 0, 255, 0, 0, 0, 0, 3, 9, 0, 255, 0,
    0, 0, 0, 8, 254, 255, 255, 4, 2, 255, 255, 0, 0, 0, 0, 255, 255, 255, 255, 8, 18, 4, 255, 3,
    0, 0, 0, 9, 22, 2, 1, 32, 0, 0, 0, 19, 254]
  order := .little
  minor := 10

/-- **A nested struct is no struct of a chain.** The struct around it is a fixed one, and the count of
the array is not ahead of either, but where the array stands. -/
theorem nested_count_in_place :
    let m : Machine := { interface := { vector := nestedTailVector, layout := ⟨#[2, 0, 1, 2, 0, 1]⟩ } }
    let v : Value := .struct [.short 7, .struct [.long 2, .array [.short 1, .short 2]]]
    (m.marshal {} 12 [v] .reliable).transport.message =
        [7, 0, 0, 0, 2, 0, 0, 0, 2, 0, 0, 0, 1, 0, 2, 0] ∧
      (m.unmarshal {} 12 [.void] (.ofBytes [7, 0, 0, 0, 2, 0, 0, 0, 2, 0, 0, 0, 1, 0, 2, 0])).result =
        .ok [v] := by
  decide +kernel

end Ndr
