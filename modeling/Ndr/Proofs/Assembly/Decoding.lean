import Ndr.Proofs.Assembly.Finishing
import Ndr.Proofs.TypeVector.Containment

/-!
Vectors that hold the same entries in either byte order are read alike: the reader takes bytes where
bytes were laid down and words where words were, and goes on only to records that were laid down.
-/

namespace Ndr

open Entries

/-- A type that refers to nothing is read as a form. -/
inductive Leaf : TypeSpec → TypeForm → Prop where
  | scalar (kind : Scalar) : Leaf (.scalar kind) (.scalar kind)
  | ignore : Leaf .ignore .ignore
  | context (direction : ContextDirection) : Leaf (.context direction) (.context direction)
  | align (boundary : Boundary) : Leaf (.align boundary.toNat) (.align boundary)
  | deletedNodes : Leaf .deletedNodes .deletedNodes
  | void : Leaf .void .void

/-- A descriptor is read of a type, and what it refers to is that of the type: a record of which `K`
holds, or a struct whose offset `T` tells. -/
inductive Descriptor.Known (T : StructId → Nat → Prop) (K : Kind → Nat → Prop) :
    TypeSpec → Descriptor → Prop where
  | leaf {t : TypeSpec} {o : Nat} {m : Modifiers} {form : TypeForm} (h : Leaf t form) :
      Known T K t ⟨o, m, form⟩
  | range {kind : Scalar} {lower upper : UInt32} {d : Descriptor} (h : Known T K (.scalar kind) d) :
      Known T K (.range kind lower upper) d
  | freeRep {routine : UInt32} {t : TypeSpec} {d : Descriptor} (h : Known T K t d) :
      Known T K (.freeRep routine t) d
  | struct {id : StructId} {o n : Nat} {m : Modifiers} {kind : StructKind} {props : UInt8}
      (h : T id n) : Known T K (.struct id) ⟨o, m, .struct kind props n⟩
  | nested {s : StructSpec} {o align layout : Nat} {m : Modifiers} {fields : List Descriptor}
      (hlength : s.fields.length = fields.length)
      (h : ∀ t f, (t, f) ∈ s.fields.zip fields → Known T K t f) :
      Known T K (.nested s) ⟨o, m, .nested align layout fields⟩
  | array {s : ArraySpec} {o dims n : Nat} {m : Modifiers} {props : UInt8} (h : K (.array s) n) :
      Known T K (.array s) ⟨o, m, .array s.kind props dims n⟩
  | encapsulatedUnion {u : UnionSpec} {o n : Nat} {m : Modifiers} {props : UInt8}
      (h : K (.union u) n) : Known T K (.union u) ⟨o, m, .encapsulatedUnion props n⟩
  | switchedUnion {u : UnionSpec} {o field n : Nat} {m : Modifiers} {props : UInt8}
      (h : K (.union u) n) : Known T K (.union u) ⟨o, m, .switchedUnion props field n⟩
  | pointer {kind : PointerKind} {t : TypeSpec} {o n : Nat} {m : Modifiers} {props : UInt8}
      (h : K (.stream t) n) : Known T K (.pointer kind t) ⟨o, m, .pointer kind props n⟩
  | converted {kind : ConversionKind} {routine : UInt32} {t : TypeSpec} {o r n : Nat}
      {m : Modifiers} {props : UInt8} (h : K (.stream t) n) :
      Known T K (.converted kind routine t) ⟨o, m, .converted kind props r n⟩
  | pipe {t : TypeSpec} {o n : Nat} {m : Modifiers} {props : UInt8} (h : K (.stream t) n) :
      Known T K (.pipe t) ⟨o, m, .pipe props n⟩

/-- The fields of a struct are read of its types. -/
abbrev Descriptor.KnownAll (T : StructId → Nat → Prop) (K : Kind → Nat → Prop) :
    List TypeSpec → List Descriptor → Prop := List.Forall₂ (Descriptor.Known T K)

section

variable {T : StructId → Nat → Prop} {K : Kind → Nat → Prop} {t : TypeSpec} {d : Descriptor}

/-- A nested struct whose fields are read of its types. -/
theorem Descriptor.Known.of_fields {s : StructSpec} {o align layout : Nat} {m : Modifiers}
    {fields : List Descriptor} (h : Descriptor.KnownAll T K s.fields fields) :
    Descriptor.Known T K (.nested s) ⟨o, m, .nested align layout fields⟩ := by
  obtain ⟨hlength, h⟩ := List.forall₂_iff_zip.1 h
  exact .nested hlength fun _ _ => h

/-- What is known of all that a type refers to. -/
theorem Descriptor.Known.form (h : d.Known T K t) :
    match d.form with
    | .struct _ _ n => ∃ id, T id n
    | .nested _ _ fields => ∀ f ∈ fields, ∃ t, f.Known T K t
    | .array kind _ _ n => ∃ s, s.kind = kind ∧ K (.array s) n
    | .encapsulatedUnion _ n | .switchedUnion _ _ n => ∃ u, K (.union u) n
    | .pointer _ _ n | .converted _ _ _ n | .pipe _ n => ∃ t, K (.stream t) n
    | .scalar _ | .ignore | .context _ | .align _ | .deletedNodes | .void | .unhosted _ => True := by
  induction h with
  | leaf h => cases h <;> trivial
  | range _ ih => exact ih
  | freeRep _ ih => exact ih
  | nested hlength h _ =>
    exact fun f hf => exists_imp.2 (fun t ht => ⟨t, ht.2⟩)
      (exists_of_forall₂ (List.forall₂_iff_zip.2 ⟨hlength, fun h' => h _ _ h'⟩).flip hf)
  | array h => exact ⟨_, rfl, h⟩
  | struct h | encapsulatedUnion h | switchedUnion h | pointer h | converted h | pipe h =>
    exact ⟨_, h⟩

end

namespace TypeVector

variable {α β : Type} {V : ByteOrder → TypeVector} {T : StructId → Nat → Prop}
  {K : Kind → Nat → Prop} {p : Nat} {es es' rest : List Entry} {items more : List Item}

/-! ### Scans in either order -/

/-- From `p` on, a scan goes alike in the vectors of either order, to results of which `Q` holds. -/
def Alike (V : ByteOrder → TypeVector) (p : Nat) (x : TypeVector → Scan α) (Q : α → Nat → Prop) :
    Prop :=
  ∃ r, (∀ order, x (V order) p = r) ∧ ∀ a q, r = .ok a q → Q a q

namespace Alike

variable {x y : TypeVector → Scan α} {P Q : α → Nat → Prop}

theorem pure {a : α} (h : Q a p) : Alike V p (fun _ => pure a) Q :=
  ⟨_, fun _ => rfl, fun _ _ e => by
    obtain ⟨rfl, rfl⟩ := pure_eq_ok.1 e
    exact h⟩

theorem throw (e : Fault) : Alike V p (fun _ => throw e) Q :=
  ⟨_, fun _ => rfl, fun _ _ e => absurd e throw_ne_ok⟩

theorem of_ok {a : α} {q : Nat} (hx : ∀ order, x (V order) p = .ok a q) (h : Q a q) :
    Alike V p x Q :=
  ⟨_, hx, fun _ _ e => by
    obtain ⟨rfl, rfl⟩ := EStateM.Result.ok.inj e
    exact h⟩

theorem mono (h : Alike V p x P) (hPQ : ∀ a q, P a q → Q a q) : Alike V p x Q := by
  obtain ⟨r, hr, hP⟩ := h
  exact ⟨r, hr, fun a q e => hPQ a q (hP a q e)⟩

theorem bind {f : TypeVector → α → Scan β} {Q : β → Nat → Prop} (h : Alike V p x P)
    (hf : ∀ a q, P a q → Alike V q (fun tv => f tv a) Q) :
    Alike V p (fun tv => x tv >>= f tv) Q := by
  obtain ⟨r, hr, hP⟩ := h
  cases r with
  | ok a q =>
    obtain ⟨r', hr', hQ⟩ := hf a q (hP a q rfl)
    exact ⟨r', fun order => (bind_of_ok (hr order) _).trans (hr' order), hQ⟩
  | error e q =>
    exact ⟨.error e q, fun order => bind_of_error (hr order) _, fun _ _ e => absurd e (by simp)⟩

/-- A scan that depends on where it starts. -/
theorem see {f : TypeVector → Nat → Scan α} (h : Alike V p (fun tv => f tv p) Q) :
    Alike V p (fun tv => get >>= f tv) Q := h

/-- A check ahead of a scan. -/
theorem guard {c : Prop} [Decidable c] {e : Fault} {f : TypeVector → PUnit → Scan α}
    (h : ¬c → Alike V p (fun tv => f tv ⟨⟩) Q) :
    Alike V p (fun tv => if c then MonadExcept.throw e >>= f tv else f tv ⟨⟩) Q := by
  by_cases hc : c
  · simp only [if_pos hc]
    exact (throw e (Q := fun _ _ => False)).bind fun _ _ h => h.elim
  · simp only [if_neg hc]
    exact h hc

theorem lift {c : Except Fault α} {f : TypeVector → α → Scan β} {Q : β → Nat → Prop}
    (h : ∀ a, c = .ok a → Alike V p (fun tv => f tv a) Q) :
    Alike V p (fun tv => liftM c >>= f tv) Q := by
  cases c with
  | ok a => exact h a rfl
  | error e => exact (throw e (Q := fun _ _ => False)).bind fun _ _ h => h.elim

theorem congr (h : Alike V p x Q) (hxy : ∀ order, y (V order) p = x (V order) p) :
    Alike V p y Q := by
  obtain ⟨r, hr, hQ⟩ := h
  exact ⟨r, fun order => (hxy order).trans (hr order), hQ⟩

/-- What a scan gives that is read at an offset. -/
theorem readAt (h : Alike V p x Q) : ∃ r, (∀ order, readAt p (x (V order)) = r) ∧
    ∀ a, r = .ok a → ∃ q, Q a q := by
  obtain ⟨r, hr, hQ⟩ := h
  cases r with
  | ok a q =>
    refine ⟨.ok a, fun order => readAt_eq_ok.2 ⟨q, hr order⟩, fun b e => ⟨q, hQ b q ?_⟩⟩
    rw [Except.ok.inj e]
  | error e q =>
    refine ⟨.error e, fun order => ?_, fun a h => absurd h (by simp)⟩
    unfold TypeVector.readAt EStateM.run
    rw [hr order]

end Alike

/-! ### Entries in either order -/

/-- The vectors of either order hold the same entries from `p` on. -/
def Shows (V : ByteOrder → TypeVector) (T : StructId → Nat → Prop) (p : Nat) (es : List Entry) :
    Prop :=
  ∀ s ∈ spots p es, s.2.Shown V T s.1

theorem shows_cons {e : Entry} :
    Shows V T p (e :: es) ↔ e.Shown V T (e.start p) ∧ Shows V T (e.stop p) es :=
  List.forall_mem_cons

theorem shows_append :
    Shows V T p (es ++ es') ↔ Shows V T p es ∧ Shows V T (Entries.stop p es) es' := by
  unfold Shows
  rw [spots_append, List.forall_mem_append]

theorem alike_readByte {b : UInt8} (h : Shows V T p (.byte b :: es)) :
    Alike V p readByte fun a q => a = b ∧ q = p + 1 ∧ Shows V T q es := by
  obtain ⟨hb, hes⟩ := shows_cons.1 h
  refine .of_ok (a := b) (q := p + 1) (fun order => ?_) ⟨rfl, rfl, hes⟩
  unfold readByte
  refine bind_eq_ok.2 ⟨_, _, rfl, ?_⟩
  have hbyte : (V order).bytes[p]? = some b := hb order
  simp only [hbyte]
  rfl

theorem alike_readOpcode {b : UInt8} (h : Shows V T p (.byte b :: es)) :
    Alike V p readOpcode fun op q => Opcode.ofByte? b = some op ∧ q = p + 1 ∧ Shows V T q es := by
  refine .see ((alike_readByte h).bind ?_)
  rintro b q ⟨rfl, hq, hes⟩
  cases hop : Opcode.ofByte? b with
  | none => exact .throw _
  | some op => exact .pure ⟨rfl, hq, hes⟩

theorem alike_readWord {v : Nat} (h : Shows V T p (.word v :: es)) :
    Alike V p readWord fun a q => a = UInt32.ofNat (v % 2 ^ 32) ∧
      q = p + padding p 4 + 4 ∧ Shows V T q es := by
  obtain ⟨hv, hes⟩ := shows_cons.1 h
  exact .of_ok (fun order => Record.readWord_of_wordAt? (hv order)) ⟨rfl, rfl, hes⟩

theorem alike_readNat_of {n : Nat} (hn : ∀ order, wordAt? (V order).bytes (V order).order
    (p + padding p 4) 4 = some (n % 2 ^ 32)) (hes : Shows V T (p + padding p 4 + 4) es) :
    Alike V p readNat fun a q => a = n % 2 ^ 32 ∧ q = p + padding p 4 + 4 ∧ Shows V T q es :=
  .of_ok (fun order => Record.readNat_of_wordAt? (Nat.mod_lt _ (by decide)) (hn order))
    ⟨rfl, rfl, hes⟩

theorem alike_readNat {v : Nat} (h : Shows V T p (.word v :: es)) :
    Alike V p readNat fun a q => a = v % 2 ^ 32 ∧ q = p + padding p 4 + 4 ∧ Shows V T q es := by
  obtain ⟨hv, hes⟩ := shows_cons.1 h
  exact alike_readNat_of hv hes

/-! ### Descriptors -/

/-- Opcodes that spell some items stand ahead, up to the end of their list. -/
def Ahead (V : ByteOrder → TypeVector) (T : StructId → Nat → Prop) (K : Kind → Nat → Prop)
    (rest : List Entry) (items : List Item) (p : Nat) : Prop :=
  ∃ code, Code K items code ∧ Shows V T p (code ++ (eol :: rest))

/-- A descriptor was read of the first of some items, and the others stand ahead; or the list is at its
end. -/
def Follows (V : ByteOrder → TypeVector) (T : StructId → Nat → Prop) (K : Kind → Nat → Prop)
    (rest : List Entry) (items : List Item) : Option Descriptor → Nat → Prop
  | none, q => items = [] ∧ Shows V T q rest
  | some d, q => ∃ t more, items = .type t :: more ∧ d.Known T K t ∧ Ahead V T K rest more q

/-- The vectors of either order are of one size, and hold the records of which `K` holds, among them
the structs whose offsets `T` tells. -/
structure Decodes (V : ByteOrder → TypeVector) (T : StructId → Nat → Prop) (K : Kind → Nat → Prop) :
    Prop where
  size : ∀ order, (V order).size = (V .little).size
  small : ∀ kind n, K kind n → n < 2 ^ 32
  kept : ∀ kind n, K kind n → n % 4 = 0 ∧ ∃ record after, Forms K kind record ∧
    Shows V T n (record ++ after)
  structs : ∀ id n, T id n → ∃ s, K (.struct s) n

/-- The offset of a record is read as it was written. -/
theorem Decodes.alike_readNat (hV : Decodes V T K) {kind : Kind} {n : Nat} (hn : K kind n)
    (h : Shows V T p (.word n :: es)) :
    Alike V p readNat fun a q => K kind a ∧ Shows V T q es := by
  refine (TypeVector.alike_readNat h).mono ?_
  rintro _ q ⟨rfl, -, hes⟩
  rw [Nat.mod_eq_of_lt (hV.small kind n hn)]
  exact ⟨hn, hes⟩

theorem Decodes.alike_readReference (hV : Decodes V T K) {id : StructId}
    (h : Shows V T p (.reference id :: es)) :
    Alike V p readNat fun a q => T id a ∧ Shows V T q es := by
  obtain ⟨⟨n, hn, hword⟩, hes⟩ := shows_cons.1 h
  obtain ⟨s, hs⟩ := hV.structs id n hn
  refine (alike_readNat_of hword hes).mono ?_
  rintro _ q ⟨rfl, -, hes⟩
  rw [Nat.mod_eq_of_lt (hV.small _ n hs)]
  exact ⟨hn, hes⟩

theorem op_of_toByte {op op' : Opcode} (h : Opcode.ofByte? op.toByte = some op') : op' = op := by
  rw [Opcode.ofByte?_toByte] at h
  exact (Option.some.inj h).symm

/-- No type begins with the end of a nested struct. -/
theorem ne_endNested {t : TypeSpec} {op : Opcode} (h : Operands K t op es more) :
    op.toByte ≠ Opcode.endNested.toByte := by
  intro hop
  obtain rfl := Opcode.toByte_injective hop
  cases h with
  | bare h => cases h

theorem known_nil : Descriptor.KnownAll T K [] ([] : List Descriptor).reverse := .nil

/-- What closes the fields of a struct, and what is left behind it. -/
def closing (nested : Bool) (more : List Item) : List Item := if nested then .close :: more else []

/-- What a reader of fields leaves: the descriptors of the types, and what stands behind them. -/
def ReadsFields (V : ByteOrder → TypeVector) (T : StructId → Nat → Prop) (K : Kind → Nat → Prop)
    (rest : List Entry) (more : List Item) (nested : Bool) (specs : List TypeSpec)
    (ds : List Descriptor) (q : Nat) : Prop :=
  Descriptor.KnownAll T K specs ds ∧ if nested then Ahead V T K rest more q else Shows V T q rest

/-- The descriptor that is next is read in the same way, or the end of the list. -/
theorem alike_nextField {next : TypeVector → Scan (Option Descriptor)} {nested : Bool} {fuel : Nat}
    {done specs : List TypeSpec} {before : List Descriptor}
    (hnext : ∀ items p, Ahead V T K rest items p → Alike V p next (Follows V T K rest items))
    (ih : ∀ {p done specs before}, Descriptor.KnownAll T K done before.reverse →
      Ahead V T K rest (specs.map .type ++ closing nested more) p →
        Alike V p (fun tv => tv.readFields (next tv) nested fuel before)
          (ReadsFields V T K rest more nested (done ++ specs)))
    (hbefore : Descriptor.KnownAll T K done before.reverse)
    (h : Ahead V T K rest (specs.map .type ++ closing nested more) p)
    (hnested : specs = [] → nested = false) :
    Alike V p (fun tv => next tv >>= fun d => d.elim
        (if nested then throw (.invalidDescriptor p .unclosedNested) else return before.reverse)
        fun d => tv.readFields (next tv) nested fuel (d :: before))
      (ReadsFields V T K rest more nested (done ++ specs)) := by
  refine (hnext _ p h).bind ?_
  rintro (_ | d) q hq
  · obtain ⟨hitems, hq⟩ := hq
    obtain ⟨hspecs, hclosing⟩ := List.append_eq_nil_iff.1 hitems
    obtain rfl := List.map_eq_nil_iff.1 hspecs
    obtain rfl := hnested rfl
    rw [List.append_nil]
    exact .pure ⟨hbefore, hq⟩
  · obtain ⟨t, items, hitems, hd, hq⟩ := hq
    cases specs with
    | nil =>
      obtain rfl := hnested rfl
      exact absurd hitems (by simp [closing])
    | cons u specs =>
      obtain ⟨hu, rfl⟩ := List.cons.inj hitems
      obtain rfl := Item.type.inj hu
      have hdone : Descriptor.KnownAll T K (done ++ [u]) (d :: before).reverse := by
        rw [List.reverse_cons]
        exact List.rel_append hbefore (.cons hd .nil)
      have := ih hdone hq
      rwa [List.append_assoc] at this

theorem alike_readFields (next : TypeVector → Scan (Option Descriptor))
    (hnext : ∀ items p, Ahead V T K rest items p → Alike V p next (Follows V T K rest items))
    (nested : Bool) (fuel : Nat) {done specs : List TypeSpec} {before : List Descriptor}
    (hbefore : Descriptor.KnownAll T K done before.reverse)
    (h : Ahead V T K rest (specs.map .type ++ closing nested more) p) :
    Alike V p (fun tv => tv.readFields (next tv) nested fuel before)
      (ReadsFields V T K rest more nested (done ++ specs)) := by
  induction fuel generalizing before done specs p with
  | zero => exact .see (.throw _)
  | succ fuel ih =>
    have hrest := alike_nextField hnext ih hbefore h
    obtain ⟨code, hcode, hshows⟩ := h
    unfold readFields
    refine .see ?_
    cases specs with
    | nil =>
      cases nested with
      | true =>
        cases hcode with
        | @close _ es hes =>
          have hbyte : ∀ order, (V order).bytes[p]? = some Opcode.endNested.toByte :=
            (shows_cons.1 hshows).1
          refine .of_ok (a := before.reverse) (q := p + 1) (fun order => ?_) ⟨?_, es, hes, ?_⟩
          · simp only [hbyte]
            rfl
          · rwa [List.append_nil]
          · exact (shows_cons.1 hshows).2
      | false =>
        cases hcode with
        | nil =>
          have hbyte : ∀ order, (V order).bytes[p]? = some Opcode.endOfList.toByte :=
            (shows_cons.1 hshows).1
          have hne : Opcode.endOfList.toByte ≠ Opcode.endNested.toByte := by decide
          refine (hrest fun _ => rfl).congr fun order => ?_
          simp only [hbyte, if_neg hne]
          exact congrFun (bind_congr fun d => by cases d <;> rfl) p
    | cons u specs =>
      cases hcode with
      | @cons _ op _ _ operands es first hes =>
        have hbyte : ∀ order, (V order).bytes[p]? = some op.toByte := (shows_cons.1 hshows).1
        refine (hrest fun h => absurd h (by simp)).congr fun order => ?_
        simp only [hbyte, if_neg (ne_endNested first)]
        exact congrFun (bind_congr fun d => by cases d <;> rfl) p

/-- A type that stands for another is read as that one. -/
theorem Follows.mono {t u : TypeSpec} (hknown : ∀ d : Descriptor, d.Known T K t → d.Known T K u)
    {d : Option Descriptor} {q : Nat} (h : Follows V T K rest (.type t :: items) d q) :
    Follows V T K rest (.type u :: items) d q := by
  cases d with
  | none => exact absurd h.1 (by simp)
  | some d =>
    obtain ⟨t', more, hitems, hd, hq⟩ := h
    obtain ⟨ht, rfl⟩ := List.cons.inj hitems
    obtain rfl := Item.type.inj ht
    exact ⟨u, _, rfl, hknown d hd, hq⟩

variable (hV : Decodes V T K)

include hV

theorem alike_readDescriptorFrom (fuel start : Nat) (m : Modifiers)
    (h : Ahead V T K rest items p) :
    Alike V p (fun tv => tv.readDescriptorFrom fuel start m) (Follows V T K rest items) := by
  induction fuel generalizing start m items p with
  | zero => exact .see (.throw _)
  | succ fuel ih =>
    obtain ⟨code, hcode, hshows⟩ := h
    refine .see ?_
    cases hcode with
    | nil =>
      refine (alike_readOpcode hshows).bind ?_
      rintro op q ⟨hop, -, hes⟩
      obtain rfl := op_of_toByte hop
      dsimp only
      split
      · exact .pure ⟨rfl, hes⟩
      · exact .throw _
    | close =>
      refine (alike_readOpcode hshows).bind ?_
      rintro op q ⟨hop, -, -⟩
      obtain rfl := op_of_toByte hop
      exact .throw _
    | @cons t op more items operands es first hes =>
      rw [List.cons_append, List.append_assoc] at hshows
      refine (alike_readOpcode hshows).bind ?_
      rintro op q ⟨hop, -, hq⟩
      obtain rfl := op_of_toByte hop
      have hfound : ∀ {form q}, more = [] → Descriptor.Known T K t ⟨start, m, form⟩ →
          Shows V T q (es ++ (eol :: rest)) → Alike V q (fun _ => pure (some ⟨start, m, form⟩))
            (Follows V T K rest (.type t :: items)) := by
        rintro form q rfl hd hq
        exact .pure ⟨t, items, rfl, hd, es, hes, hq⟩
      cases first with
      | bare hbare =>
        cases hbare with
        | scalar => exact hfound rfl (.leaf (.scalar _)) hq
        | ignore => exact hfound rfl (.leaf .ignore) hq
        | context => exact hfound rfl (.leaf (.context _)) hq
        | align => exact hfound rfl (.leaf (.align _)) hq
        | deletedNodes => exact hfound rfl (.leaf .deletedNodes) hq
        | void => exact hfound rfl (.leaf .void) hq
      | mark => exact ih _ _ ⟨es, hes, hq⟩
      | range =>
        refine (alike_readWord hq).bind ?_
        rintro lower q ⟨-, -, hq⟩
        refine (alike_readWord hq).bind ?_
        rintro upper q ⟨-, -, hq⟩
        exact (ih _ _ ⟨es, hes, hq⟩).mono fun _ _ h => h.mono fun _ => .range
      | freeRep =>
        refine (alike_readNat hq).bind ?_
        rintro routine q ⟨-, -, hq⟩
        exact (ih _ _ ⟨es, hes, hq⟩).mono fun _ _ h => h.mono fun _ => .freeRep
      | @beginNested s =>
        refine (alike_readByte hq).bind ?_
        rintro align q ⟨-, -, hq⟩
        refine .lift fun align _ => (alike_readNat hq).bind ?_
        rintro layout q ⟨-, -, hq⟩
        have hahead : Ahead V T K rest (s.fields.map .type ++ closing true items) q := by
          rw [List.append_assoc] at hes
          exact ⟨es, hes, hq⟩
        have hfields := alike_readFields (fun tv => do tv.readDescriptorFrom fuel (← get) {})
          (fun items p hp => .see (ih p {} hp)) true ((V .little).size + 1) known_nil
          hahead
        refine (hfields.congr fun order => by rw [hV.size]).bind ?_
        rintro fields q ⟨hfields, hq⟩
        exact .pure ⟨_, items, rfl, .of_fields hfields, hq⟩
      | struct =>
        refine (alike_readByte hq).bind ?_
        rintro props q ⟨-, -, hq⟩
        refine (hV.alike_readReference hq).bind ?_
        rintro n q ⟨hn, hq⟩
        exact hfound rfl (.struct hn) hq
      | array hn =>
        refine (alike_readByte hq).bind ?_
        rintro props q ⟨-, -, hq⟩
        refine (alike_readByte hq).bind ?_
        rintro dims q ⟨-, -, hq⟩
        refine (hV.alike_readNat hn hq).bind ?_
        rintro n q ⟨hn, hq⟩
        exact hfound rfl (.array hn) hq
      | encapsulatedUnion hn =>
        refine (alike_readByte hq).bind ?_
        rintro props q ⟨-, -, hq⟩
        refine (hV.alike_readNat hn hq).bind ?_
        rintro n q ⟨hn, hq⟩
        exact hfound rfl (.encapsulatedUnion hn) hq
      | switchedUnion hn =>
        refine (alike_readByte hq).bind ?_
        rintro props q ⟨-, -, hq⟩
        refine (alike_readNat hq).bind ?_
        rintro field q ⟨-, -, hq⟩
        refine (hV.alike_readNat hn hq).bind ?_
        rintro n q ⟨hn, hq⟩
        exact hfound rfl (.switchedUnion hn) hq
      | pointer hn =>
        refine (alike_readByte hq).bind ?_
        rintro props q ⟨-, -, hq⟩
        refine (hV.alike_readNat hn hq).bind ?_
        rintro n q ⟨hn, hq⟩
        exact hfound rfl (.pointer hn) hq
      | conversion hn =>
        refine (alike_readByte hq).bind ?_
        rintro props q ⟨-, -, hq⟩
        refine (alike_readNat hq).bind ?_
        rintro routine q ⟨-, -, hq⟩
        refine (hV.alike_readNat hn hq).bind ?_
        rintro n q ⟨hn, hq⟩
        exact hfound rfl (.converted hn) hq
      | pipe hn =>
        refine (alike_readByte hq).bind ?_
        rintro props q ⟨-, -, hq⟩
        refine (hV.alike_readNat hn hq).bind ?_
        rintro n q ⟨hn, hq⟩
        exact hfound rfl (.pipe hn) hq

theorem alike_readDescriptor (h : Ahead V T K rest items p) :
    Alike V p readDescriptor (Follows V T K rest items) :=
  .see ((alike_readDescriptorFrom hV ((V .little).size + 1) p {} h).congr fun order => by rw [hV.size])

/-! ### Definitions -/

omit hV in
theorem alike_expectEnd (h : Ahead V T K rest items p) :
    Alike V p expectEnd fun _ q => Shows V T q rest := by
  obtain ⟨code, hcode, hshows⟩ := h
  refine .see ?_
  cases hcode with
  | nil =>
    refine (alike_readOpcode hshows).bind ?_
    rintro op q ⟨hop, -, hes⟩
    obtain rfl := op_of_toByte hop
    exact .pure hes
  | close =>
    refine (alike_readOpcode hshows).bind ?_
    rintro op q ⟨hop, -, -⟩
    obtain rfl := op_of_toByte hop
    exact .throw _
  | @cons _ op _ _ operands es first _ =>
    refine (alike_readOpcode hshows).bind ?_
    rintro op q ⟨hop, -, -⟩
    obtain rfl := op_of_toByte hop
    cases op with
    | endOfList =>
      cases first with
      | bare h => cases h
    | _ => exact .throw _

/-- A descriptor alone in its list. -/
theorem alike_alone {t : TypeSpec} (h : Ahead V T K rest [.type t] p) (e : Fault)
    {f : TypeVector → Descriptor → Scan α} {Q : α → Nat → Prop}
    (hf : ∀ d q, d.Known T K t → Shows V T q rest → Alike V q (fun tv => f tv d) Q) :
    Alike V p (fun tv => tv.readDescriptor >>= fun found => match found with
      | some d => tv.expectEnd >>= fun _ => f tv d
      | none => throw e) Q := by
  refine (alike_readDescriptor hV h).bind ?_
  rintro (_ | d) q hq
  · exact .throw _
  · obtain ⟨t', more, hitems, hd, hq⟩ := hq
    obtain ⟨ht, rfl⟩ := List.cons.inj hitems
    obtain rfl := Item.type.inj ht
    refine (alike_expectEnd hq).bind ?_
    rintro _ q hes
    exact hf d q hd hes

/-- The stream at a known offset is the same in either order. -/
theorem stream_alike {t : TypeSpec} {n : Nat} (hn : K (.stream t) n) :
    ∃ r, (∀ order, (V order).stream n = r) ∧ ∀ d, r = .ok d → d.Known T K t := by
  obtain ⟨-, record, after, hforms, hshows⟩ := hV.kept _ _ hn
  cases hforms with
  | stream hcode =>
    rw [List.append_assoc] at hshows
    have hread : Alike V n (fun tv => do
        match ← tv.readDescriptor with
        | some d =>
          tv.expectEnd
          return d
        | none => throw (.invalidDescriptor n .emptyStream)) fun d _ => d.Known T K t :=
      alike_alone hV ⟨_, hcode, hshows⟩ _ fun d q hd _ => .pure hd
    obtain ⟨r, hr, hQ⟩ := hread.readAt
    exact ⟨r, hr, fun d e => (hQ d e).elim fun _ h => h⟩

/-! #### Parameters -/

theorem alike_readParameters (n : Nat) {ps : List (UInt32 × TypeSpec)}
    {qs : List (UInt32 × List Entry)}
    (hqs : List.Forall₂ (fun p q => Code K [.type p.2] q.2) ps qs) (hn : n ≤ qs.length)
    (h : Shows V T p (ofParameters qs ++ rest)) :
    Alike V p (fun tv => repeatM n tv.readParameter) fun list _ =>
      ∀ q ∈ list, ∃ t ∈ ps, q.descriptor.Known T K t.2 := by
  induction n generalizing ps qs p with
  | zero => exact .pure (fun _ h => absurd h List.not_mem_nil)
  | succ n ih =>
    cases hqs with
    | nil => exact absurd hn (by simp)
    | @cons first code ps qs hcode hqs =>
      obtain ⟨index, code⟩ := code
      simp only [repeatM_succ]
      have hfirst : Shows V T p (.word index.toNat :: (code ++ (eol :: (ofParameters qs ++ rest)))) := by
        simpa [ofParameters] using h
      have hread : Alike V p readParameter fun q r => q.descriptor.Known T K first.2 ∧
          Shows V T r (ofParameters qs ++ rest) := by
        refine (TypeVector.alike_readNat hfirst).bind ?_
        rintro index q ⟨-, -, hq⟩
        exact .see (alike_alone hV ⟨_, hcode, hq⟩ _ fun d q hd hq => .pure ⟨hd, hq⟩)
      refine hread.bind ?_
      rintro q r ⟨hq, hr⟩
      refine ((ih hqs (Nat.le_of_succ_le_succ hn) hr).bind (f := fun _ list => pure (q :: list))
        fun list r hlist => .pure (Q := fun (list : List Parameter) _ => ∀ q ∈ list,
          ∃ t ∈ first :: ps, q.descriptor.Known T K t.2) ?_).congr fun order => ?_
      · refine List.forall_mem_cons.2 ⟨⟨first, List.mem_cons_self, hq⟩, fun q hq => ?_⟩
        obtain ⟨t, ht, hknown⟩ := hlist q hq
        exact ⟨t, List.mem_cons_of_mem _ ht, hknown⟩
      · rw [map_eq_pure_bind]

/-- The parameter list at a known offset is the same in either order. -/
theorem parameters_alike {ps : List (UInt32 × TypeSpec)} {n : Nat} (hn : K (.parameters ps) n) :
    ∃ r, (∀ order, (V order).parameters n = r) ∧
      ∀ list, r = .ok list → ∀ q ∈ list, ∃ t ∈ ps, q.descriptor.Known T K t.2 := by
  obtain ⟨-, record, after, hforms, hshows⟩ := hV.kept _ _ hn
  cases hforms with
  | @parameters _ qs hqs =>
    have hread : Alike V n (fun tv => do repeatM (← tv.readNat) tv.readParameter) fun list _ =>
        ∀ q ∈ list, ∃ t ∈ ps, q.descriptor.Known T K t.2 := by
      refine (TypeVector.alike_readNat hshows).bind ?_
      rintro _ q ⟨rfl, -, hq⟩
      exact alike_readParameters hV _ hqs (Nat.mod_le _ _) hq
    obtain ⟨r, hr, hQ⟩ := hread.readAt
    exact ⟨r, hr, fun list e => (hQ list e).elim fun _ h => h⟩

/-! #### Structs -/

/-- Bytes that are skipped. -/
theorem alike_skip {k : Nat} (skipped : List Entry) (hk : Entries.stop p skipped = p + k)
    (h : Shows V T p (skipped ++ es)) :
    Alike V p (fun tv => tv.skip k) fun _ q => Shows V T q es := by
  have hes := (shows_append.1 h).2
  rw [hk] at hes
  have hset : Alike V p (fun _ => if (V .little).size < p + k then
      throw (.truncatedVector p k) >>= fun _ => set (p + k) else set (p + k))
        fun _ q => Shows V T q es :=
    .guard fun _ => .of_ok (a := ⟨⟩) (q := p + k) (fun _ => rfl) hes
  exact .see (hset.congr fun order => by rw [hV.size])

omit hV in
/-- The operand for the array at the end of a struct. -/
theorem alike_readOperand {operand : Entry}
    (hoperand : (∃ v, operand = .word v) ∨ ∃ id, operand = .tail id)
    (h : Shows V T p (operand :: es)) : Alike V p readNat fun _ q => Shows V T q es := by
  obtain ⟨v, rfl⟩ | ⟨id, rfl⟩ := hoperand
  · exact (alike_readNat h).mono fun _ _ hq => hq.2.2
  · obtain ⟨⟨n, hword⟩, hes⟩ := shows_cons.1 h
    exact (alike_readNat_of hword hes).mono fun _ _ hq => hq.2.2

/-- The definition of a struct at a known offset is the same in either order. -/
theorem structDefinition_alike {s : StructSpec} {n : Nat} (hn : K (.struct s) n) :
    ∃ r, (∀ order, (V order).structDefinition n = r) ∧
      ∀ d, r = .ok d → Descriptor.KnownAll T K s.fields d.fields := by
  obtain ⟨-, record, after, hforms, hshows⟩ := hV.kept _ _ hn
  cases hforms with
  | @struct _ align props a b layout operand code hoperand hcode =>
    simp only [List.cons_append, List.append_assoc] at hshows
    have hread : Alike V n (fun tv => do
        let align ← tv.readByte
        let props ← tv.readByte
        tv.skip 2
        let layout ← tv.readNat
        let trailing ← tv.readNat
        let fields ← tv.readFields tv.readDescriptor false (tv.size + 1) []
        let align ← checkAlign align n
        return ({ offset := n, align, props, layout, fields
                  trailing := if trailing = noTrailing then none else some trailing }
          : StructDefinition)) fun d _ => Descriptor.KnownAll T K s.fields d.fields := by
      refine (alike_readByte hshows).bind ?_
      rintro align q ⟨-, -, hq⟩
      refine (alike_readByte hq).bind ?_
      rintro props q ⟨-, -, hq⟩
      refine (alike_skip hV [.byte a, .byte b] rfl hq).bind ?_
      rintro _ q hq
      refine (TypeVector.alike_readNat hq).bind ?_
      rintro layout q ⟨-, -, hq⟩
      refine (alike_readOperand hoperand hq).bind ?_
      rintro trailing q hq
      have hahead : Ahead V T K after (s.fields.map .type ++ closing false []) q := by
        refine ⟨code, ?_, hq⟩
        rwa [closing, if_neg (by decide), List.append_nil]
      have hfields := alike_readFields readDescriptor (fun _ p hp => alike_readDescriptor hV hp) false
        ((V .little).size + 1) known_nil hahead
      refine (hfields.congr fun order => by rw [hV.size]).bind ?_
      rintro fields q ⟨hfields, -⟩
      exact .lift fun align _ => .pure hfields
    obtain ⟨r, hr, hQ⟩ := hread.readAt
    exact ⟨r, hr, fun d e => (hQ d e).elim fun _ h => h⟩

/-! #### Arrays -/

omit hV in
theorem alike_readBound {b : Bound} (hV : Decodes V T K) (h : Shows V T p (b.entries ++ es)) :
    Alike V p readBound fun _ q => Shows V T q es := by
  refine (alike_readByte h).bind ?_
  rintro kind q ⟨-, -, hq⟩
  refine (alike_readByte hq).bind ?_
  rintro fieldType q ⟨-, -, hq⟩
  refine (alike_readByte hq).bind ?_
  rintro operator q ⟨-, -, hq⟩
  refine (alike_skip hV [.byte filler] rfl hq).bind ?_
  rintro _ q hq
  refine (alike_readWord hq).bind ?_
  rintro value q ⟨-, -, hq⟩
  exact .pure hq

theorem alike_readBoundPairs (pairs : List BoundPair) (h : Shows V T p (ofPairs pairs ++ es)) :
    Alike V p (fun tv => repeatM pairs.length tv.readBoundPair) fun _ q => Shows V T q es := by
  induction pairs generalizing p with
  | nil => exact .pure h
  | cons pair pairs ih =>
    simp only [List.length_cons, repeatM_succ]
    have hfirst : Shows V T p (pair.lower.entries ++ (pair.upper.entries ++ (ofPairs pairs ++ es))) := by
      simpa [ofPairs, BoundPair.entries] using h
    have hread : Alike V p readBoundPair fun _ q => Shows V T q (ofPairs pairs ++ es) := by
      refine (alike_readBound hV hfirst).bind ?_
      rintro lower q hq
      refine (alike_readBound hV hq).bind ?_
      rintro upper q hq
      exact .pure hq
    refine hread.bind ?_
    rintro b q hq
    refine ((ih hq).bind (f := fun _ list => pure (b :: list)) fun list r hr => .pure hr).congr
      fun order => ?_
    rw [map_eq_pure_bind]

/-- The definition of an array at a known offset is the same in either order. -/
theorem arrayDefinition_alike {s : ArraySpec} {n : Nat} (hn : K (.array s) n) :
    ∃ r, (∀ order, (V order).arrayDefinition n s.kind.isVarying = r) ∧
      ∀ d, r = .ok d → d.element.Known T K s.element := by
  obtain ⟨-, record, after, hforms, hshows⟩ := hV.kept _ _ hn
  cases hforms with
  | @array _ dims a b c code hpairs hlimits hcode =>
    simp only [List.cons_append, List.append_assoc] at hshows
    have hread : Alike V n (fun tv => do
        let dims ← tv.readByte
        if dims = 0 then throw (.invalidDescriptor n .noDimensions)
        tv.skip 3
        let bounds ← repeatM dims.toNat tv.readBoundPair
        let limits ← if s.kind.isVarying then some <$> repeatM dims.toNat tv.readBoundPair
          else pure none
        let here ← get
        match ← tv.readDescriptor with
        | some element =>
          tv.expectEnd
          return ({ offset := n, dimensions := dimensionsOf bounds limits, element } : ArrayDefinition)
        | none => throw (.invalidDescriptor here .noElement)) fun d _ =>
          d.element.Known T K s.element := by
      refine (alike_readByte hshows).bind ?_
      rintro dims q ⟨rfl, -, hq⟩
      refine .guard fun _ => ?_
      refine (alike_skip hV [.byte a, .byte b, .byte c] rfl hq).bind ?_
      rintro _ q hq
      rw [← hpairs]
      refine (alike_readBoundPairs hV s.bounds hq).bind ?_
      rintro bounds q hq
      have hrest : ∀ (limits : Option (List BoundPair)) q, Shows V T q (code ++ (eol :: after)) →
          Alike V q (fun tv => do
            let here ← get
            match ← tv.readDescriptor with
            | some element =>
              tv.expectEnd
              return ({ offset := n, dimensions := dimensionsOf bounds limits, element }
                : ArrayDefinition)
            | none => throw (.invalidDescriptor here .noElement)) fun d _ =>
              d.element.Known T K s.element :=
        fun limits q hq => .see (alike_alone hV ⟨code, hcode, hq⟩ _ fun d q hd _ => .pure hd)
      cases hvarying : s.kind.isVarying with
      | false =>
        have hnone : limitsOf s = [] := by rw [limitsOf, hvarying, if_neg (by decide)]
        rw [hnone] at hq
        exact hrest none q hq
      | true =>
        have hall : limitsOf s = s.limits := by rw [limitsOf, hvarying, if_pos rfl]
        rw [hall] at hq
        rw [show s.bounds.length = s.limits.length from hpairs.trans (hlimits hvarying).symm]
        have hlimits := alike_readBoundPairs hV s.limits hq
        refine (hlimits.bind (f := fun _ list => pure (some list)) fun list r hr =>
          .pure (Q := fun _ q => Shows V T q (code ++ (eol :: after))) hr).bind fun limits q hq =>
            hrest limits q hq
    obtain ⟨r, hr, hQ⟩ := hread.readAt
    exact ⟨r, hr, fun d e => (hQ d e).elim fun _ h => h⟩

/-! #### Unions -/

/-- The record of an arm that leads to a stream leads to that of one of some types. -/
def Arm.Leads (K : Kind → Nat → Prop) (ts : List TypeSpec) (a : Arm) : Prop :=
  ∀ offset, a.body = .stream offset → ∃ t ∈ ts, K (.stream t) offset

variable {ts : List TypeSpec}

/-- The record of an arm is read in the same way in either order. -/
theorem alike_arm {label : UInt32} {arm : Assembler.ArmRecord} (harm : ArmLeads K ts arm)
    (h : Shows V T p (arm.entries label ++ es)) : Alike V p (fun tv => do
      let label ← tv.readWord
      let op ← tv.readOpcode
      let props ← tv.readByte
      tv.skip 2
      let stream ← tv.readNat
      let _ ← tv.readWord
      return ({ label, props
                body := match op with
                  | .void => .empty
                  | .noArm => .absent
                  | _ => .stream stream } : Arm)) fun a _ => Arm.Leads K ts a := by
  refine (alike_readWord h).bind ?_
  rintro label q ⟨-, -, hq⟩
  refine (alike_readOpcode hq).bind ?_
  rintro op q ⟨hop, -, hq⟩
  refine (alike_readByte hq).bind ?_
  rintro props q ⟨-, -, hq⟩
  refine (alike_skip hV [.byte filler, .byte filler] rfl hq).bind ?_
  rintro _ q hq
  refine (TypeVector.alike_readNat hq).bind ?_
  rintro stream q ⟨hstream, -, hq⟩
  refine (alike_readWord hq).bind ?_
  rintro _ q -
  refine .pure fun offset hoffset => ?_
  rcases harm with hvoid | hnone | ⟨t, ht, hknown⟩
  · rw [hvoid] at hop
    obtain rfl := op_of_toByte hop
    exact absurd hoffset (by simp)
  · rw [hnone] at hop
    obtain rfl := op_of_toByte hop
    exact absurd hoffset (by simp)
  · rw [Nat.mod_eq_of_lt (hV.small _ _ hknown)] at hstream
    dsimp only at hoffset
    split at hoffset
    · exact absurd hoffset (by simp)
    · exact absurd hoffset (by simp)
    · obtain rfl := ArmBody.stream.inj hoffset
      exact ⟨t, ht, hstream ▸ hknown⟩

theorem armAt_alike {label : UInt32} {arm : Assembler.ArmRecord} (harm : ArmLeads K ts arm)
    (h : Shows V T p (arm.entries label ++ es)) :
    ∃ r, (∀ order, (V order).armAt p = r) ∧ ∀ a, r = .ok a → Arm.Leads K ts a := by
  obtain ⟨r, hr, hQ⟩ := (alike_arm hV harm h).readAt
  exact ⟨r, hr, fun a e => (hQ a e).elim fun _ h => h⟩

omit hV in
theorem stop_armEntries {label : UInt32} {arm : Assembler.ArmRecord} (hp : p % 4 = 0) :
    Entries.stop p (arm.entries label) = p + armWidth := by
  rw [← Nat.add_zero p, Entries.stop_add hp]
  simp [Entries.stop, Assembler.ArmRecord.entries, Entry.stop, Entry.start, Entry.width, padding,
    armWidth]

/-- The arms are the same in either order, one behind the other. -/
theorem arms_alike {arms : List (UInt32 × Assembler.ArmRecord)}
    (harms : ∀ a ∈ arms, ArmLeads K ts a.2)
    (hp : p % 4 = 0) (h : Shows V T p (ofArms arms ++ es)) {k : Nat} (hk : k < arms.length) :
    ∃ r, (∀ order, (V order).armAt (p + k * armWidth) = r) ∧ ∀ a, r = .ok a → Arm.Leads K ts a := by
  induction arms generalizing p k with
  | nil => exact absurd hk (by simp)
  | cons first arms ih =>
    obtain ⟨label, arm⟩ := first
    have hfirst : Shows V T p (arm.entries label ++ (ofArms arms ++ es)) := by
      simpa [ofArms] using h
    cases k with
    | zero =>
      rw [Nat.zero_mul]
      exact armAt_alike hV (harms _ List.mem_cons_self) hfirst
    | succ k =>
      have hrest := (shows_append.1 hfirst).2
      rw [stop_armEntries hp] at hrest
      have hnext := ih (fun a ha => harms a (List.mem_cons_of_mem _ ha)) (by unfold armWidth; omega)
        hrest (Nat.lt_of_succ_lt_succ hk)
      rwa [Nat.add_assoc, ← Nat.add_comm (k * armWidth), ← Nat.succ_mul] at hnext

omit hV in
theorem findCase_alike (kind : Scalar) (switch : Int) (n : Nat) (h : ∀ k < n,
    ∃ r, (∀ order, (V order).armAt (p + k * armWidth) = r) ∧ ∀ a, r = .ok a → Arm.Leads K ts a) :
    ∃ r, (∀ order, (V order).findCase kind switch n p = r) ∧
      ∀ a, r = .ok (some a) → Arm.Leads K ts a := by
  induction n generalizing p with
  | zero => exact ⟨.ok none, fun _ => rfl, fun a e => absurd e (by simp)⟩
  | succ n ih =>
    obtain ⟨r, hr, hleads⟩ := h 0 (Nat.succ_pos n)
    rw [Nat.zero_mul, Nat.add_zero] at hr
    simp only [findCase, hr]
    cases r with
    | error e => exact ⟨.error e, fun _ => rfl, fun a h => absurd h (by simp)⟩
    | ok arm =>
      show ∃ r, (∀ order, (if kind.normalize arm.label = switch then
          pure (some arm) else (V order).findCase kind switch n (p + armWidth)) = r) ∧ _
      split
      · refine ⟨_, fun _ => rfl, fun a e => ?_⟩
        obtain rfl := Option.some.inj (Except.ok.inj e)
        exact hleads _ rfl
      · refine ih fun k hk => ?_
        have hnext := h (k + 1) (Nat.succ_lt_succ hk)
        rwa [Nat.succ_mul, Nat.add_comm (k * armWidth), ← Nat.add_assoc] at hnext

/-- The head of a union is read in the same way in either order, and its arms stand behind it. -/
theorem alike_union {n count : Nat} {op flags align a : UInt8}
    {arms : List (UInt32 × Assembler.ArmRecord)} {after : List Entry}
    (h : Shows V T n (.byte op :: .byte flags :: .byte align :: .byte a :: .word count ::
      (ofArms arms ++ after))) : Alike V n (fun tv => do
        match ← tv.readOpcode with
        | .scalar switch =>
          if !switch.isIntegral then throw (.invalidDescriptor n .switchNotIntegral)
          let flags ← tv.readByte
          let align ← tv.readByte
          tv.skip 1
          let armCount ← tv.readNat
          let armsAt ← get
          let needed := (armCount + 1) * armWidth
          if tv.size < armsAt + needed then throw (.truncatedVector armsAt needed)
          let align ← checkAlign align n
          return ({ offset := n, switch, align, armCount, armsAt
                    optional := flags &&& optionalFlag ≠ 0 } : UnionDefinition)
        | _ => throw (.invalidDescriptor n .switchNotIntegral)) fun u _ =>
          u.armCount ≤ count ∧ u.armsAt % 4 = 0 ∧ Shows V T u.armsAt (ofArms arms ++ after) := by
  refine (alike_readOpcode h).bind ?_
  rintro op q ⟨-, -, hq⟩
  cases op with
  | scalar switch =>
    refine .guard fun _ => ?_
    refine (alike_readByte hq).bind ?_
    rintro flags q ⟨-, -, hq⟩
    refine (alike_readByte hq).bind ?_
    rintro align q ⟨-, -, hq⟩
    refine (alike_skip hV [.byte a] rfl hq).bind ?_
    rintro _ q hq
    refine (TypeVector.alike_readNat hq).bind ?_
    rintro _ q ⟨rfl, rfl, hq⟩
    have hcheck : Alike V (q + padding q 4 + 4) (fun _ => do
        let needed := (count % 2 ^ 32 + 1) * armWidth
        if (V .little).size < q + padding q 4 + 4 + needed then
          throw (.truncatedVector (q + padding q 4 + 4) needed)
        let align ← checkAlign align n
        return ({ offset := n, switch, align, armCount := count % 2 ^ 32
                  armsAt := q + padding q 4 + 4, optional := flags &&& optionalFlag ≠ 0 }
          : UnionDefinition)) fun u _ =>
            u.armCount ≤ count ∧ u.armsAt % 4 = 0 ∧ Shows V T u.armsAt (ofArms arms ++ after) := by
      refine .guard fun _ => .lift fun align _ => .pure ⟨Nat.mod_le _ _, ?_, hq⟩
      have := @dvd_add_padding q 4 (by decide)
      dsimp only
      omega
    exact .see (hcheck.congr fun order => by rw [hV.size])
  | _ => exact .throw _

/-- The definition of a union at a known offset is the same in either order, and so are all its arms. -/
theorem unionDefinition_alike {spec : UnionSpec} {n : Nat} (hn : K (.union spec) n) :
    ∃ r, (∀ order, (V order).unionDefinition n = r) ∧ ∀ u, r = .ok u → ∀ k ≤ u.armCount,
      ∃ r, (∀ order, (V order).armAt (u.armsAt + k * armWidth) = r) ∧
        ∀ a, r = .ok a → Arm.Leads K spec.armTypes a := by
  obtain ⟨haligned, record, after, hforms, hshows⟩ := hV.kept _ _ hn
  cases hforms with
  | @union _ op flags align a count arms hcount harms =>
    obtain ⟨r, hr, hQ⟩ := (alike_union hV hshows).readAt
    refine ⟨r, hr, fun u e k hk => ?_⟩
    obtain ⟨-, hle, hmod, hat⟩ := hQ u e
    exact arms_alike hV harms hmod hat (Nat.lt_of_le_of_lt (Nat.le_trans hk hle) (by omega))

omit hV in
/-- So is the arm that a value selects. -/
theorem findArm_alike {u : UnionDefinition} (h : ∀ k ≤ u.armCount,
      ∃ r, (∀ order, (V order).armAt (u.armsAt + k * armWidth) = r) ∧ ∀ a, r = .ok a → Arm.Leads K ts a)
    (switch : Int) : ∃ r, (∀ order, (V order).findArm u switch = r) ∧
      ∀ a, r = .ok (some a) → Arm.Leads K ts a := by
  obtain ⟨found, hfound, hleads⟩ := findCase_alike u.switch switch u.armCount
    fun k hk => h k (Nat.le_of_lt hk)
  simp only [findArm, hfound]
  cases found with
  | error e => exact ⟨.error e, fun _ => rfl, fun a h => absurd h (by simp)⟩
  | ok arm =>
    cases arm with
    | some arm => exact ⟨.ok (some arm), fun _ => rfl, fun a e => hleads a e⟩
    | none =>
      obtain ⟨last, hlast, hleads⟩ := h u.armCount (Nat.le_refl _)
      simp only [hlast]
      cases last with
      | error e => exact ⟨.error e, fun _ => rfl, fun a h => absurd h (by simp)⟩
      | ok arm =>
        refine ⟨.ok (if arm.body = .absent then none else some arm), fun _ => rfl, fun a e => ?_⟩
        have e := Except.ok.inj e
        split at e
        · exact absurd e (by simp)
        · exact hleads a (congrArg Except.ok (Option.some.inj e))

/-! ### All that a type leads to -/

variable {d e : Descriptor} {t : TypeSpec}

/-- The vectors of either order hold the same for a type that is known. -/
theorem same_of_known (h : d.Known T K t) : (V .little).Same (V .big) d := by
  have hform := h.form
  have hstream : ∀ {n}, (∃ t, K (.stream t) n) → (V .big).stream n = (V .little).stream n := by
    rintro n ⟨t, hn⟩
    obtain ⟨r, hr, -⟩ := stream_alike hV hn
    rw [hr, hr]
  refine ⟨fun hd => ?_, fun hd => ?_, fun hd => ?_, fun hd => ?_, fun hd => ?_, fun hd => ?_⟩
  · rw [hd] at hform
    obtain ⟨id, hn⟩ := hform
    obtain ⟨s, hs⟩ := hV.structs id _ hn
    obtain ⟨r, hr, -⟩ := structDefinition_alike hV hs
    rw [hr, hr]
  · rw [hd] at hform
    obtain ⟨s, rfl, hn⟩ := hform
    obtain ⟨r, hr, -⟩ := arrayDefinition_alike hV hn
    rw [hr, hr]
  · obtain ⟨u, hn⟩ : ∃ u, K (.union u) _ := by
      rcases hd with ⟨props, hd⟩ | ⟨props, field, hd⟩
      all_goals
        rw [hd] at hform
        exact hform
    obtain ⟨r, hr, harm⟩ := unionDefinition_alike hV hn
    rw [hr, hr]
    refine ⟨rfl, fun u hu switch => ?_⟩
    obtain ⟨found, hfound, hleads⟩ := findArm_alike (harm u hu) switch
    rw [hfound, hfound]
    refine ⟨rfl, fun a offset ha hbody => hstream ?_⟩
    obtain ⟨t, -, hn⟩ := hleads a ha offset hbody
    exact ⟨t, hn⟩
  · rw [hd] at hform
    exact hstream hform
  · rw [hd] at hform
    exact hstream hform
  · rw [hd] at hform
    exact hstream hform

section

variable {order : ByteOrder} {n : Nat}

/-- The descriptor of a stream is read of its type. -/
theorem stream_known (hn : K (.stream t) n) (he : (V order).stream n = .ok e) : e.Known T K t := by
  obtain ⟨r, hr, hknown⟩ := stream_alike hV hn
  exact hknown e ((hr order).symm.trans he)

/-- What an arm holds that leads to one of some types is read of one. -/
theorem arm_known {a : Arm} {offset : Nat} (ha : Arm.Leads K ts a)
    (hbody : a.body = ArmBody.stream offset) (he : (V order).stream offset = .ok e) :
    ∃ t ∈ ts, e.Known T K t := by
  obtain ⟨t, ht, hoffset⟩ := ha offset hbody
  exact ⟨t, ht, stream_known hV hoffset he⟩

/-- The arms of a union lead to its types. -/
theorem arms_lead {spec : UnionSpec} {u : UnionDefinition} (hn : K (.union spec) n)
    (hu : (V order).unionDefinition n = .ok u) {k : Nat} (hk : k ≤ u.armCount) {a : Arm}
    (ha : (V order).armAt (u.armsAt + k * armWidth) = .ok a) : Arm.Leads K spec.armTypes a := by
  obtain ⟨r, hr, harms⟩ := unionDefinition_alike hV hn
  obtain ⟨arm, harm, hleads⟩ := harms u ((hr order).symm.trans hu) k hk
  exact hleads a ((harm order).symm.trans ha)

/-- The fields of a struct are read of its types. -/
theorem fields_known {s : StructSpec} {definition : StructDefinition} (hn : K (.struct s) n)
    (hd : (V order).structDefinition n = .ok definition) :
    Descriptor.KnownAll T K s.fields definition.fields := by
  obtain ⟨r, hr, hknown⟩ := structDefinition_alike hV hn
  exact hknown definition ((hr order).symm.trans hd)

/-- The elements of an array are read of its type. -/
theorem element_known {s : ArraySpec} {a : ArrayDefinition} (hn : K (.array s) n)
    (ha : (V order).arrayDefinition n s.kind.isVarying = .ok a) :
    a.element.Known T K s.element := by
  obtain ⟨r, hr, hknown⟩ := arrayDefinition_alike hV hn
  exact hknown a ((hr order).symm.trans ha)

/-- A type that is known leads to none but types that are known. -/
theorem closed_known (order : ByteOrder) : (V order).Closed fun d => ∃ t, d.Known T K t := by
  rintro d e ⟨t, h⟩ hleads
  have hform := h.form
  cases hleads with
  | embedded hembeds =>
    cases hembeds with
    | field hd found mem =>
      rw [hd] at hform
      obtain ⟨id, hn⟩ := hform
      obtain ⟨s, hs⟩ := hV.structs id _ hn
      obtain ⟨u, -, hu⟩ := exists_of_forall₂ (fields_known hV hs found).flip mem
      exact ⟨u, hu⟩
    | nestedField hd mem =>
      rw [hd] at hform
      exact hform e mem
    | element hd found =>
      rw [hd] at hform
      obtain ⟨s, rfl, hn⟩ := hform
      exact ⟨_, element_known hV hn found⟩
    | arm hd found chosen body stream =>
      obtain ⟨u, hn⟩ : ∃ u, K (.union u) _ := by
        rcases hd with ⟨props, hd⟩ | ⟨props, field, hd⟩
        all_goals
          rw [hd] at hform
          exact hform
      obtain ⟨k, hk, ha⟩ := exists_armAt_of_findArm chosen
      obtain ⟨u, -, hu⟩ := arm_known hV (arms_lead hV hn found hk ha) body stream
      exact ⟨u, hu⟩
    | piped hd stream =>
      rw [hd] at hform
      obtain ⟨u, hn⟩ := hform
      exact ⟨u, stream_known hV hn stream⟩
  | pointee hd stream | wire hd stream =>
    rw [hd] at hform
    obtain ⟨u, hn⟩ := hform
    exact ⟨u, stream_known hV hn stream⟩

end

end TypeVector

end Ndr
