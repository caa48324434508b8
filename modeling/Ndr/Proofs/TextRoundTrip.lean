import Ndr.Proofs.Aggregate
import Ndr.Proofs.Bounded.Unmarshal
import Ndr.Proofs.Conformance.Hoisting
import Ndr.Proofs.Context
import Ndr.Proofs.Effect
import Ndr.Proofs.Text

/-!
A string that was read can be written again. In reading a text ends at the last element, in writing
at the first terminator, so what comes back is the text up to its first terminator: the same text
where it holds none.
-/

namespace Ndr

/-! ### Characters -/

/-- A value that can be written under a scalar type. -/
structure Scalar.Carries (kind : Scalar) (r : Representation) (v : Value) : Prop where
  word : ∃ n, kind.word? v = some n
  representation : kind.checkRepresentation r = .ok ()
  enum : kind.checkEnum (v.toInt?.getD 0) = .ok ()

section

variable {kind : Scalar} {r : Representation} {v : Value}

theorem Scalar.carries_zero (h : kind.checkRepresentation r = .ok ()) :
    kind.Carries r kind.zero := by
  refine ⟨?_, h, ?_⟩ <;> cases kind <;> first | exact ⟨_, rfl⟩ | rfl

/-- What a word was read as can be written. -/
theorem Scalar.carries_ofWord {n : Nat} (h : kind.checkRepresentation r = .ok ())
    (he : kind.checkEnum n = .ok ()) : kind.Carries r (kind.ofWord n) := by
  refine ⟨by cases kind <;> exact ⟨_, rfl⟩, h, ?_⟩
  rw [checkEnum_eq_ok] at he ⊢
  rintro rfl
  have hrange := he rfl
  have hn : ((enum.ofWord n).toInt?.getD 0) = n := by
    have hmax : enumMax = 32767 := rfl
    show (UInt32.ofNat n).toInt32.toInt = n
    rw [UInt32.toInt32_ofNat']
    exact Int32.toInt_ofNat_of_lt (by omega)
  rwa [hn]

/-- What was read under a scalar type can be written under it. -/
theorem Reader.getScalar_carries (kind : Scalar) (r : Representation) :
    Keeps (fun _ => True) (kind.Carries r) (getScalar r kind) :=
  (Keeps.ofTrue _).bind fun _ _ => (Keeps.lift _).bind fun _ hr => (Keeps.ofTrue _).bind fun _ _ =>
    (Keeps.lift _).bind fun _ he => .pure (Scalar.carries_ofWord hr he)

theorem Writer.writes_scalar (h : kind.Carries r v) (out : List UInt8) :
    ∃ bytes, Writes (putScalar r kind v) out (.ok ()) bytes := by
  obtain ⟨word, hword⟩ := h.word
  have hdvd : kind.size ∣
      (out ++ List.replicate (padding out.length kind.size) (0 : UInt8)).length := by
    rw [List.length_append, List.length_replicate]
    exact dvd_add_padding kind.size_pos
  unfold putScalar
  rw [hword, h.representation, h.enum]
  refine ⟨_, (writes_align kind.size_dvd_eight).bind (writes_putTogether ?_)⟩
  rw [ByteOrder.length_encode]
  exact mod_eight_add_le kind.size_dvd_eight hdvd

end

/-! ### Reading a string -/

namespace Unmarshal

variable {env : Env} {y : Site ScopeId} {element : Descriptor} {kind : Scalar} {n room : Nat}
  {kind' : ArrayKind} {p : Span} {text : List Value} {u u' : State}

theorem walk_carries (hform : element.form = .scalar kind) :
    Keeps (fun _ => True) (kind.Carries env.representation) (walk env (room + 1) element y) := by
  unfold walk getForm
  rw [hform]
  exact (Keeps.onPart_of (Reader.getScalar_carries kind env.representation)).bind fun v hv =>
    (Keeps.lift _).bind fun _ _ => .pure hv

/-- As many elements are read as are asked for. -/
theorem getElements_length (env : Env) (walk : Walk) (element : Descriptor) (n : Nat)
    (y : Site ScopeId) : Keeps (fun _ => True) (fun vs : List Value => vs.length = n)
      (getElements env walk element n y) := by
  cases hk : element.byteElement? with
  | none =>
    unfold getElements
    simp only [hk]
    exact (Keeps.lift _).bind fun _ _ => (Keeps.repeatM_all (Keeps.ofTrue _) n).mono fun _ h => h.1
  | some kind =>
    rw [getElements_block walk hk, Reader.getRun_eq_repeatM]
    refine (Keeps.lift _).bind fun _ _ => (Keeps.lift _).bind fun _ _ => ?_
    refine (Keeps.onPart_of (Keeps.repeatM_all (Keeps.ofTrue _) n)).map fun bytes h => ?_
    rw [List.length_map, h.1]

theorem checkCount_eq_ok (h : checkCount env n = .ok ()) : n ≤ env.config.maxElements := by
  unfold checkCount at h
  split at h
  · assumption
  · exact absurd h (by simp)

theorem stripTerminator_eq_ok {vs : List Value} (h : stripTerminator vs = .ok text) :
    ∃ v, vs = text ++ [v] := by
  unfold stripTerminator at h
  split at h
  · exact absurd h (by simp)
  · rename_i v hlast
    split at h
    · obtain rfl := Except.ok.inj h
      exact ⟨v, (List.dropLast_append_getLast? v hlast).symm⟩
    · exact absurd h (by simp)

/-- The characters of a string can all be written again, and so can a terminator. -/
theorem getString_eq_ok (hform : element.form = .scalar kind)
    (e : getString env (walk env (room + 1)) element [p] y u = .ok text u') :
    p.length = text.length + 1 ∧
      kind.checkRepresentation env.representation = .ok () ∧
      ∀ v ∈ text, kind.Carries env.representation v := by
  unfold getString at e
  dsimp only at e
  split at e
  · obtain ⟨_, _, e, -⟩ := bind_eq_ok.1 e
    exact absurd e throw_ne_ok
  obtain ⟨vs, t, hread, e⟩ := bind_eq_ok.1 e
  obtain ⟨hstrip, -⟩ := lift_eq_ok.1 e
  obtain ⟨v, rfl⟩ := stripTerminator_eq_ok hstrip
  have hlength : p.length = text.length + 1 :=
    (Keeps.ok (getElements_length _ _ _ _ _) trivial hread).2.symm.trans List.length_append
  have hmax : p.length ≤ env.config.maxElements := by
    obtain ⟨_, _, hcount, -⟩ := bind_eq_ok.1 hread
    exact checkCount_eq_ok (lift_eq_ok.1 hcount).1
  -- one by one each of them is a character, and so is the terminator
  rw [getElements_one_by_one hmax fun hzero => by omega] at hread
  obtain ⟨-, -, hcarries⟩ := (Keeps.repeatM_all (walk_carries hform) p.length).ok trivial hread
  exact ⟨hlength, (hcarries v (by simp)).representation,
    fun w hw => hcarries w (List.mem_append_left _ hw)⟩

/-! #### Its shape -/

theorem getSize_fits (env : Env) (v1 : Bool) :
    Keeps (fun _ => True) (· < 256 ^ countWidth v1) (getSize env v1) := by
  cases v1 with
  | true | false => exact Keeps.onPart_of (Reader.getAligned_lt env.order _)

/-- The length of a part was a count. -/
theorem getSpan_fits (env : Env) (v1 : Bool) (scope : ScopeId) (dim : Dimension) (extent : Nat) :
    Keeps (fun _ => True) (fun p => p.length < 256 ^ countWidth v1)
      (getSpan env v1 scope dim extent) := by
  have hfrom : ∀ first, Keeps (fun _ => True) (fun p => p.length < 256 ^ countWidth v1)
      (getSpanFrom env v1 scope dim extent first) := by
    intro first
    refine (getSize_fits env v1).bind fun length hlength => ?_
    dsimp only
    split
    · exact (Keeps.throw (P := fun _ => False) _).bind fun _ h => h.elim
    · have hspan : Keeps (fun _ => True) (fun p => p.length < 256 ^ countWidth v1)
          (pure { extent, first, length } : Unmarshalling Span) := .pure hlength
      split
      · exact hspan
      · exact (Keeps.ofTrue _).bind fun _ _ => hspan
  rw [getSpan_eq]
  exact .ite (hfrom 0) ((Keeps.ofTrue _).bind fun first _ => hfrom first)

theorem getShape_fits {env : Env} (hkind : kind'.isVarying) (v1 : Bool) (scope : ScopeId)
    (a : ArrayDefinition) (extents : List Nat) :
    Keeps (fun _ => True) (fun shape => ∀ p ∈ shape, p.length < 256 ^ countWidth v1)
      (getShape env kind' v1 scope a extents) := by
  unfold getShape
  rw [if_pos hkind]
  refine (Keeps.mapM_forall₂ fun d _ => getSpan_fits env v1 scope d.1 d.2).mono fun shape h p hp => ?_
  obtain ⟨_, -, hfits⟩ := exists_of_forall₂ h.flip hp
  exact hfits

/-- The extent that is not read lies between the bounds. -/
theorem extentIn_constant {scope : ScopeId} {b : BoundPair} {extent : Nat}
    (hlower : b.lower.kind = .fixed) (e : extentIn scope b none u = .ok extent u') :
    extentOf b.upper.kind b.lower.constant b.upper.constant = .ok extent := by
  obtain ⟨_, _, -, e⟩ := bind_eq_ok.1 e
  obtain ⟨found, _, hfound, e⟩ := bind_eq_ok.1 e
  have hresolve : ∀ s, b.lower.resolve s = .ok (.value b.lower.constant) := by
    intro s
    unfold Bound.resolve
    rw [if_neg (by rw [hlower]; decide), if_pos hlower]
  rw [hresolve] at hfound
  obtain rfl := Except.ok.inj (lift_eq_ok.1 hfound).1
  exact (lift_eq_ok.1 e).1

end Unmarshal

/-! ### String arrays -/

/-- The definition of an array of characters whose text gives the part that is sent, from the first
element on. It gives the number of elements too, where that travels. -/
structure ArrayDefinition.OfText (a : ArrayDefinition) (kind : ArrayKind) (dim : Dimension) : Prop
    where
  element : a.element.modifiers = {}
  dimensions : a.dimensions = [dim]
  lower : dim.bounds.lower.kind = .fixed
  upper : kind.isConformant → dim.bounds.upper.kind = .string
  limits : dim.OfText

/-- Only arrays of which a part is sent have texts. -/
theorem ArrayDefinition.OfText.isVarying {a : ArrayDefinition} {kind : ArrayKind} {dim : Dimension}
    {tv : TypeVector} {definition : Nat} (h : a.OfText kind dim)
    (ha : tv.arrayDefinition definition kind.isVarying = .ok a) : kind.isVarying := by
  obtain ⟨l, hl, -⟩ := h.limits
  cases hkind : kind.isVarying with
  | true => rfl
  | false =>
    rw [hkind] at ha
    have hnone := TypeVector.limits_of_arrayDefinition ha dim (by rw [h.dimensions]; simp)
    exact absurd (hl.symm.trans hnone) (by simp)

/-- An extent that does not travel is constant. -/
theorem ArrayDefinition.OfText.upper_fixed {a : ArrayDefinition} {kind : ArrayKind} {dim : Dimension}
    (h : a.OfText kind dim) (hbounds : a.checkBounds kind = .ok ())
    (hkind : kind.isConformant = false) : dim.bounds.upper.kind = .fixed := by
  have hall := Lockstep.constant_of_checkBounds hbounds hkind
  rw [h.dimensions] at hall
  simp only [List.all_cons, BoundPair.isConstant, Bool.and_eq_true, beq_iff_eq] at hall
  exact hall.1.2

/-- What is known of a text that was read: its characters can be written, and the counts that go with
it fit. -/
structure Unmarshal.TextRead (env : Unmarshal.Env) (v1 : Bool) (kind : ArrayKind)
    (a : ArrayDefinition) (dim : Dimension) (text : List Value) : Prop where
  bounds : a.checkBounds kind = .ok ()
  characters : ∃ character, a.characterKind = .ok character ∧
    character.checkRepresentation env.representation = .ok () ∧
    ∀ v ∈ text, character.Carries env.representation v
  count : text.length + 1 < 256 ^ countWidth v1
  extent : ∃ n, text.length + 1 ≤ n ∧ n < 2 ^ 64 ∧ n ≤ env.config.maxElements ∧
    (kind.isConformant = false →
      extentOf dim.bounds.upper.kind dim.bounds.lower.constant dim.bounds.upper.constant = .ok n)

namespace Unmarshal

variable {env : Env} {y : Site ScopeId} {m : Modifiers} {kind : ArrayKind} {a : ArrayDefinition}
  {dim : Dimension} {dims definition room : Nat} {w : Value} {u u' : State}

/-- The extents of a text are one, which is constant where it was not read. -/
theorem extentsIn_text {scope : ScopeId} {read : Option (List Nat)} {extents : List Nat}
    (ht : a.OfText kind dim) (hread : kind.isConformant = false → read = none)
    (hcounts : ∀ counts, read = some counts → Counts a.dimensions.length counts)
    (e : extentsIn scope a read u = .ok extents u') : ∃ n, extents = [n] ∧
      (kind.isConformant = false →
        extentOf dim.bounds.upper.kind dim.bounds.lower.constant dim.bounds.upper.constant = .ok n) := by
  have hone : extents.length = 1 := by
    rw [((Bounded.counts_extentsIn hcounts scope).ok trivial e).2, ht.dimensions, List.length_singleton]
  obtain ⟨n, rfl⟩ := List.length_eq_one_iff.1 hone
  refine ⟨n, rfl, fun hkind => ?_⟩
  rw [hread hkind, extentsIn, ht.dimensions, List.mapM_cons] at e
  obtain ⟨extent, _, hextent, e⟩ := bind_eq_ok.1 e
  obtain ⟨hextents, -⟩ := pure_eq_ok.1 e
  exact (List.cons.inj hextents).1 ▸ extentIn_constant ht.lower hextent

theorem getContents_text {read : Option (List Nat)} {character : Scalar} (ht : a.OfText kind dim)
    (hm : m.isString) (hvarying : kind.isVarying) (hbounds : a.checkBounds kind = .ok ())
    (hcharacter : a.characterKind = .ok character)
    (hread : kind.isConformant = false → read = none)
    (hcounts : ∀ counts, read = some counts → Counts a.dimensions.length counts)
    (e : getContents env (walk env (room + 1)) m kind a y read u = .ok w u') :
    ∃ text, w = .array text ∧ TextRead env m.isV1 kind a dim text := by
  obtain ⟨extents, u1, hextents, e⟩ := bind_eq_ok.1 e
  obtain ⟨total, _, h, e⟩ := bind_eq_ok.1 e
  obtain ⟨htotal, rfl⟩ := lift_eq_ok.1 h
  obtain ⟨_, _, h, e⟩ := bind_eq_ok.1 e
  obtain ⟨hmax, rfl⟩ := lift_eq_ok.1 h
  obtain ⟨shape, u2, hshape, e⟩ := bind_eq_ok.1 e
  obtain ⟨text, u3, htext, e⟩ := bind_eq_ok.1 e
  obtain ⟨rfl, -⟩ := pure_eq_ok.1 e
  rw [if_pos hm] at htext
  have hone := ((Bounded.counts_extentsIn hcounts _).ok trivial hextents).2
  obtain ⟨n, rfl, hconstant⟩ := extentsIn_text ht hread hcounts hextents
  obtain rfl : n = total := (Nat.one_mul n).symm.trans (Shape.checkedProduct_eq_foldl htotal)
  -- one part of it is sent
  obtain ⟨-, hextent, hwithin⟩ := (Bounded.within_getShape env hone.le kind _ _).ok trivial hshape
  obtain ⟨p, rfl⟩ : ∃ p, shape = [p] := by
    refine List.length_eq_one_iff.1 ?_
    rw [← List.length_map Span.extent, hextent, List.length_singleton]
  have hfits := ((getShape_fits hvarying _ _ _ _).ok trivial hshape).2 p (List.mem_singleton_self p)
  obtain ⟨hlength, hrep, hcarries⟩ :=
    getString_eq_ok (Lockstep.characterKind_eq_ok hcharacter).2.1 htext
  have hextent : p.extent = n := (List.cons.inj hextent).1
  have hwithin := hwithin p (List.mem_singleton_self p)
  exact ⟨text, rfl, hbounds, ⟨character, hcharacter, hrep, hcarries⟩, hlength ▸ hfits, n, by omega,
    Shape.checkedProduct_lt (by decide) htotal, checkCount_eq_ok hmax, hconstant⟩

theorem getArray_text (ht : a.OfText kind dim) (hm : m.isString)
    (ha : env.vector.arrayDefinition definition kind.isVarying = .ok a)
    (e : getArray env (walk env (room + 1)) m kind dims definition y none u = .ok w u') :
    ∃ text, w = .array text ∧ TextRead env m.isV1 kind a dim text := by
  rw [getArray_eq, ha, lift_ok_bind] at e
  obtain ⟨_, _, -, e⟩ := bind_eq_ok.1 e
  obtain ⟨_, _, h, e⟩ := bind_eq_ok.1 e
  obtain ⟨hbounds, -⟩ := lift_eq_ok.1 h
  obtain ⟨_, _, h, e⟩ := bind_eq_ok.1 e
  obtain ⟨hcharacters, -⟩ := lift_eq_ok.1 h
  obtain ⟨read, _, hread, e⟩ := bind_eq_ok.1 e
  rw [ArrayDefinition.checkCharacters, if_pos hm] at hcharacters
  obtain ⟨character, hcharacter, -⟩ := Except.map_eq_ok.1 hcharacters
  refine getContents_text ht hm (ht.isVarying ha) hbounds hcharacter (fun hkind => ?_)
    (fun counts hcounts => ?_) e
  · rw [hkind] at hread
    exact (pure_eq_ok.1 hread).1.symm
  · subst hcounts
    split at hread
    · change (some <$> getExtents env a.dimensions.length m.isV1) _ = _ at hread
      obtain ⟨_, hcounts, he⟩ := map_eq_ok.1 hread
      obtain rfl := Option.some.inj he
      exact ((counts_getExtents env _ _).ok trivial hcounts).2
    · exact absurd (pure_eq_ok.1 hread).1 (by simp)

end Unmarshal

/-! ### Writing it again -/

namespace Marshal

/-- An action on a message that always ends well where the transport does, and changes nothing but
the message. -/
def Completes (start : Sink) (b v : Nat) (x : Marshalling Unit) : Prop :=
  ∀ ⦃s out⦄, Writer.Packs start b v out s.writer →
    ∃ w out', x s = .ok () { s with writer := w } ∧ Writer.Packs start b v out' w

section

variable {env : Env} {start : Sink} {b v : Nat} {kind : ArrayKind} {a : ArrayDefinition}
  {dim : Dimension} {v1 : Bool} {n dims definition room : Nat} {text : List Value} {x : Site Scope}

theorem Completes.pure : Completes start b v (pure ()) := fun _ out h => ⟨_, out, rfl, h⟩

theorem Completes.bind {x y : Marshalling Unit} (hx : Completes start b v x)
    (hy : Completes start b v y) : Completes start b v (do x; y) := by
  intro s out h
  obtain ⟨w, out, e, h⟩ := hx h
  obtain ⟨w', out', e', h'⟩ := hy (s := { s with writer := w }) h
  exact ⟨w', out', bind_eq_ok.2 ⟨(), _, e, e'⟩, h'⟩

theorem Completes.forM {α : Type} {f : α → Marshalling Unit} {l : List α}
    (h : ∀ i ∈ l, Completes start b v (f i)) : Completes start b v (l.forM f) := by
  induction l with
  | nil => exact .pure
  | cons i l ih =>
    show Completes start b v (do f i; l.forM f)
    exact (h i List.mem_cons_self).bind (ih fun j hj => h j (List.mem_cons_of_mem i hj))

theorem Completes.put {x : Put Unit} (h : ∀ out, ∃ bytes, Writer.Writes x out (.ok ()) bytes) :
    Completes start b v (put x) := by
  intro s out hs
  obtain ⟨bytes, hx⟩ := h out
  obtain ⟨w, e, hw⟩ := hx hs
  exact ⟨w, _, put_eq_ok.2 ⟨w, e, rfl⟩, hw⟩

theorem completes_putCount (n : Nat) : Completes start b v (putCount env n) :=
  .put fun _ => (Writer.writes_putAligned env.order (by decide) n).imp fun _ h => h.1

theorem completes_putSize (h : n < 256 ^ countWidth v1) :
    Completes start b v (putSize env v1 n) := by
  cases v1 with
  | true =>
    have hsmall : ¬2 ^ 16 ≤ n := Nat.not_le.2 h
    have hput : putSize env true n = Marshal.put (Writer.putAligned env.order 2 n) := by
      simp [putSize, hsmall]
    rw [hput]
    exact .put fun _ => (Writer.writes_putAligned env.order (by decide) n).imp fun _ h => h.1
  | false =>
    have hsmall : ¬2 ^ 32 ≤ n := Nat.not_le.2 h
    have hput : putSize env false n = putCount env n := by simp [putSize, hsmall]
    rw [hput]
    exact completes_putCount n

theorem completes_putRanges {p : Span} (hfirst : p.first = 0)
    (hlength : p.length < 256 ^ countWidth v1) : Completes start b v (putRanges env [p] v1) := by
  refine .forM fun q hq => ?_
  obtain rfl := List.mem_singleton.1 hq
  cases v1 with
  | true =>
    rw [if_pos rfl, if_neg (not_not.2 hfirst)]
    exact completes_putSize hlength
  | false =>
    have hsmall : ¬(2 ^ 32 ≤ q.first ∨ 2 ^ 32 ≤ q.length) :=
      not_or.2 ⟨by rw [hfirst]; decide, Nat.not_le.2 hlength⟩
    rw [if_neg (by simp), if_neg hsmall]
    exact (completes_putCount _).bind (completes_putCount _)

theorem completes_walk {element : Descriptor} {character : Scalar} {w : Value}
    (hform : element.form = .scalar character) (hm : element.modifiers.freeRep = none)
    (hw : character.Carries env.representation w) :
    Completes start b v (walk env (room + 1) element w x) := by
  unfold walk putForm
  rw [hform, hm]
  exact (Completes.put (Writer.writes_scalar hw)).bind .pure

/-- A text of characters that can be written is written, and its terminator is. -/
theorem completes_putString {character : Scalar} (hc : a.characterKind = .ok character)
    (hm : a.element.modifiers.freeRep = none)
    (hrep : character.checkRepresentation env.representation = .ok ())
    (h : ∀ w ∈ text, character.Carries env.representation w) :
    Completes start b v (putString env (walk env (room + 1)) a text x) := by
  have hform := (Lockstep.characterKind_eq_ok hc).2.1
  have hcarries : ∀ w ∈ textElements character text, character.Carries env.representation w := by
    intro w hw
    rcases List.mem_append.1 hw with hw | hw
    · exact h w ((List.takeWhile_prefix _).subset hw)
    · exact List.mem_singleton.1 hw ▸ Scalar.carries_zero hrep
  intro s out hs
  obtain ⟨hsize, -, sent, hpacked⟩ := id hs
  rw [putString_one_by_one (hsize ▸ hpacked.large) hc]
  exact Completes.forM (fun w hw => completes_walk hform hm (hcarries w hw)) hs

/-- The part that is sent of a text of `n` characters and its terminator. -/
theorem partOf_text (ht : dim.OfText) {l : BoundPair} (hl : dim.limits = some l) (scope : Scope)
    (lower : Int) (extent n : Nat) : partOf a (some n) scope lower extent l = .ok (0, n) := by
  obtain ⟨l', hl', hlower, hzero, hupper⟩ := ht
  obtain rfl := Option.some.inj (hl.symm.trans hl')
  have hlimit : l.lower.kind ≠ .string := by rw [hlower]; decide
  unfold partOf
  simp [hlimit, hupper, boundValue_of_fixed hlower, hzero, countOf, stringCount, bind, Except.bind,
    pure, Except.pure]

/-- The dimension of a text: all of it is sent, and where its extent is constant there was room for
it. -/
theorem spanOf_text {env' : Unmarshal.Env} (ht : a.OfText kind dim)
    (h : Unmarshal.TextRead env' v1 kind a dim text) (scope : Scope) :
    ∃ p, spanOf a (some (Value.transmitCount text)) scope dim = .ok p ∧ p.first = 0 ∧
      p.length = Value.transmitCount text ∧ p.extent < 2 ^ 64 ∧
      p.extent ≤ env'.config.maxElements ∧ (kind.isConformant → p.extent = p.length) := by
  obtain ⟨n, hn, hlarge, hmax, hconstant⟩ := h.extent
  obtain ⟨l, hl, -⟩ := id ht.limits
  have hpart := partOf_text (a := a) ht.limits hl scope
  have hcount := Value.transmitCount_le text
  cases hkind : kind.isConformant with
  | true =>
    refine ⟨⟨Value.transmitCount text, 0, Value.transmitCount text⟩, ?_, rfl, rfl,
      (hcount.trans hn).trans_lt hlarge, (hcount.trans hn).trans hmax, fun _ => rfl⟩
    unfold spanOf
    simp [boundValue_of_fixed ht.lower, hl, ht.upper hkind, stringCount, hpart, bind, Except.bind,
      pure, Except.pure]
  | false =>
    have hfixed := ht.upper_fixed h.bounds hkind
    have hne : dim.bounds.upper.kind ≠ .string := by rw [hfixed]; decide
    have hroom : ¬n < Value.transmitCount text := by omega
    refine ⟨⟨n, 0, Value.transmitCount text⟩, ?_, rfl, rfl, hlarge, hmax,
      fun hf => absurd hf (by simp)⟩
    unfold spanOf
    simp [boundValue_of_fixed ht.lower, hl, hne, boundValue_of_fixed hfixed, hconstant hkind,
      hpart, hroom, bind, Except.bind, pure, Except.pure]

theorem shapeOf_text {env' : Unmarshal.Env} (ht : a.OfText kind dim)
    (h : Unmarshal.TextRead env' v1 kind a dim text) (scope : Scope) :
    ∃ p : Span, shapeOf a kind true text scope = .ok [p] ∧ p.first = 0 ∧
      p.length = Value.transmitCount text ∧ p.extent < 2 ^ 64 ∧
      p.extent ≤ env'.config.maxElements ∧ (kind.isConformant → p.extent = p.length) := by
  obtain ⟨character, hcharacter, -⟩ := h.characters
  obtain ⟨p, hspan, hp⟩ := spanOf_text ht h scope
  refine ⟨p, ?_, hp⟩
  unfold shapeOf
  simp [h.bounds, hcharacter, ht.dimensions, hspan, bind, Except.bind, pure, Except.pure]

/-- **A text that was read can be written**, as far as its first terminator. -/
theorem completes_putArray {env' : Unmarshal.Env} {m : Modifiers}
    (hrep : env'.representation = env.representation) (ht : a.OfText kind dim) (hm : m.isString)
    (ha : env.vector.arrayDefinition definition kind.isVarying = .ok a)
    (hdims : a.checkDims dims = .ok ()) (h : Unmarshal.TextRead env' m.isV1 kind a dim text) :
    Completes start b v
      (putArray env (walk env (room + 1)) m kind dims definition (.array text) x none) := by
  obtain ⟨p, hshape, hfirst, hlength, -, -, hconformant⟩ := shapeOf_text ht h x.scope
  obtain ⟨character, hcharacter, hrepresentation, hcarries⟩ := h.characters
  rw [hrep] at hrepresentation hcarries
  have hsmall : p.length < 256 ^ countWidth m.isV1 :=
    hlength ▸ (Value.transmitCount_le text).trans_lt h.count
  have hparts : arrayParts env kind dims definition (.array text) = .ok (a, text) := by
    unfold arrayParts
    exact Except.bind_eq_ok.2 ⟨a, ha, Except.bind_eq_ok.2 ⟨(), hdims, rfl⟩⟩
  have hcontents : Completes start b v
      (putContents env (walk env (room + 1)) m kind a [p] text x) := by
    unfold putContents
    rw [if_pos hm]
    refine Completes.bind ?_ (completes_putString hcharacter (by rw [ht.element])
      hrepresentation hcarries)
    split
    · exact completes_putRanges hfirst hsmall
    · exact .pure
  rw [putArray_eq, hparts, lift_ok_bind, hm, hshape]
  dsimp only
  rw [lift_ok_bind]
  rw [bind_assoc]
  simp only [pure_bind]
  split
  · rename_i hkind
    refine Completes.bind (.forM fun q hq => ?_) hcontents
    obtain rfl := List.mem_singleton.1 hq
    exact completes_putSize (hconformant hkind ▸ hsmall)
  · exact hcontents

end

end Marshal

/-! ### Operations -/

/-- The list at `offset` has one parameter, a string of which the text gives the length. -/
structure Interface.PassesText (i : Interface) (offset : Nat) (p : Parameter) (kind : ArrayKind)
    (a : ArrayDefinition) (dim : Dimension) : Prop where
  list : i.vector.parameters offset = .ok [p]
  form : ∃ props dims definition, p.descriptor.form = .array kind props dims definition ∧
    i.vector.arrayDefinition definition kind.isVarying = .ok a ∧ a.checkDims dims = .ok ()
  isString : p.descriptor.modifiers.isString
  freeRep : p.descriptor.modifiers.freeRep = none
  text : a.OfText kind dim

section

variable {offset n room : Nat} {p : Parameter} {kind : ArrayKind} {a : ArrayDefinition}
  {dim : Dimension} {params : List Value} {text : List Value}

/-- What reading a list of one text gives. -/
theorem Unmarshal.getParameters_text (env : Unmarshal.Env) {values : List (Nat × Value)}
    {s t : Unmarshal.State} (hp : env.interface.PassesText offset p kind a dim)
    (hroom : env.config.maxNesting = room + 2)
    (e : getParameters env offset params s = .ok values t) :
    ∃ text, values = [(p.index, .array text)] ∧
      TextRead env p.descriptor.modifiers.isV1 kind a dim text := by
  obtain ⟨props, dims, definition, hform, ha, -⟩ := hp.form
  obtain ⟨list, _, h, e⟩ := bind_eq_ok.1 e
  obtain rfl := Except.ok.inj (hp.list.symm.trans (lift_eq_ok.1 h).1)
  obtain ⟨_, _, -, e⟩ := bind_eq_ok.1 e
  obtain ⟨scope, s1, -, e⟩ := bind_eq_ok.1 e
  obtain ⟨read, s2, hread, e⟩ := bind_eq_ok.1 e
  obtain ⟨_, _, -, e⟩ := bind_eq_ok.1 e
  obtain ⟨rfl, -⟩ := pure_eq_ok.1 e
  rw [List.mapM_cons] at hread
  obtain ⟨value, _, hvalue, hread⟩ := bind_eq_ok.1 hread
  obtain ⟨rfl, -⟩ := pure_eq_ok.1 hread
  cases hcurrent : params[p.index]? with
  | none =>
    simp only [hcurrent] at hvalue
    exact absurd hvalue throw_ne_ok
  | some current =>
    simp only [hcurrent] at hvalue
    obtain ⟨v, s3, hv, hvalue⟩ := bind_eq_ok.1 hvalue
    obtain ⟨_, _, -, hvalue⟩ := bind_eq_ok.1 hvalue
    obtain ⟨_, _, -, hvalue⟩ := bind_eq_ok.1 hvalue
    obtain ⟨_, _, -, hvalue⟩ := bind_eq_ok.1 hvalue
    obtain ⟨rfl, -⟩ := pure_eq_ok.1 hvalue
    rw [Lockstep.getParameter_eq_walk (by rw [hform]; simp) (by rw [hform]; simp), hroom] at hv
    unfold walk getForm at hv
    rw [hform] at hv
    obtain ⟨text, rfl, htext⟩ := getArray_text hp.text hp.isString ha hv
    exact ⟨text, rfl, htext⟩

namespace Marshal

variable {env : Env} {s : State}

/-- A list of one text that was read is written. -/
theorem putParameters_text (env : Env) {env' : Unmarshal.Env} {start : Sink} {b v : Nat}
    {out : List UInt8} (hp : env.interface.PassesText offset p kind a dim) (hroom : env.config.maxNesting = room + 2)
    (hrep : env'.representation = env.representation)
    (hv : params[p.index]? = some (.array text))
    (ht : Unmarshal.TextRead env' p.descriptor.modifiers.isV1 kind a dim text)
    (hs : s.deferred = []) (h : Writer.Packs start b v out s.writer) :
    ∃ w out', putParameters env offset params s = .ok () { s with writer := w } ∧
      Writer.Packs start b v out' w := by
  obtain ⟨props, dims, definition, hform, ha, hdims⟩ := hp.form
  have hwalk : ∀ x, Completes start b v
      (walk env env.config.maxNesting p.descriptor (.array text) x) := by
    intro x
    rw [hroom]
    unfold walk putForm
    rw [hform, hp.freeRep]
    exact (completes_putArray hrep hp.text hp.isString ha hdims ht).bind .pure
  obtain ⟨w, out', e, hw⟩ := hwalk
    { scope := (params.map (correlationOf env.heap)).toArray, embedded := false } h
  refine ⟨w, out', ?_, hw⟩
  refine bind_eq_ok.2 ⟨_, s, lift_eq_ok.2 ⟨hp.list, rfl⟩, bind_eq_ok.2 ⟨(), _, ?_, rfl⟩⟩
  simp only [hv]
  exact bind_eq_ok.2 ⟨(), _, e, flush_of_nothing hs⟩

theorem walk_textOf {d : Descriptor} {props : UInt8} {dims definition : Nat}
    (hform : d.form = .array kind props dims definition) (hm : d.modifiers.isString)
    (hfree : d.modifiers.freeRep = none) (room : Nat) (x : Site Scope) :
    walk env room d (.array (Value.textOf text)) x = walk env room d (.array text) x := by
  cases room with
  | zero => rfl
  | succ room =>
    unfold walk putForm
    rw [hform, hfree]
    simp only [putArray_textOf _ hm]

/-- What stands behind the first terminator is not sent. -/
theorem putParameters_textOf (hp : env.interface.PassesText offset p kind a dim)
    (hv : params[p.index]? = some (.array text)) :
    putParameters env offset (params.set p.index (.array (Value.textOf text))) =
      putParameters env offset params := by
  obtain ⟨props, dims, definition, hform, -⟩ := hp.form
  obtain ⟨hlt, hget⟩ := List.getElem?_eq_some_iff.1 hv
  -- a text gives its scope no integer
  have hscope : (params.set p.index (.array (Value.textOf text))).map (correlationOf env.heap) =
      params.map (correlationOf env.heap) := by
    have hlt' : p.index < (params.map (correlationOf env.heap)).length := by rwa [List.length_map]
    have hnone : correlationOf env.heap (.array (Value.textOf text)) =
        (params.map (correlationOf env.heap))[p.index] := by
      rw [List.getElem_map, hget]
      rfl
    rw [List.map_set, hnone, List.set_getElem_self]
  unfold putParameters
  rw [hscope, show env.vector.parameters offset = .ok [p] from hp.list, lift_ok_bind, lift_ok_bind]
  have hone : ∀ f : Parameter → Marshalling Unit, [p].forM f = (do f p; pure ()) := fun _ => rfl
  simp only [hone, hv, List.getElem?_set_self hlt, walk_textOf hform hp.isString hp.freeRep]

end Marshal

/-- A text is all that is sent of a list of one text. -/
theorem Sent.eq_of_passesText {env : Marshal.Env} {F : Lockstep.Frame} {d : Descriptor} {v : Value}
    (h : Sent env [p] params room F d v) (hp : env.interface.PassesText offset p kind a dim) :
    d = p.descriptor ∧ params[p.index]? = some v := by
  obtain ⟨_, _, _, hform, -⟩ := hp.form
  induction h with
  | parameter hmem hv =>
    obtain rfl := List.mem_singleton.1 hmem
    exact ⟨rfl, hv⟩
  | field _ hd _ _ _ _ _ ih | nestedField _ hd _ _ _ _ ih =>
    rw [ih.1, hform] at hd
    exact absurd hd (by simp)
  | element _ _ hstring _ _ _ _ ih =>
    rw [ih.1, hp.isString] at hstring
    exact absurd hstring (by simp)
  | arm _ hd _ _ _ _ ih =>
    rw [ih.1, hform] at hd
    exact absurd hd (by simp [TypeForm.unionAt?])

theorem Interface.PassesText.isAggregate {i : Interface} (hp : i.PassesText offset p kind a dim)
    (F : Lockstep.Frame) (hbounds : a.checkBounds kind = .ok ()) : p.descriptor.IsAggregate i F := by
  obtain ⟨props, dims, definition, hform, ha, -⟩ := hp.form
  obtain ⟨l, hl, hlower, -, hupper⟩ := hp.text.limits
  have hfixed : ∀ {b : Bound}, b.kind = .fixed → Lockstep.BoundHolds F b := fun hb hc =>
    absurd hc (by simp [Bound.isChecked, hb])
  have hstring : ∀ {b : Bound}, b.kind = .string → Lockstep.BoundHolds F b := fun hb hc =>
    absurd hc (Lockstep.not_isChecked_of_string hb)
  have hbound : Lockstep.BoundHolds F dim.bounds.upper := by
    cases hkind : kind.isConformant with
    | true => exact hstring (hp.text.upper hkind)
    | false => exact hfixed (hp.text.upper_fixed hbounds hkind)
  unfold Descriptor.IsAggregate
  rw [hform]
  intro a' ha'
  obtain rfl := Except.ok.inj (ha.symm.trans ha')
  rw [hp.text.dimensions, hp.text.element]
  refine ⟨List.forall_mem_singleton.2 ⟨hp.text.lower, hbound, fun l' hl' => ?_⟩,
    fun _ => ⟨List.forall_mem_singleton.2 hp.text.limits, rfl⟩⟩
  obtain rfl := Option.some.inj (hl.symm.trans hl')
  exact ⟨hfixed hlower, hstring hupper⟩

/-- A text without terminators can be read back. -/
theorem faithful_text {env : Marshal.Env} {env' env'' : Unmarshal.Env} {v1 : Bool}
    (hp : env.interface.PassesText offset p kind a dim) (hconfig : env'.config = env''.config)
    (hv : params[p.index]? = some (.array (Value.textOf text)))
    (ht : Unmarshal.TextRead env'' v1 kind a dim text) : Faithful env env' [p] params := by
  obtain ⟨_, _, _, hform, ha, -⟩ := hp.form
  refine ⟨fun h hfield => ?_, fun h hd ha' hshape => ?_, fun h hd => ?_⟩
  · rw [(h.eq_of_passesText hp).1] at hfield
    exact absurd hfield (by simp [Descriptor.isField, hform])
  · obtain ⟨rfl, helements⟩ := h.eq_of_passesText hp
    obtain rfl := Value.array.inj (Option.some.inj (hv.symm.trans helements))
    obtain ⟨rfl, -, -, rfl⟩ := TypeForm.array.inj (hform.symm.trans hd)
    obtain rfl := Except.ok.inj (ha.symm.trans ha')
    obtain ⟨q, hq, -, -, hlarge, hmax, -⟩ := Marshal.shapeOf_text hp.text ht _
    rw [hp.isString, Marshal.shapeOf_textOf, hq] at hshape
    obtain rfl := Except.ok.inj hshape
    rw [hp.isString]
    refine ⟨⟨q.extent, ?_, hconfig ▸ hmax⟩, fun _ v => Value.not_isTerminator_of_mem_textOf,
      fun hf => absurd hf (by simp), fun hf => absurd hf (by simp), fun hf => absurd hf (by simp)⟩
    simp [Shape.total, Shape.checkedProduct, hlarge]
  · obtain ⟨rfl, helements⟩ := h.eq_of_passesText hp
    exact absurd (hv.symm.trans helements) (by simp)

namespace Machine

variable {m m' : Machine} {world world'' : Surroundings} {params' results : List Value}
  {source : Source} {sink : Sink}

/-- What stands behind the first terminator of a text makes no difference to the message. -/
theorem marshal_textOf (world : Surroundings) (sink : Sink)
    (hp : m.interface.PassesText offset p kind a dim)
    (hv : params[p.index]? = some (.array text)) :
    m.marshal world offset (params.set p.index (.array (Value.textOf text))) sink =
      m.marshal world offset params sink := by
  unfold marshal
  dsimp only
  rw [Marshal.putParameters_textOf hp hv]

/-- The message of a text that was read. -/
theorem marshal_text (world : Surroundings) {env' : Unmarshal.Env} (hc : m.config.check = .ok ())
    (hroom : m.config.maxNesting = room + 2) (hp : m.interface.PassesText offset p kind a dim)
    (hsink : sink.Obliging) (hrep : env'.representation = m.representation)
    (hv : params[p.index]? = some (.array text))
    (ht : Unmarshal.TextRead env' p.descriptor.modifiers.isV1 kind a dim text) :
    ∃ n, (m.marshal world offset params sink).result = .ok n := by
  obtain ⟨hsize, heven, hvector, -⟩ := (Config.check_eq_ok_iff m.config).1 hc
  let start : Marshal.State := { world with writer := .new sink m.config }
  have hstart : Writer.Packs sink m.config.bufferSize m.config.vectorSize [] start.writer :=
    Writer.packs_new hsink hsize heven hvector
  obtain ⟨w, out, hput, hpacks⟩ := Marshal.putParameters_text (m.writing world) hp hroom hrep hv ht
    rfl hstart
  obtain ⟨w', _, hfinish, -⟩ := hpacks.finish
  refine ⟨out.length, ?_⟩
  unfold marshal
  dsimp only [writing, startOperation, start] at hput ⊢
  rw [hput]
  dsimp only
  rw [hfinish]

/-- **A text that was received can be sent on**, and arrives as far as its first terminator. -/
theorem text_resent (world' : Surroundings) (hm : m.Matches m') (hc : m.config.check = .ok ())
    (hnesting : 2 ≤ m.config.maxNesting) (hp : m.interface.PassesText offset p kind a dim)
    (hsink : sink.Obliging) (hlength : params'.length = results.length)
    (hlimit : world''.heap.limit = none)
    (e : (m.unmarshal world offset params source).result = .ok results) :
    ∃ text wire, results[p.index]? = some (.array text) ∧
      (m.marshal world' offset results sink).result = .ok wire.length ∧
      (m.marshal world' offset results sink).transport.message = sink.message ++ wire ∧
      ∀ source' tail, source'.bytes = wire ++ tail →
        AggregateArrived [p] (results.set p.index (.array (Value.textOf text))) params'
          world''.heap tail (m'.unmarshal world'' offset params' source') := by
  obtain ⟨room, hroom⟩ := Nat.exists_eq_add_of_le' hnesting
  obtain ⟨values, s, hrun, hresult, -⟩ := unmarshal_eq_ok e
  let env' : Unmarshal.Env := { m.startOperation with }
  have hrun : Unmarshal.getParameters env' offset params { world with reader := { source } } =
      .ok values s := hrun
  have hlist : env'.vector.parameters offset = .ok [p] := hp.list
  have hlt := Unmarshal.index_lt_of_getParameters hlist hrun p List.mem_cons_self
  obtain ⟨text, rfl, htext⟩ := Unmarshal.getParameters_text env' hp hroom hrun
  obtain rfl : results = params.set p.index (.array text) := Except.ok.inj (e.symm.trans hresult)
  have hv : (params.set p.index (.array text))[p.index]? = some (.array text) :=
    List.getElem?_set_self hlt
  obtain ⟨n, hn⟩ := marshal_text world' hc hroom hp hsink rfl hv htext
  -- the text that ends at the first terminator gives the same message, and can be read back
  have hsame := marshal_textOf world' sink hp hv
  have hfaithful : Faithful (m.writing world') ((m.writing world').receiver m'.side m'.nodes) [p]
      ((params.set p.index (.array text)).set p.index (.array (Value.textOf text))) :=
    faithful_text hp (show _ = env'.config from rfl)
      (List.getElem?_set_self (by rwa [List.length_set])) htext
  obtain ⟨wire, hwire, hmessage, harrived⟩ := aggregate_arrived hm hc hp.list (List.nodup_singleton _)
    (hlength.trans List.length_set.symm) hlimit
    (fun _ F _ _ h => (h.eq_of_passesText hp).1 ▸ hp.isAggregate F htext.bounds) hfaithful
    (hsame ▸ hn)
  rw [hsame] at hmessage
  exact ⟨text, wire, hv, hwire ▸ hn, hmessage, harrived⟩

/-- A terminator in the middle of a text that was received is its end when it is sent on. -/
example : Value.textOf [.char 97, .char 0, .char 98] = [.char 97] := by decide

end Machine

end

end Ndr
