import Ndr.Proofs.BlockCopy
import Ndr.Proofs.Lockstep.Array

/-!
The text of a string in writing: it ends at the first terminator, wherever the value ends, and goes
out with one terminator. What the definition announces for it is the same number where the text is
what gives the number; where a field or a constant gives it, the text is not asked.
-/

namespace Ndr

/-! ### Texts -/

namespace Value

variable {elements : List Value}

theorem textOf_eq_self_iff : textOf elements = elements ↔ ∀ v ∈ elements, v.isTerminator = false := by
  simp [textOf, List.takeWhile_eq_self_iff]

theorem not_isTerminator_of_mem_textOf {v : Value} (h : v ∈ textOf elements) :
    v.isTerminator = false := by
  simpa using List.mem_takeWhile_imp h

/-- A text ends where it ends. -/
@[simp] theorem textOf_textOf (elements : List Value) : textOf (textOf elements) = textOf elements :=
  textOf_eq_self_iff.2 fun _ h => not_isTerminator_of_mem_textOf h

@[simp] theorem transmitCount_textOf (elements : List Value) :
    transmitCount (textOf elements) = transmitCount elements := by
  rw [transmitCount, textOf_textOf, transmitCount]

theorem transmitCount_le (elements : List Value) : transmitCount elements ≤ elements.length + 1 :=
  Nat.succ_le_succ (List.takeWhile_prefix _).length_le

end Value

namespace Marshal

variable {env : Env} {x : Site Scope} {a : ArrayDefinition} {kind : ArrayKind} {character : Scalar}
  {room : Nat} {elements : List Value} {scope : Scope} {s : State}

/-! ### What is written -/

/-- What a string puts on the wire, element by element. -/
def textElements (character : Scalar) (elements : List Value) : List Value :=
  Value.textOf elements ++ [character.zero]

theorem length_textElements (character : Scalar) (elements : List Value) :
    (textElements character elements).length = Value.transmitCount elements := by
  rw [textElements, List.length_append, List.length_singleton, Value.transmitCount]

/-- **A string is written as its text and one terminator are one by one**, as many elements as its
text has and one more. -/
theorem putString_one_by_one (hb : 8 ≤ s.writer.bufferSize)
    (hc : a.characterKind = .ok character) :
    putString env (walk env (room + 1)) a elements x s =
      ((textElements character elements).forM fun v => walk env (room + 1) a.element v x) s := by
  have hput : putString env (walk env (room + 1)) a elements x = (do
      putElements env (walk env (room + 1)) a.element (Value.textOf elements) x
      walk env (room + 1) a.element character.zero x) := by
    unfold putString
    rw [hc, lift_ok_bind]
  rw [hput, textElements, Lockstep.forM_concat]
  by_cases hr : Value.textOf elements = [] → ∀ kind, a.element.byteElement? = some kind →
      kind.checkRepresentation env.representation = .ok ()
  · exact bind_of_eq (putElements_one_by_one hb hr) _
  -- the terminator of an empty text meets the fault that the block meets
  push Not at hr
  obtain ⟨hempty, kind, hk, hrefused⟩ := hr
  obtain ⟨hform, -, hbyte⟩ := byteElement?_eq_some hk
  obtain ⟨-, hform', -⟩ := Lockstep.characterKind_eq_ok hc
  obtain rfl : character = kind := TypeForm.scalar.inj (hform'.symm.trans hform)
  have hzero : character.zero = character.ofByte 0 := by
    rcases hbyte with rfl | rfl | rfl <;> rfl
  rw [hempty, putElements_nil _ hk, hzero, walk_ofByte hk]
  cases hcheck : character.checkRepresentation env.representation with
  | ok => exact absurd hcheck hrefused
  | error e => rfl

theorem putString_textOf (walk : Walk) (a : ArrayDefinition) (elements : List Value) :
    putString env walk a (Value.textOf elements) x = putString env walk a elements x := by
  unfold putString
  rw [Value.textOf_textOf]

theorem shapeOf_textOf (elements : List Value) :
    shapeOf a kind true (Value.textOf elements) scope = shapeOf a kind true elements scope := by
  unfold shapeOf
  simp

/-- What stands behind a terminator makes no difference. -/
theorem putArray_textOf (walk : Walk) {m : Modifiers} (hm : m.isString) (kind : ArrayKind)
    (dims definition : Nat) (elements : List Value) :
    putArray env walk m kind dims definition (.array (Value.textOf elements)) x none =
      putArray env walk m kind dims definition (.array elements) x none := by
  have hparts : ∀ elements, arrayParts env kind dims definition (.array elements) = (do
      let a ← env.vector.arrayDefinition definition kind.isVarying
      a.checkDims dims
      return (a, elements)) := fun _ => rfl
  rw [putArray_eq, putArray_eq, hparts, hparts]
  simp only [lift_bind, bind_assoc]
  refine bind_congr fun a => bind_congr fun _ => ?_
  have hpure : ∀ elements, (liftM (pure (a, elements) : Except Fault (ArrayDefinition × List Value)) :
      Marshalling _) = pure (a, elements) := fun _ => rfl
  unfold putContents
  simp only [hm, if_true, hpure, pure_bind, shapeOf_textOf, putString_textOf]

end Marshal

/-! ### What is announced -/

/-- Whether the text of a string gives the number of elements that are sent. -/
def Dimension.GivenByText (dim : Dimension) : Prop :=
  match dim.limits with
  | none => dim.bounds.upper.kind = .string
  | some l => l.upper.kind = .string ∨ l.upper.kind = .upperConf ∧ dim.bounds.upper.kind = .string

namespace Marshal

variable {a : ArrayDefinition} {kind : ArrayKind} {elements : List Value} {scope : Scope}
  {shape : Shape} {dim : Dimension} {lower : Int} {p : Span}

/-- The text gives the number of elements from the first on. -/
theorem Spans.length_of_text (h : Spans a (textCount? true elements) scope dim lower p)
    (hdim : dim.GivenByText) (hfirst : p.first = 0) : p.length = Value.transmitCount elements := by
  have hbound : dim.bounds.upper.kind = .string → p.extent = Value.transmitCount elements := by
    intro hk
    have hextent := h.extent
    rw [if_pos hk] at hextent
    exact (Except.ok.inj hextent).symm
  have hlimits := h.limits
  unfold Dimension.GivenByText at hdim
  cases hl : dim.limits with
  | none =>
    rw [hl] at hdim hlimits
    exact hlimits.2.trans (hbound hdim)
  | some l =>
    rw [hl] at hdim hlimits
    obtain ⟨-, hlength⟩ := partOf_eq_ok hlimits
    by_cases hk : l.upper.kind = .string
    · rw [if_pos hk] at hlength
      exact (Except.ok.inj hlength).symm
    · obtain ⟨hconf, hupper⟩ := hdim.resolve_left hk
      rw [if_neg hk, if_pos hconf, hfirst, Nat.sub_zero] at hlength
      exact hlength.2.trans (hbound hupper)

/-- Where the text does not give the number, it is not asked. -/
theorem Spans.length_unasked {text text' : Option Nat} {lower' : Int} {p' : Span}
    (h : Spans a text scope dim lower p) (h' : Spans a text' scope dim lower' p')
    (hdim : ¬dim.GivenByText) : p.length = p'.length := by
  obtain rfl := Except.ok.inj (h.from_lower.symm.trans h'.from_lower)
  have hbound : dim.bounds.upper.kind ≠ .string → p.extent = p'.extent := by
    intro hk
    have he := h.extent
    have he' := h'.extent
    rw [if_neg hk] at he he'
    obtain ⟨v, hv, he⟩ := he
    obtain ⟨v', hv', he'⟩ := he'
    obtain rfl := Except.ok.inj (hv.symm.trans hv')
    exact Except.ok.inj (he.symm.trans he')
  have hlimits := h.limits
  have hlimits' := h'.limits
  unfold Dimension.GivenByText at hdim
  cases hl : dim.limits with
  | none =>
    rw [hl] at hdim hlimits hlimits'
    exact hlimits.2.trans ((hbound hdim).trans hlimits'.2.symm)
  | some l =>
    rw [hl] at hdim hlimits hlimits'
    obtain ⟨hstring, hconf⟩ := not_or.1 hdim
    obtain ⟨hfirst, hlength⟩ := partOf_eq_ok hlimits
    obtain ⟨hfirst', hlength'⟩ := partOf_eq_ok hlimits'
    have hsame : p.first = p'.first := by
      by_cases hk : l.lower.kind = .string
      · rw [if_pos hk] at hfirst hfirst'
        rw [hfirst, hfirst']
      · rw [if_neg hk] at hfirst hfirst'
        exact Int.ofNat_inj.1 (Except.ok.inj (hfirst.symm.trans hfirst'))
    rw [if_neg hstring] at hlength hlength'
    by_cases hk : l.upper.kind = .upperConf
    · rw [if_pos hk] at hlength hlength'
      rw [hlength.2, hlength'.2, hsame, hbound fun hs => hconf ⟨hk, hs⟩]
    · rw [if_neg hk] at hlength hlength'
      obtain ⟨v, hv, hlength⟩ := hlength
      obtain ⟨v', hv', hlength'⟩ := hlength'
      obtain rfl := Except.ok.inj (hv.symm.trans hv')
      rw [hsame] at hlength
      exact Except.ok.inj (hlength.symm.trans hlength')

/-- **What a string announces.** A string has one dimension. Where its text gives the number of
elements that are sent, that many are written; where it does not, the same number is announced for
every text. -/
theorem announced (h : shapeOf a kind true elements scope = .ok shape) :
    ∃ dim p, a.dimensions = [dim] ∧ shape = [p] ∧
      (dim.GivenByText → p.first = 0 → ∀ character,
        (textElements character elements).length = p.length) ∧
      (¬dim.GivenByText → ∀ elements' shape', shapeOf a kind true elements' scope = .ok shape' →
        shape'.map (·.length) = [p.length]) := by
  obtain ⟨-, hcharacter, hshape⟩ := shapeOf_eq_ok h
  obtain ⟨character, hkind⟩ := hcharacter rfl
  obtain ⟨dim, hdim⟩ := List.length_eq_one_iff.1 (Lockstep.characterKind_eq_ok hkind).1
  have hsingle : ∀ {text : Option Nat} {shape : Shape},
      Lockstep.Shapes a text scope a.dimensions shape →
      ∃ p lower, shape = [p] ∧ Spans a text scope dim lower p := by
    intro text shape hs
    rw [hdim] at hs
    obtain ⟨p, _, ⟨lower, hp⟩, hnil, rfl⟩ := List.forall₂_cons_left_iff.1 hs
    obtain rfl := List.forall₂_nil_left_iff.1 hnil
    exact ⟨p, lower, rfl, hp⟩
  obtain ⟨p, lower, rfl, hp⟩ := hsingle hshape
  refine ⟨dim, p, hdim, rfl, fun hgiven hfirst character => ?_, fun hnot elements' shape' h' => ?_⟩
  · rw [length_textElements, hp.length_of_text hgiven hfirst]
  · obtain ⟨-, -, hshape'⟩ := shapeOf_eq_ok h'
    obtain ⟨p', lower', rfl, hp'⟩ := hsingle hshape'
    rw [List.map_singleton, hp.length_unasked hp' hnot]

/-- Five elements of ten are announced for a text of two, as the field says. -/
example :
    let a : ArrayDefinition :=
      { offset := 0
        dimensions := [⟨.ofLength 10, some ⟨.ofConstant 0, .ofField .lengthIs 0⟩⟩]
        element := { offset := 0, modifiers := {}, form := .scalar .char } }
    shapeOf a .varying true [.char 97, .char 98] #[some 5] = .ok [⟨10, 0, 5⟩] ∧
      (textElements .char [.char 97, .char 98]).length = 3 := by decide

end Marshal

end Ndr
