import Mathlib.Data.Finset.Card
import Mathlib.Logic.Relator
import Ndr.Heap.Isomorphism
import Ndr.Proofs.Renaming

/-!
When two object graphs are equal: there is a relation that matches their cells one by one, so that
related cells hold the same values up to the cells that these lead to. The pairs that a comparison
leaves behind are such a relation, and a comparison ends well wherever there is one.
-/

namespace Ndr

/-! ### Values up to the names of cells -/

namespace Value

/-- A value without parts that is the same as itself only: no float, and no pointer to a cell. -/
def isPlain : Value → Bool
  | float _ | double _ | struct _ | array _ | union .. | pointer (some _) => false
  | _ => true

/-- Values of one shape with the same scalars, switches and handles, floats being compared as
numbers, whose pointers lead to related cells. -/
inductive SameUpTo (R : CellId → CellId → Prop) : Value → Value → Prop where
  | plain {v : Value} (h : v.isPlain = true) : SameUpTo R v v
  | float {a b : UInt32} (h : IeeeFormat.single.same a.toNat b.toNat = true) :
      SameUpTo R (.float a) (.float b)
  | double {a b : UInt64} (h : IeeeFormat.double.same a.toNat b.toNat = true) :
      SameUpTo R (.double a) (.double b)
  | pointer {c d : CellId} (h : R c d) : SameUpTo R (.pointer (some c)) (.pointer (some d))
  | struct {vs ws : List Value} (hn : vs.length = ws.length)
      (h : ∀ (k : Nat) (v w : Value), vs[k]? = some v → ws[k]? = some w → SameUpTo R v w) :
      SameUpTo R (.struct vs) (.struct ws)
  | array {vs ws : List Value} (hn : vs.length = ws.length)
      (h : ∀ (k : Nat) (v w : Value), vs[k]? = some v → ws[k]? = some w → SameUpTo R v w) :
      SameUpTo R (.array vs) (.array ws)
  | union (switch : Int64) {v w : Value} (h : SameUpTo R v w) :
      SameUpTo R (.union switch v) (.union switch w)

variable {R S : CellId → CellId → Prop} {u v w : Value} {c : CellId}

/-- Only the cells that the two values lead to matter. -/
theorem SameUpTo.mono (h : v.SameUpTo R w)
    (hRS : ∀ c d, v.Leads c → w.Leads d → R c d → S c d) : v.SameUpTo S w := by
  induction h with
  | plain h => exact .plain h
  | float h => exact .float h
  | double h => exact .double h
  | pointer h => exact .pointer (hRS _ _ (.pointer _) (.pointer _) h)
  | struct hn _ ih =>
    exact .struct hn fun k v w hv hw => ih k v w hv hw fun c d hc hd =>
      hRS c d (.struct (List.mem_of_getElem? hv) hc) (.struct (List.mem_of_getElem? hw) hd)
  | array hn _ ih =>
    exact .array hn fun k v w hv hw => ih k v w hv hw fun c d hc hd =>
      hRS c d (.array (List.mem_of_getElem? hv) hc) (.array (List.mem_of_getElem? hw) hd)
  | union s _ ih => exact .union s (ih fun c d hc hd => hRS c d (.union hc) (.union hd))

theorem SameUpTo.symm (h : v.SameUpTo R w) : w.SameUpTo (flip R) v := by
  induction h with
  | plain h => exact .plain h
  | float h => exact .float (by rwa [IeeeFormat.same_comm])
  | double h => exact .double (by rwa [IeeeFormat.same_comm])
  | pointer h => exact .pointer h
  | struct hn _ ih => exact .struct hn.symm fun k v w hv hw => ih k w v hw hv
  | array hn _ ih => exact .array hn.symm fun k v w hv hw => ih k w v hw hv
  | union s _ ih => exact .union s ih

/-- Numbers that equal the same number are equal. -/
theorem same_trans {f : IeeeFormat} {a b c : Nat} (hab : f.same a b = true)
    (hbc : f.same b c = true) : f.same a c = true := by
  simp only [IeeeFormat.same, Bool.and_eq_true, Bool.or_eq_true, beq_iff_eq,
    Bool.not_eq_true'] at hab hbc ⊢
  obtain ⟨⟨ha, -⟩, rfl | ⟨ha', hb⟩⟩ := hab
  · exact hbc
  · obtain ⟨⟨-, hc⟩, rfl | ⟨-, hc'⟩⟩ := hbc
    · exact ⟨⟨ha, hc⟩, .inr ⟨ha', hb⟩⟩
    · exact ⟨⟨ha, hc⟩, .inr ⟨ha', hc'⟩⟩

/-- An element of one list has one at its side in a list of the same length. -/
theorem exists_getElem? {vs ws : List Value} (hn : vs.length = ws.length) {k : Nat}
    (hv : vs[k]? = some v) : ∃ w, ws[k]? = some w := by
  obtain ⟨hk, -⟩ := List.getElem?_eq_some_iff.1 hv
  exact ⟨ws[k], List.getElem?_eq_getElem (hn ▸ hk)⟩

theorem SameUpTo.trans (h : u.SameUpTo R v) (h' : v.SameUpTo S w) :
    u.SameUpTo (Relation.Comp R S) w := by
  induction h generalizing w with
  | plain h =>
    cases h' with
    | plain => exact .plain h
    | _ => simp [isPlain] at h
  | float h =>
    cases h' with
    | plain h' => simp [isPlain] at h'
    | float h' => exact .float (same_trans h h')
  | double h =>
    cases h' with
    | plain h' => simp [isPlain] at h'
    | double h' => exact .double (same_trans h h')
  | pointer h =>
    cases h' with
    | plain h' => simp [isPlain] at h'
    | pointer h' => exact .pointer ⟨_, h, h'⟩
  | struct hn _ ih =>
    cases h' with
    | plain h' => simp [isPlain] at h'
    | struct hn' h' =>
      refine .struct (hn.trans hn') fun k u w hu hw => ?_
      obtain ⟨v, hv⟩ := exists_getElem? hn hu
      exact ih k u v hu hv (h' k v w hv hw)
  | array hn _ ih =>
    cases h' with
    | plain h' => simp [isPlain] at h'
    | array hn' h' =>
      refine .array (hn.trans hn') fun k u w hu hw => ?_
      obtain ⟨v, hv⟩ := exists_getElem? hn hu
      exact ih k u v hu hv (h' k v w hv hw)
  | union s _ ih =>
    cases h' with
    | plain h' => simp [isPlain] at h'
    | union _ h' => exact .union s (ih h')

/-- A cell on one side has a related cell on the other. -/
theorem SameUpTo.leads (h : v.SameUpTo R w) (hc : v.Leads c) : ∃ d, w.Leads d ∧ R c d := by
  induction h with
  | plain h => cases hc <;> simp [isPlain] at h
  | float | double => nomatch hc
  | pointer h =>
    cases hc
    exact ⟨_, .pointer _, h⟩
  | struct hn _ ih =>
    obtain ⟨⟩ | ⟨hm, hc⟩ := hc
    obtain ⟨k, hv⟩ := List.mem_iff_getElem?.1 hm
    obtain ⟨w, hw⟩ := exists_getElem? hn hv
    obtain ⟨d, hd, hcd⟩ := ih k _ w hv hw hc
    exact ⟨d, .struct (List.mem_of_getElem? hw) hd, hcd⟩
  | array hn _ ih =>
    obtain ⟨⟩ | ⟨⟩ | ⟨hm, hc⟩ := hc
    obtain ⟨k, hv⟩ := List.mem_iff_getElem?.1 hm
    obtain ⟨w, hw⟩ := exists_getElem? hn hv
    obtain ⟨d, hd, hcd⟩ := ih k _ w hv hw hc
    exact ⟨d, .array (List.mem_of_getElem? hw) hd, hcd⟩
  | union s _ ih =>
    obtain ⟨⟩ | ⟨⟩ | ⟨⟩ | hc := hc
    obtain ⟨d, hd, hcd⟩ := ih hc
    exact ⟨d, .union hd, hcd⟩

/-- Values without parts that are found equal. -/
theorem sameUpTo_of_sameLeaf (h : v.sameLeaf w = true) : v.SameUpTo R w := by
  revert h
  fun_cases sameLeaf v w
  all_goals intro h
  case case13 => exact .float h
  case case14 => exact .double h
  all_goals first
    | exact absurd h Bool.false_ne_true
    | exact .plain rfl
    | exact (beq_iff_eq.1 h) ▸ .plain rfl

theorem sameLeaf_self (h : v.isPlain = true) : v.sameLeaf v = true := by
  cases v with
  | pointer c => cases c <;> simp_all [isPlain, sameLeaf]
  | _ => simp_all [isPlain, sameLeaf]

end Value

namespace Heap

/-! ### Graphs -/

/-- The cells that pointers lead to from some values on. -/
inductive Reaches (h : Heap) (roots : List Value) : CellId → Prop where
  | root {v : Value} {c : CellId} (hv : v ∈ roots) (hc : v.Leads c) : Reaches h roots c
  | step {c d : CellId} {v : Value} (hr : Reaches h roots c) (hv : h.load? c = some v)
      (hd : v.Leads d) : Reaches h roots d

/-- Two cells are live and hold the same value up to a relation of cells. -/
def HoldSame (h h' : Heap) (R : CellId → CellId → Prop) (c d : CellId) : Prop :=
  ∃ v w, h.load? c = some v ∧ h'.load? d = some w ∧ v.SameUpTo R w

/-- A relation matches the cells of two graphs: one cell for one cell, the values being the same up
to it, and so are the values of related cells. -/
structure Matching (h : Heap) (a : Value) (h' : Heap) (b : Value) (R : CellId → CellId → Prop) :
    Prop where
  unique : Relator.BiUnique R
  values : a.SameUpTo R b
  cells : ∀ c d, R c d → HoldSame h h' R c d

variable {h h' h'' : Heap} {a b e : Value} {R S : CellId → CellId → Prop} {c d : CellId}
  {p p' p'' : Pairing} {n : Nat}

theorem HoldSame.mono (hs : HoldSame h h' R c d) (hRS : ∀ c d, R c d → S c d) :
    HoldSame h h' S c d := by
  obtain ⟨v, w, hv, hw, h⟩ := hs
  exact ⟨v, w, hv, hw, h.mono fun c d _ _ => hRS c d⟩

theorem Matching.symm (hm : Matching h a h' b R) : Matching h' b h a (flip R) where
  unique := ⟨fun _ _ _ hac hbc => hm.unique.2 hac hbc, fun _ _ _ hab hac => hm.unique.1 hab hac⟩
  values := hm.values.symm
  cells c d hcd := by
    obtain ⟨v, w, hv, hw, h⟩ := hm.cells d c hcd
    exact ⟨w, v, hw, hv, h.symm⟩

theorem Matching.trans (hm : Matching h a h' b R) (hm' : Matching h' b h'' e S) :
    Matching h a h'' e (Relation.Comp R S) where
  unique := by
    refine ⟨fun c d e => ?_, fun c d e => ?_⟩
    · rintro ⟨_, hcx, hxe⟩ ⟨_, hdy, hye⟩
      obtain rfl := hm'.unique.1 hxe hye
      exact hm.unique.1 hcx hdy
    · rintro ⟨_, hcx, hxd⟩ ⟨_, hcy, hye⟩
      obtain rfl := hm.unique.2 hcx hcy
      exact hm'.unique.2 hxd hye
  values := hm.values.trans hm'.values
  cells c e := by
    rintro ⟨d, hcd, hde⟩
    obtain ⟨u, v, hu, hv, h⟩ := hm.cells c d hcd
    obtain ⟨v', w, hv', hw, h'⟩ := hm'.cells d e hde
    obtain rfl := Option.some.inj (hv.symm.trans hv')
    exact ⟨u, w, hu, hw, h.trans h'⟩

/-! ### The pairs of a comparison -/

/-- Two cells are a pair. -/
def Paired (p : Pairing) (c d : CellId) : Prop := p.right? c = some d

/-- What a comparison that ends well does to the pairs: it keeps them, and the cells of every new
pair hold the same value up to the pairs at the end. -/
structure Extends (h h' : Heap) (p p' : Pairing) : Prop where
  keeps : ∀ c d, Paired p c d → Paired p' c d
  inverse : p.Inverse → p'.Inverse
  cells : ∀ c d, Paired p' c d → Paired p c d ∨ HoldSame h h' (Paired p') c d

theorem Extends.refl (h h' : Heap) (p : Pairing) : Extends h h' p p :=
  ⟨fun _ _ hcd => hcd, id, fun _ _ hcd => .inl hcd⟩

theorem Extends.trans (h₁ : Extends h h' p p') (h₂ : Extends h h' p' p'') :
    Extends h h' p p'' where
  keeps c d hcd := h₂.keeps c d (h₁.keeps c d hcd)
  inverse hp := h₂.inverse (h₁.inverse hp)
  cells c d hcd := by
    rcases h₂.cells c d hcd with hcd | hs
    · exact (h₁.cells c d hcd).imp_right fun hs => hs.mono h₂.keeps
    · exact .inr hs

theorem paired_insert (p : Pairing) (a b c d : Nat) :
    Paired (p.insert a b) c d ↔ if a = c then b = d else Paired p c d := by
  unfold Paired
  rw [Pairing.right?_insert]
  split
  · exact Option.some_inj
  · rfl

theorem paired_insert_of_paired {x y : CellId} (hc : p.right? c = none) (hxy : Paired p x y) :
    Paired (p.insert c d) x y := by
  rw [paired_insert, if_neg]
  · exact hxy
  · rintro rfl
    exact absurd hxy (by simp [Paired, hc])

/-- The pairs once two new cells and what they hold were compared. -/
theorem Extends.of_insert {v w : Value} (hc : p.right? c = none) (hd : p.left? d = none)
    (hv : h.load? c = some v) (hw : h'.load? d = some w) (hvw : v.SameUpTo (Paired p') w)
    (he : Extends h h' (p.insert c d) p') : Extends h h' p p' where
  keeps x y hxy := he.keeps x y (paired_insert_of_paired hc hxy)
  inverse hp := he.inverse (hp.insert hc hd)
  cells x y hxy := by
    rcases he.cells x y hxy with hpair | hs
    · rw [paired_insert] at hpair
      split at hpair
      · rename_i hcx
        subst hcx hpair
        exact .inr ⟨v, w, hv, hw, hvw⟩
      · exact .inl hpair
    · exact .inr hs

/-! ### What a comparison finds -/

variable {enter : CellId → CellId → Pairing → Option Pairing}

/-- Values that are found equal are the same up to the pairs, where this is so of cells. -/
theorem agree_sound (hf : ∀ c d p p', enter c d p = some p' →
      Extends h h' p p' ∧ Paired p' c d) (v w : Value) (p p' : Pairing)
    (e : agree enter v w p = some p') : Extends h h' p p' ∧ v.SameUpTo (Paired p') w := by
  revert p'
  apply @agree.induct enter
    (fun v w p => ∀ p', agree enter v w p = some p' →
      Extends h h' p p' ∧ v.SameUpTo (Paired p') w)
    (fun vs ws p => ∀ p', agreeAll enter vs ws p = some p' → Extends h h' p p' ∧
      vs.length = ws.length ∧ ∀ (k : Nat) (v w : Value), vs[k]? = some v → ws[k]? = some w →
        v.SameUpTo (Paired p') w)
  case case1 =>
    intro c d p p' e
    rw [agree] at e
    obtain ⟨he, hcd⟩ := hf c d p p' e
    exact ⟨he, .pointer hcd⟩
  case case2 =>
    intro vs ws p ih p' e
    rw [agree] at e
    obtain ⟨he, hn, hvw⟩ := ih p' e
    exact ⟨he, .struct hn hvw⟩
  case case3 =>
    intro vs ws p ih p' e
    rw [agree] at e
    obtain ⟨he, hn, hvw⟩ := ih p' e
    exact ⟨he, .array hn hvw⟩
  case case4 =>
    intro v s w p ih p' e
    rw [agree, if_pos rfl] at e
    obtain ⟨he, hvw⟩ := ih p' e
    exact ⟨he, .union s hvw⟩
  case case5 =>
    intro s v t w p hst p' e
    rw [agree, if_neg hst] at e
    nomatch e
  case case6 =>
    intro v w p h1 h2 h3 h4 hs p' e
    simp only [agree, hs, if_true] at e
    obtain rfl := Option.some.inj e
    exact ⟨.refl h h' p, Value.sameUpTo_of_sameLeaf hs⟩
  case case7 =>
    intro v w p h1 h2 h3 h4 hs p' e
    simp only [agree, hs] at e
    nomatch e
  case case8 =>
    intro p p' e
    rw [agreeAll] at e
    obtain rfl := Option.some.inj e
    exact ⟨.refl h h' p, rfl, fun k v w hv _ => by simp at hv⟩
  case case9 =>
    intro v vs w ws p q hq ih ih' p' e
    rw [agreeAll, hq] at e
    obtain ⟨he, hvw⟩ := ih q hq
    obtain ⟨he', hn, hvws⟩ := ih' p' e
    refine ⟨he.trans he', congrArg (· + 1) hn, fun k x y hx hy => ?_⟩
    cases k with
    | zero =>
      obtain rfl := Option.some.inj hx
      obtain rfl := Option.some.inj hy
      exact hvw.mono fun c d _ _ => he'.keeps c d
    | succ k => exact hvws k x y hx hy
  case case10 =>
    intro v vs w ws p hq _ p' e
    rw [agreeAll, hq] at e
    nomatch e
  case case11 =>
    intro vs ws p h1 h2 p' e
    simp only [agreeAll] at e
    nomatch e

/-- Cells that are found equal are a pair, and so they are once their values were compared. -/
theorem follow_sound (h h' : Heap) (n : Nat) (c d : CellId) (p p' : Pairing)
    (e : follow h h' n c d p = some p') : Extends h h' p p' ∧ Paired p' c d := by
  induction n generalizing c d p p' with
  | zero => nomatch e
  | succ n ih =>
    unfold Heap.follow at e
    split at e
    · rename_i d' hd'
      split at e
      · rename_i hd
        obtain rfl := Option.some.inj e
        exact ⟨.refl h h' p, hd ▸ hd'⟩
      · nomatch e
    · nomatch e
    · rename_i hc hd
      split at e
      · rename_i v w hv hw
        obtain ⟨he, hvw⟩ := agree_sound ih v w _ _ e
        refine ⟨.of_insert hc hd hv hw hvw he, he.keeps c d ?_⟩
        rw [paired_insert, if_pos rfl]
      · nomatch e

/-- A graph that is found equal is matched by the pairs. -/
theorem exists_matching (e : deepEq h a h' b = true) : ∃ R, Matching h a h' b R := by
  obtain ⟨p, e⟩ := Option.isSome_iff_exists.1 e
  obtain ⟨he, hab⟩ := agree_sound (follow_sound h h' _) a b {} p e
  have hinverse := he.inverse Pairing.inverse_empty
  refine ⟨Paired p, ⟨fun c d x hcx hdx => ?_, fun c x y hcx hcy => ?_⟩, hab, fun c d hcd => ?_⟩
  · exact Option.some.inj (((hinverse c x).1 hcx).symm.trans ((hinverse d x).1 hdx))
  · exact Option.some.inj (hcx.symm.trans hcy)
  · rcases he.cells c d hcd with hcd | hs
    · exact absurd hcd (by simp [Paired])
    · exact hs

/-! ### Cells that were not compared yet -/

/-- The number of cells that have no partner. -/
def unpaired (h : Heap) (p : Pairing) : Nat :=
  ((Finset.range h.cells.size).filter fun c => p.right? c = none).card

theorem unpaired_empty_le (h : Heap) : h.unpaired {} ≤ h.cells.size := by
  refine Nat.le_trans (Finset.card_filter_le _ _) ?_
  rw [Finset.card_range]

theorem unpaired_le (hk : ∀ c d, Paired p c d → Paired p' c d) :
    h.unpaired p' ≤ h.unpaired p := by
  refine Finset.card_le_card fun c hc => ?_
  rw [Finset.mem_filter] at hc ⊢
  refine ⟨hc.1, Option.eq_none_iff_forall_not_mem.2 fun d hd => ?_⟩
  exact absurd (hk c d hd) (by simp [Paired, hc.2])

theorem unpaired_insert (hc : c < h.cells.size) (hp : p.right? c = none) :
    h.unpaired (p.insert c d) < h.unpaired p := by
  refine Finset.card_lt_card (Finset.ssubset_iff_of_subset ?_ |>.2 ⟨c, ?_, ?_⟩)
  · intro x hx
    rw [Finset.mem_filter, Pairing.right?_insert] at hx
    rw [Finset.mem_filter]
    refine ⟨hx.1, ?_⟩
    by_cases hcx : c = x
    · exact absurd hx.2 (by simp [hcx])
    · simpa [hcx] using hx.2
  · exact Finset.mem_filter.2 ⟨Finset.mem_range.2 hc, hp⟩
  · simp [Pairing.right?_insert]

/-! ### Graphs that are matched -/

/-- A comparison ends well, and its pairs are pairs of `R`. -/
def EndsWithin (R : CellId → CellId → Prop) (p : Pairing) (result : Option Pairing) : Prop :=
  ∃ p', result = some p' ∧ (∀ c d, Paired p c d → Paired p' c d) ∧ p'.Inverse ∧
    ∀ c d, Paired p' c d → R c d

theorem agree_plain {v : Value} (hv : v.isPlain = true) (p : Pairing) :
    agree enter v v p = some p := by
  have h := Value.sameLeaf_self hv
  cases v with
  | pointer c => cases c <;> simp_all [agree, Value.isPlain]
  | _ => simp_all [agree, Value.isPlain]

/-- Lists of values that are the same up to `R` are found equal element by element. -/
theorem agreeAll_complete {vs ws : List Value} (hn : vs.length = ws.length)
    (hvw : ∀ (k : Nat) (v w : Value), vs[k]? = some v → ws[k]? = some w → ∀ p : Pairing,
      p.Inverse → (∀ c d, Paired p c d → R c d) → h.unpaired p < n →
        EndsWithin R p (agree enter v w p))
    (hp : p.Inverse) (hR : ∀ c d, Paired p c d → R c d) (hless : h.unpaired p < n) :
    EndsWithin R p (agreeAll enter vs ws p) := by
  induction vs generalizing ws p with
  | nil =>
    obtain rfl := List.eq_nil_of_length_eq_zero hn.symm
    exact ⟨p, rfl, fun _ _ => id, hp, hR⟩
  | cons v vs ih =>
    cases ws with
    | nil => nomatch hn
    | cons w ws =>
      obtain ⟨q, e, hkeeps, hq, hqR⟩ := hvw 0 v w rfl rfl p hp hR hless
      obtain ⟨p', e', hkeeps', hp', hpR'⟩ := ih (Nat.succ.inj hn)
        (fun k x y hx hy => hvw (k + 1) x y hx hy) hq hqR
        (Nat.lt_of_le_of_lt (unpaired_le hkeeps) hless)
      refine ⟨p', ?_, fun c d hcd => hkeeps' c d (hkeeps c d hcd), hp', hpR'⟩
      rw [agreeAll, e]
      exact e'

/-- Values that are the same up to `R` are found equal, where this is so of cells that are related
by `R`. -/
theorem agree_complete (hf : ∀ c d p, R c d → p.Inverse → (∀ c d, Paired p c d → R c d) →
      h.unpaired p < n → EndsWithin R p (enter c d p)) {v w : Value} (hvw : v.SameUpTo R w)
    (hp : p.Inverse) (hR : ∀ c d, Paired p c d → R c d) (hless : h.unpaired p < n) :
    EndsWithin R p (agree enter v w p) := by
  induction hvw generalizing p with
  | plain hv => exact ⟨p, agree_plain hv p, fun _ _ => id, hp, hR⟩
  | float hs => exact ⟨p, if_pos hs, fun _ _ => id, hp, hR⟩
  | double hs => exact ⟨p, if_pos hs, fun _ _ => id, hp, hR⟩
  | pointer hcd => exact hf _ _ p hcd hp hR hless
  | struct hn _ ih => exact agreeAll_complete hn (fun k v w hv hw p => ih k v w hv hw) hp hR hless
  | array hn _ ih => exact agreeAll_complete hn (fun k v w hv hw p => ih k v w hv hw) hp hR hless
  | union s _ ih =>
    rw [agree, if_pos rfl]
    exact ih hp hR hless

/-- Cells that a matching relates are found equal: a cell that is entered was not paired before, and
neither was its partner. -/
theorem follow_complete (hm : Matching h a h' b R) (hcd : R c d) (hp : p.Inverse)
    (hR : ∀ c d, Paired p c d → R c d) (hless : h.unpaired p < n) :
    EndsWithin R p (follow h h' n c d p) := by
  induction n generalizing c d p with
  | zero => exact absurd hless (Nat.not_lt_zero _)
  | succ n ih =>
    unfold Heap.follow
    cases hc : p.right? c with
    | some d' =>
      obtain rfl := hm.unique.2 hcd (hR c d' hc)
      exact ⟨p, if_pos rfl, fun _ _ => id, hp, hR⟩
    | none =>
      cases hd : p.left? d with
      | some c' =>
        have hcd' := (hp c' d).2 hd
        obtain rfl := hm.unique.1 hcd (hR c' d hcd')
        exact absurd hcd' (by simp [hc])
      | none =>
        obtain ⟨v, w, hv, hw, hvw⟩ := hm.cells c d hcd
        have hless' : h.unpaired (p.insert c d) < n := by
          have := unpaired_insert (d := d) (lt_of_load? hv) hc
          omega
        have hR' : ∀ x y, Paired (p.insert c d) x y → R x y := by
          intro x y hxy
          rw [paired_insert] at hxy
          split at hxy
          · rename_i hcx
            exact hcx ▸ hxy ▸ hcd
          · exact hR x y hxy
        obtain ⟨p', e, hkeeps, hp', hpR⟩ := agree_complete (fun c d p hcd hp hR hless =>
          ih hcd hp hR hless) hvw (hp.insert hc hd) hR' hless'
        refine ⟨p', ?_, fun x y hxy => hkeeps x y (paired_insert_of_paired hc hxy), hp', hpR⟩
        simp only [hv, hw]
        exact e

/-- Graphs that are matched are found equal. -/
theorem Matching.deepEq (hm : Matching h a h' b R) : deepEq h a h' b = true := by
  obtain ⟨p, e, -⟩ := agree_complete (fun c d p hcd hp hR hless =>
    follow_complete hm hcd hp hR hless) hm.values Pairing.inverse_empty
    (fun c d hcd => absurd hcd (by simp [Paired])) (Nat.lt_succ_of_le h.unpaired_empty_le)
  unfold Heap.deepEq
  rw [e]
  rfl

end Heap

end Ndr
