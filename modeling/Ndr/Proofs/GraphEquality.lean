import Ndr.Proofs.Isomorphism

/-!
Equality of graphs decides whether they are isomorphic. It ends although graphs may have cycles: no more
cells are entered one within another than there are, so that a bound on them makes no difference.
-/

namespace Ndr

namespace Heap

/-! ### Isomorphic graphs -/

/-- The cells that a value leads to, through the cells on the way. -/
abbrev Reached (h : Heap) (a : Value) : Type := { c : CellId // h.Reaches [a] c }

/-- The cell `d` is the one that stands for `c`. -/
def Named {h h' : Heap} {a b : Value} (e : h.Reached a ≃ h'.Reached b) (c d : CellId) : Prop :=
  ∃ hc : h.Reaches [a] c, (e ⟨c, hc⟩).val = d

/-- Two graphs are isomorphic: their cells stand for each other one by one, so that the values are
the same up to the cells that their pointers lead to, and so are the values of any two cells that
stand for each other. -/
def Isomorphic (h : Heap) (a : Value) (h' : Heap) (b : Value) : Prop :=
  ∃ e : h.Reached a ≃ h'.Reached b,
    a.SameUpTo (Named e) b ∧ ∀ c : h.Reached a, HoldSame h h' (Named e) c.val (e c).val

variable {h h' : Heap} {a b : Value} {R : CellId → CellId → Prop} {c d : CellId}

theorem Isomorphic.exists_matching (hi : Isomorphic h a h' b) : ∃ R, Matching h a h' b R := by
  obtain ⟨e, hab, hcells⟩ := hi
  refine ⟨Named e, ⟨fun c d x => ?_, fun c x y => ?_⟩, hab, ?_⟩
  · rintro ⟨hc, hcx⟩ ⟨hd, hdx⟩
    exact congrArg Subtype.val (e.injective (Subtype.ext (hcx.trans hdx.symm)))
  · rintro ⟨hc, rfl⟩ ⟨-, rfl⟩
    rfl
  · rintro c d ⟨hc, rfl⟩
    exact hcells ⟨c, hc⟩

/-- Every cell that is reached on one side is related to one that is reached on the other. -/
theorem Matching.exists_reached (hm : Matching h a h' b R) (hc : h.Reaches [a] c) :
    ∃ d, h'.Reaches [b] d ∧ R c d := by
  induction hc with
  | root hv hc =>
    obtain rfl := List.mem_singleton.1 hv
    obtain ⟨d, hd, hcd⟩ := hm.values.leads hc
    exact ⟨d, .root (List.mem_singleton_self b) hd, hcd⟩
  | step _ hv hd ih =>
    obtain ⟨x, hx, hcx⟩ := ih
    obtain ⟨v', w, hv', hw, hvw⟩ := hm.cells _ x hcx
    obtain rfl := Option.some.inj (hv.symm.trans hv')
    obtain ⟨y, hy, hdy⟩ := hvw.leads hd
    exact ⟨y, .step hx hw hy, hdy⟩

theorem Matching.isomorphic (hm : Matching h a h' b R) : Isomorphic h a h' b := by
  choose f hf using fun c : h.Reached a => hm.exists_reached c.2
  choose g hg using fun d : h'.Reached b => hm.symm.exists_reached d.2
  let e : h.Reached a ≃ h'.Reached b :=
    { toFun := fun c => ⟨f c, (hf c).1⟩
      invFun := fun d => ⟨g d, (hg d).1⟩
      left_inv := fun c => Subtype.ext (hm.unique.1 (hg _).2 (hf c).2)
      right_inv := fun d => Subtype.ext (hm.unique.2 (hf _).2 (hg d).2) }
  have hnamed : ∀ {c d}, h.Reaches [a] c → R c d → Named e c d := fun hc hcd =>
    ⟨hc, hm.unique.2 (hf ⟨_, hc⟩).2 hcd⟩
  refine ⟨e, hm.values.mono fun c d hc _ hcd => ?_, fun c => ?_⟩
  · exact hnamed (.root (List.mem_singleton_self a) hc) hcd
  · obtain ⟨v, w, hv, hw, hvw⟩ := hm.cells c.val _ (hf c).2
    exact ⟨v, w, hv, hw, hvw.mono fun x y hx _ hxy => hnamed (.step c.2 hv hx) hxy⟩

theorem isomorphic_iff : Isomorphic h a h' b ↔ ∃ R, Matching h a h' b R :=
  ⟨Isomorphic.exists_matching, fun ⟨_, hm⟩ => hm.isomorphic⟩

theorem deepEq_iff_exists_matching : deepEq h a h' b = true ↔ ∃ R, Matching h a h' b R :=
  ⟨exists_matching, fun ⟨_, hm⟩ => hm.deepEq⟩

/-- Where all cells are live and no float is a NaN, a graph is matched by itself. -/
theorem matching_self (hlive : ∀ c, h.Reaches [a] c → h.isLive c = true) (hn : h.NoNaN [a]) :
    Matching h a h a fun c d => h.Reaches [a] c ∧ c = d where
  unique := by
    refine ⟨fun c d x => ?_, fun c x y => ?_⟩
    · rintro ⟨-, rfl⟩ ⟨-, rfl⟩
      rfl
    · rintro ⟨-, rfl⟩ ⟨-, rfl⟩
      rfl
  values := by
    have ha := hn.1 a (List.mem_singleton_self a)
    exact (Value.sameUpTo_self ha).mono fun c d hc _ he =>
      ⟨.root (List.mem_singleton_self a) hc, he⟩
  cells c d := by
    rintro ⟨hc, rfl⟩
    obtain ⟨v, hv⟩ := isLive_iff.1 (hlive c hc)
    exact ⟨v, v, hv, hv, (Value.sameUpTo_self (hn.2 c v hc hv)).mono fun x y hx _ he =>
      ⟨.step hc hv hx, he⟩⟩

/-! ### The end of a comparison -/

mutual

/-- The cells that stand for each other after two values agree, where the comparison ends; pointers are
followed by `follow`, which need not end. -/
def agree? (follow : CellId → CellId → Pairing → Option (Option Pairing)) :
    Value → Value → Pairing → Option (Option Pairing)
  | .pointer (some a), .pointer (some b), p => follow a b p
  | .struct as, .struct bs, p => agreeAll? follow as bs p
  | .array as, .array bs, p => agreeAll? follow as bs p
  | .union s a, .union t b, p => if s = t then agree? follow a b p else some none
  | a, b, p => some (if a.sameLeaf b then some p else none)

/-- The same for two lists, element by element. -/
def agreeAll? (follow : CellId → CellId → Pairing → Option (Option Pairing)) :
    List Value → List Value → Pairing → Option (Option Pairing)
  | [], [], p => some (some p)
  | a :: as, b :: bs, p => do
    match ← agree? follow a b p with
    | some p' => agreeAll? follow as bs p'
    | none => some none
  | _, _, _ => some none

end

/-- The pairs after two cells agree, where no more than `n` cells are entered one within another. There
is no answer where more are to be entered. -/
def follow? (h h' : Heap) : Nat → CellId → CellId → Pairing → Option (Option Pairing)
  | 0, _, _, _ => none
  | n + 1, a, b, p =>
    match p.right? a, p.left? b with
    | some b', _ => some (if b' = b then some p else none)
    | none, some _ => some none
    | none, none =>
      match h.load? a, h'.load? b with
      | some v, some w => agree? (follow? h h' n) v w (p.insert a b)
      | _, _ => some none

/-- Whether two graphs are the same, where no more than `n` cells are entered one within another. -/
def equal? (n : Nat) (h : Heap) (a : Value) (h' : Heap) (b : Value) : Option Bool :=
  (agree? (follow? h h' n) a b {}).map Option.isSome

variable {p : Pairing} {m n : Nat}

/-- Two values are compared to the end where this is so of the cells that they lead to. -/
theorem agree?_eq {enter? : CellId → CellId → Pairing → Option (Option Pairing)}
    {enter : CellId → CellId → Pairing → Option Pairing}
    (hf : ∀ c d p, h.unpaired p < n → enter? c d p = some (enter c d p))
    (hsound : ∀ c d p p', enter c d p = some p' → Extends h h' p p' ∧ Paired p' c d)
    (v w : Value) (p : Pairing) (hless : h.unpaired p < n) :
    agree? enter? v w p = some (agree enter v w p) := by
  revert hless
  apply @agree.induct enter
    (fun v w p => h.unpaired p < n → agree? enter? v w p = some (agree enter v w p))
    (fun vs ws p => h.unpaired p < n → agreeAll? enter? vs ws p = some (agreeAll enter vs ws p))
  case case1 =>
    intro c d p hless
    rw [agree?, agree, hf c d p hless]
  case case2 | case3 =>
    intro vs ws p ih hless
    rw [agree?, agree, ih hless]
  case case4 =>
    intro v s w p ih hless
    rw [agree?, agree, if_pos rfl, if_pos rfl, ih hless]
  case case5 =>
    intro s v t w p hst _
    rw [agree?, agree, if_neg hst, if_neg hst]
  case case6 | case7 =>
    intro v w p h1 h2 h3 h4 _ _
    simp only [agree]
    rw [agree?]
    all_goals assumption
  case case8 =>
    intro p _
    rw [agreeAll?, agreeAll]
  case case9 =>
    intro v vs w ws p q hq ih ih' hless
    have hkeeps := (agree_sound hsound v w p q hq).1.keeps
    rw [agreeAll?, agreeAll, ih hless, hq]
    exact ih' (Nat.lt_of_le_of_lt (unpaired_le hkeeps) hless)
  case case10 =>
    intro v vs w ws p hq ih hless
    rw [agreeAll?, agreeAll, ih hless, hq]
    rfl
  case case11 =>
    intro vs ws p h1 h2 _
    simp only [agreeAll]
    rw [agreeAll?]
    all_goals assumption

/-- A cell that is entered has a partner from then on, so no bound is reached. -/
theorem follow?_eq (hn : h.unpaired p < n) (hm : h.unpaired p < m) :
    follow? h h' n c d p = some (follow h h' m c d p) := by
  induction n generalizing c d p m with
  | zero => exact absurd hn (Nat.not_lt_zero _)
  | succ n ih =>
    obtain ⟨m, rfl⟩ := Nat.exists_eq_succ_of_ne_zero (Nat.ne_zero_of_lt hm)
    unfold follow? Heap.follow
    cases hc : p.right? c with
    | some d' => rfl
    | none =>
      cases hd : p.left? d with
      | some c' => rfl
      | none =>
        cases hv : h.load? c with
        | none => rfl
        | some v =>
          cases hw : h'.load? d with
          | none => rfl
          | some w =>
            have hless := unpaired_insert (d := d) (lt_of_load? hv) hc
            refine agree?_eq ?_ (follow_sound h h' m) v w _ (Nat.lt_succ_self _)
            intro x y q hq
            exact ih (by omega) (by omega)

/-- **A comparison ends**: no more cells are entered one within another than there are. -/
theorem equal?_eq_deepEq (h : Heap) (a : Value) (h' : Heap) (b : Value) (hn : h.cells.size < n) :
    equal? n h a h' b = some (deepEq h a h' b) := by
  have hle := h.unpaired_empty_le
  have e : agree? (follow? h h' n) a b {} = some (agree (follow h h' (h.cells.size + 1)) a b {}) := by
    refine agree?_eq ?_ (follow_sound h h' _) a b {} (Nat.lt_succ_of_le hle)
    intro c d p hp
    exact follow?_eq (by omega) hp
  rw [equal?, e]
  rfl

/-! ### Equality as isomorphism -/

/-- **Equality decides isomorphism.** The comparison of two graphs ends, with any bound above the number of
the cells, and tells whether they are isomorphic. So equality is symmetric and transitive; it is reflexive
where all cells are live and no float is a NaN. -/
theorem deepEq_decides_isomorphism (h : Heap) (a : Value) (h' : Heap) (b : Value) (h'' : Heap)
    (e : Value) :
    (∀ n, h.cells.size < n → equal? n h a h' b = some (deepEq h a h' b)) ∧
    (deepEq h a h' b = true ↔ Isomorphic h a h' b) ∧
    ((∀ c, h.Reaches [a] c → h.isLive c = true) → h.NoNaN [a] → deepEq h a h a = true) ∧
    deepEq h a h' b = deepEq h' b h a ∧
    (deepEq h a h' b = true → deepEq h' b h'' e = true → deepEq h a h'' e = true) := by
  refine ⟨fun n hn => equal?_eq_deepEq h a h' b hn, ?_, fun hlive hn => (matching_self hlive hn).deepEq, ?_, ?_⟩
  · rw [deepEq_iff_exists_matching, isomorphic_iff]
  · rw [Bool.eq_iff_iff, deepEq_iff_exists_matching, deepEq_iff_exists_matching]
    exact ⟨fun ⟨_, hm⟩ => ⟨_, hm.symm⟩, fun ⟨_, hm⟩ => ⟨_, hm.symm⟩⟩
  · simp only [deepEq_iff_exists_matching]
    rintro ⟨R, hm⟩ ⟨S, hm'⟩
    exact ⟨_, hm.trans hm'⟩

/-- Two cells that point to each other. -/
def twoRing (first second : Int32) : Heap :=
  (Heap.append {} (.struct [.long first, .pointer (some 1)])).append
    (.struct [.long second, .pointer (some 0)])

theorem reaches_twoRing {first second : Int32} {c k : CellId} (hk : k = 0 ∨ k = 1)
    (hc : (twoRing first second).Reaches [.pointer (some k)] c) : c = 0 ∨ c = 1 := by
  have hleads : ∀ (n : Int32) (x y : CellId),
      (Value.struct [.long n, .pointer (some x)]).Leads y → y = x := by
    intro n x y hy
    obtain ⟨⟩ | ⟨hv, hy⟩ := hy
    simp only [List.mem_cons, List.not_mem_nil, or_false] at hv
    rcases hv with rfl | rfl
    · nomatch hy
    · cases hy
      rfl
  induction hc with
  | root hv hc =>
    obtain rfl := List.mem_singleton.1 hv
    cases hc
    exact hk
  | step _ hv hd ih =>
    rcases ih with rfl | rfl
    · obtain rfl := Option.some.inj hv
      exact .inr (hleads _ _ _ hd)
    · obtain rfl := Option.some.inj hv
      exact .inl (hleads _ _ _ hd)

theorem twoRing_isomorphic :
    (∀ c, (twoRing 1 2).Reaches [.pointer (some 0)] c → (twoRing 1 2).isLive c = true) ∧
    (twoRing 1 2).NoNaN [.pointer (some 0)] ∧
    deepEq (twoRing 1 2) (.pointer (some 0)) (twoRing 1 2) (.pointer (some 0)) = true ∧
    Isomorphic (twoRing 1 2) (.pointer (some 0)) (twoRing 2 1) (.pointer (some 1)) ∧
    deepEq (twoRing 1 2) (.pointer (some 0)) (twoRing 2 1) (.pointer (some 1)) = true ∧
    equal? 3 (twoRing 1 2) (.pointer (some 0)) (twoRing 2 1) (.pointer (some 1)) = some true := by
  have hreached : ∀ c, (twoRing 1 2).Reaches [.pointer (some 0)] c → c = 0 ∨ c = 1 :=
    fun c => reaches_twoRing (.inl rfl)
  have hlive : ∀ c, (twoRing 1 2).Reaches [.pointer (some 0)] c →
      (twoRing 1 2).isLive c = true := by
    intro c hc
    rcases hreached c hc with rfl | rfl <;> rfl
  have hn : (twoRing 1 2).NoNaN [.pointer (some 0)] := by
    refine ⟨fun v hv => List.mem_singleton.1 hv ▸ rfl, fun c v hc hv => ?_⟩
    rcases hreached c hc with rfl | rfl
    · exact Option.some.inj hv ▸ rfl
    · exact Option.some.inj hv ▸ rfl
  obtain ⟨hends, hiff, hself, -, htrans⟩ := deepEq_decides_isomorphism (twoRing 1 2)
    (.pointer (some 0)) (twoRing 2 1) (.pointer (some 1)) (twoRing 2 1) (.pointer (some 1))
  have hequal : deepEq (twoRing 1 2) (.pointer (some 0)) (twoRing 2 1) (.pointer (some 1)) = true := rfl
  refine ⟨hlive, hn, hself hlive hn, hiff.1 hequal, htrans hequal rfl, ?_⟩
  rw [hends 3 (by decide), hequal]

-- Two pointers to one cell are not two pointers to cells that are equal.
example : deepEq (.append {} (.long 7)) (.struct [.pointer (some 0), .pointer (some 0)])
    ((Heap.append {} (.long 7)).append (.long 7))
    (.struct [.pointer (some 0), .pointer (some 1)]) = false := by
  rfl

end Heap

end Ndr
