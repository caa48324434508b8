import Mathlib.Algebra.BigOperators.Group.List.Basic
import Mathlib.Algebra.GroupWithZero.Nat
import Ndr.Proofs.TypeVector.Alignment

/-!
How far a scan goes: every descriptor that it gives, nested ones included, takes at least one byte of
the vector, whatever counts stand there. The arms of a union that was read are all in the vector.
-/

namespace Ndr

mutual

/-- The descriptors of a type: itself, and those nested in it at every level. -/
def Descriptor.count : Descriptor → Nat
  | ⟨_, _, form⟩ => form.countNested + 1

def TypeForm.countNested : TypeForm → Nat
  | .nested _ _ fields => countAll fields
  | _ => 0

def countAll : List Descriptor → Nat
  | [] => 0
  | d :: ds => d.count + countAll ds

end

theorem Descriptor.count_pos (d : Descriptor) : 0 < d.count := by
  cases d
  exact Nat.succ_pos _

theorem countAll_eq (ds : List Descriptor) : countAll ds = (ds.map Descriptor.count).sum := by
  induction ds with
  | nil => rfl
  | cons d ds ih => rw [countAll, ih, List.map_cons, List.sum_cons]

namespace TypeVector

variable {tv : TypeVector} {α β : Type}

/-- Where a scan succeeds, it has gone on by as many bytes as `c` says of its result, and not out of
the vector. -/
def Spends (tv : TypeVector) (c : α → Nat) (x : Scan α) : Prop :=
  ∀ ⦃p a q⦄, x p = .ok a q → p + c a ≤ q ∧ q ≤ max p tv.size

namespace Spends

variable {c c' : α → Nat} {x : Scan α}

theorem mono (h : tv.Spends c x) (hc : ∀ a, c' a ≤ c a) : tv.Spends c' x := fun p a q e => by
  obtain ⟨h1, h2⟩ := h e
  have := hc a
  exact ⟨by omega, h2⟩

theorem pure {a : α} (h : c a = 0) : tv.Spends c (pure a) := fun p _ q e => by
  obtain ⟨rfl, rfl⟩ := pure_eq_ok.1 e
  rw [h]
  exact ⟨Nat.le_refl _, Nat.le_max_left _ _⟩

theorem throw (e : Fault) : tv.Spends c (throw e) := fun _ _ _ h => absurd h throw_ne_ok

/-- What is left to spend falls to the scan that follows. -/
theorem bind {d : β → Nat} {y : Scan β} {f : β → Scan α} (hy : tv.Spends d y)
    (hf : ∀ b, tv.Spends (fun a => c a - d b) (f b)) : tv.Spends c (y >>= f) := fun p a q e => by
  obtain ⟨b, r, h1, h2⟩ := bind_eq_ok.1 e
  obtain ⟨hpr, hr⟩ := hy h1
  obtain ⟨hrq, hq⟩ := hf b h2
  dsimp only at hrq
  omega

theorem ite {p : Prop} [Decidable p] {y : Scan α} (hx : tv.Spends c x) (hy : tv.Spends c y) :
    tv.Spends c (if p then x else y) := by
  split
  · exact hx
  · exact hy

theorem get : tv.Spends (fun _ => 0) (get : Scan Nat) := fun p _ q e => by
  obtain ⟨rfl, rfl⟩ := get_eq_ok.1 e
  exact ⟨Nat.le_refl _, Nat.le_max_left _ _⟩

theorem lift (x : Except Fault α) : tv.Spends (fun _ => 0) (liftM x : Scan α) := fun p _ q e => by
  obtain ⟨-, rfl⟩ := lift_eq_ok.1 e
  exact ⟨Nat.le_refl _, Nat.le_max_left _ _⟩

/-- A result takes no more bytes than the vector has. -/
theorem le_size (h : tv.Spends c x) {p : Nat} {a : α} {q : Nat} (e : x p = .ok a q) :
    c a ≤ tv.size := by
  obtain ⟨h1, h2⟩ := h e
  omega

end Spends

/-! ### Words and markers -/

variable {p q : Nat}

theorem getElem?_of_readByte {b : UInt8} (e : tv.readByte p = .ok b q) :
    tv.bytes[p]? = some b ∧ q = p + 1 := by
  unfold readByte at e
  obtain ⟨here, _, h1, e⟩ := bind_eq_ok.1 e
  obtain ⟨rfl, rfl⟩ := get_eq_ok.1 h1
  cases hb : tv.bytes[p]? with
  | none =>
    simp only [hb] at e
    exact absurd e throw_ne_ok
  | some b =>
    simp only [hb] at e
    obtain ⟨_, _, h2, e⟩ := bind_eq_ok.1 e
    obtain rfl := set_eq_ok.1 h2
    obtain ⟨rfl, rfl⟩ := pure_eq_ok.1 e
    exact ⟨rfl, rfl⟩

theorem readByte_end {b : UInt8} (e : tv.readByte p = .ok b q) : q = p + 1 ∧ q ≤ tv.size := by
  obtain ⟨hb, rfl⟩ := getElem?_of_readByte e
  exact ⟨rfl, (Array.getElem?_eq_some_iff.1 hb).1⟩

theorem skip_end {n : Nat} {u : Unit} (e : tv.skip n p = .ok u q) : q = p + n ∧ q ≤ tv.size := by
  unfold skip at e
  obtain ⟨here, _, h1, e⟩ := bind_eq_ok.1 e
  obtain ⟨rfl, rfl⟩ := get_eq_ok.1 h1
  obtain ⟨hn, e⟩ := check_eq_ok.1 e
  obtain rfl := set_eq_ok.1 e
  exact ⟨rfl, Nat.le_of_not_lt hn⟩

/-- A word takes its four bytes, and those that are skipped ahead of it. -/
theorem readWord_end {v : UInt32} (e : tv.readWord p = .ok v q) :
    q = p + padding p 4 + 4 ∧ q ≤ tv.size := by
  unfold readWord at e
  obtain ⟨_, r, h1, e⟩ := bind_eq_ok.1 e
  obtain rfl := modify_eq_ok.1 h1
  obtain ⟨here, _, h2, e⟩ := bind_eq_ok.1 e
  obtain ⟨rfl, rfl⟩ := get_eq_ok.1 h2
  unfold wordAt? at e
  by_cases hw : p + padding p 4 + 4 ≤ tv.bytes.size
  · simp only [if_pos hw] at e
    obtain ⟨_, _, h3, e⟩ := bind_eq_ok.1 e
    obtain rfl := set_eq_ok.1 h3
    obtain ⟨-, rfl⟩ := pure_eq_ok.1 e
    exact ⟨rfl, hw⟩
  · simp only [if_neg hw] at e
    exact absurd e throw_ne_ok

/-- A number ends where four divides. -/
theorem readNat_dvd {n q : Nat} (e : tv.readNat p = .ok n q) : 4 ∣ q := by
  obtain ⟨_, _, h1, e⟩ := bind_eq_ok.1 e
  obtain ⟨rfl, -⟩ := readWord_end h1
  obtain ⟨-, rfl⟩ := pure_eq_ok.1 e
  have := @dvd_add_padding p 4 (by decide)
  omega

theorem spends_readByte : tv.Spends (fun _ => 1) tv.readByte := fun _ _ _ e => by
  obtain ⟨rfl, hq⟩ := readByte_end e
  exact ⟨Nat.le_refl _, Nat.le_trans hq (Nat.le_max_right _ _)⟩

theorem spends_skip (n : Nat) : tv.Spends (fun _ => n) (tv.skip n) := fun _ _ _ e => by
  obtain ⟨rfl, hq⟩ := skip_end e
  exact ⟨Nat.le_refl _, Nat.le_trans hq (Nat.le_max_right _ _)⟩

theorem spends_readWord : tv.Spends (fun _ => 4) tv.readWord := fun p _ _ e => by
  obtain ⟨rfl, hq⟩ := readWord_end e
  refine ⟨?_, Nat.le_trans hq (Nat.le_max_right _ _)⟩
  show p + 4 ≤ p + padding p 4 + 4
  omega

theorem spends_readNat : tv.Spends (fun _ => 4) tv.readNat :=
  spends_readWord.bind fun _ => .pure rfl

theorem spends_readOpcode : tv.Spends (fun _ => 1) tv.readOpcode := by
  refine Spends.get.bind fun here => spends_readByte.bind fun b => ?_
  cases Opcode.ofByte? b with
  | none => exact .throw _
  | some op => exact .pure rfl

theorem spends_expectEnd : tv.Spends (fun _ => 1) tv.expectEnd := by
  refine Spends.get.bind fun here => spends_readOpcode.bind fun op => ?_
  cases op with
  | endOfList => exact .pure rfl
  | _ => exact .throw _

/-! ### Descriptors -/

/-- What reading a descriptor takes: its bytes, or the end of the list. -/
def cost (d : Option Descriptor) : Nat := d.elim 1 Descriptor.count

theorem spends_readFields {next : Scan (Option Descriptor)} (hnext : tv.Spends cost next)
    (nested : Bool) (fuel : Nat) (before : List Descriptor) :
    tv.Spends (fun ds => countAll ds - countAll before) (tv.readFields next nested fuel before) := by
  induction fuel generalizing before with
  | zero => exact Spends.get.bind fun _ => .throw _
  | succ fuel ih =>
    have hdone : countAll before.reverse - countAll before = 0 := by
      rw [countAll_eq, countAll_eq, List.map_reverse, List.sum_reverse, Nat.sub_self]
    intro p ds q e
    unfold readFields at e
    obtain ⟨here, _, h1, e⟩ := bind_eq_ok.1 e
    obtain ⟨rfl, rfl⟩ := get_eq_ok.1 h1
    cases hb : tv.bytes[p]? with
    | none =>
      simp only [hb] at e
      exact absurd e throw_ne_ok
    | some b =>
      simp only [hb] at e
      have hlt : p < tv.size := (Array.getElem?_eq_some_iff.1 hb).1
      split at e
      · -- the end of a nested struct
        split at e
        · obtain ⟨_, _, h2, e⟩ := bind_eq_ok.1 e
          obtain rfl := set_eq_ok.1 h2
          obtain ⟨rfl, rfl⟩ := pure_eq_ok.1 e
          dsimp only
          omega
        · exact absurd e throw_ne_ok
      · refine Spends.bind (c := fun ds => countAll ds - countAll before) hnext (fun d => ?_) e
        cases d with
        | none => exact .ite (.throw _) (.pure (by simp only [hdone, Nat.zero_sub]))
        | some d =>
          refine (ih (d :: before)).mono fun ds => ?_
          simp only [countAll, cost, Option.elim]
          omega

theorem spends_readDescriptorFrom (fuel start : Nat) (m : Modifiers) :
    tv.Spends cost (tv.readDescriptorFrom fuel start m) := by
  induction fuel generalizing start m with
  | zero => exact Spends.get.bind fun _ => .throw _
  | succ fuel ih =>
    have hagain : ∀ n start m, tv.Spends (fun d => cost d - n) (tv.readDescriptorFrom fuel start m) :=
      fun n start m => (ih start m).mono fun _ => Nat.sub_le _ _
    refine Spends.get.bind fun here => spends_readOpcode.bind fun op => ?_
    cases op with
    | endOfList => exact .ite (.pure rfl) (.throw _)
    | mark mark => exact hagain 1 _ _
    | range =>
      refine spends_readWord.bind fun _ => spends_readWord.bind fun _ => ?_
      exact (ih _ _).mono fun _ => by omega
    | freeRep =>
      refine spends_readNat.bind fun _ => ?_
      exact (ih _ _).mono fun _ => by omega
    | beginNested =>
      refine spends_readByte.bind fun align => (Spends.lift _).bind fun align =>
        spends_readNat.bind fun layout => ?_
      refine (spends_readFields (Spends.get.bind fun here => ih here {}) true _ []).bind fun fields => ?_
      refine .pure ?_
      simp only [cost, Option.elim, Descriptor.count, TypeForm.countNested, countAll]
      omega
    | array kind =>
      exact spends_readByte.bind fun _ => spends_readByte.bind fun _ =>
        spends_readNat.bind fun _ => .pure rfl
    | struct | encapsulatedUnion | pointer | pipe =>
      exact spends_readByte.bind fun _ => spends_readNat.bind fun _ => .pure rfl
    | switchedUnion | conversion =>
      exact spends_readByte.bind fun _ => spends_readNat.bind fun _ =>
        spends_readNat.bind fun _ => .pure rfl
    | scalar | ignore | context | align | deletedNodes | void | unhosted => exact .pure rfl
    | noArm | endNested => exact .throw _

theorem spends_readDescriptor : tv.Spends cost tv.readDescriptor :=
  Spends.get.bind fun here => spends_readDescriptorFrom _ here {}

/-! ### What stands at an offset -/

theorem le_size_of_readAt {c : α → Nat} {x : Scan α} (h : tv.Spends c x) {offset : Nat} {a : α}
    (e : readAt offset x = .ok a) : c a ≤ tv.size := by
  unfold readAt at e
  split at e
  · rename_i hx
    obtain rfl := Except.ok.inj e
    exact h.le_size hx
  · nomatch e

/-- A descriptor is followed by the end of its list. -/
theorem spends_closed {c : α → Nat} {d : Descriptor} {a : α} (h : c a ≤ d.count) :
    tv.Spends (fun a => c a - cost (some d)) (do tv.expectEnd; return a) :=
  spends_expectEnd.bind fun _ => .pure (by simp only [cost, Option.elim]; omega)

theorem spends_repeatM {c : α → Nat} {x : Scan α} (h : tv.Spends c x) (n : Nat) :
    tv.Spends (fun as => (as.map c).sum) (repeatM n x) := by
  induction n with
  | zero => exact .pure rfl
  | succ n ih =>
    rw [repeatM_succ]
    refine h.bind fun a => fun p as q e => ?_
    obtain ⟨rest, hrest, rfl⟩ := map_eq_ok.1 e
    have hall := ih hrest
    simp only [List.map_cons, List.sum_cons] at hall ⊢
    omega

theorem spends_readParameter : tv.Spends (fun p => p.descriptor.count) tv.readParameter := by
  refine spends_readNat.bind fun index => Spends.get.bind fun here =>
    spends_readDescriptor.bind fun found => ?_
  cases found with
  | none => exact .throw _
  | some d =>
    have hclosed : tv.Spends (fun p : Parameter => p.descriptor.count - cost (some d))
        (do tv.expectEnd; return ⟨index, d⟩) := spends_closed (Nat.le_refl _)
    exact hclosed.mono fun _ => by omega

/-- A stream has no more descriptors than the vector has bytes. -/
theorem count_stream {offset : Nat} {d : Descriptor} (e : tv.stream offset = .ok d) :
    d.count ≤ tv.size := by
  refine le_size_of_readAt (spends_readDescriptor.bind fun found => ?_) e
  cases found with
  | none => exact .throw _
  | some d => exact spends_closed (Nat.le_refl _)

/-- Nor do the parameters of a list have more, whatever their number is said to be. -/
theorem count_parameters {offset : Nat} {list : List Parameter}
    (e : tv.parameters offset = .ok list) :
    countAll (list.map Parameter.descriptor) ≤ tv.size := by
  have h := le_size_of_readAt (spends_readNat.bind fun n =>
    (spends_repeatM spends_readParameter n).mono fun _ => Nat.sub_le _ _) e
  rw [countAll_eq, List.map_map]
  exact h

/-- Nor do the fields of a struct. -/
theorem count_structDefinition {offset : Nat} {s : StructDefinition}
    (e : tv.structDefinition offset = .ok s) : countAll s.fields ≤ tv.size := by
  refine le_size_of_readAt (c := fun s : StructDefinition => countAll s.fields) ?_ e
  refine spends_readByte.bind fun align => spends_readByte.bind fun props =>
    (spends_skip 2).bind fun _ => spends_readNat.bind fun layout => spends_readNat.bind fun trailing =>
    (spends_readFields spends_readDescriptor false _ []).bind fun fields =>
    (Spends.lift _).bind fun align => .pure ?_
  simp only [countAll]
  omega

/-! ### Arms -/

theorem readByte_of_lt (h : p < tv.size) : ∃ b, tv.readByte p = .ok b (p + 1) := by
  obtain ⟨b, hb⟩ : ∃ b, tv.bytes[p]? = some b := ⟨_, Array.getElem?_eq_getElem h⟩
  refine ⟨b, ?_⟩
  unfold readByte
  refine bind_eq_ok.2 ⟨_, _, rfl, ?_⟩
  rw [hb]
  rfl

theorem skip_of_le {n : Nat} (h : p + n ≤ tv.size) : tv.skip n p = .ok () (p + n) := by
  unfold skip
  refine bind_eq_ok.2 ⟨_, _, rfl, ?_⟩
  rw [if_neg (Nat.not_lt.2 h)]
  rfl

theorem readWord_of_le (h : p + padding p 4 + 4 ≤ tv.size) :
    ∃ v, tv.readWord p = .ok v (p + padding p 4 + 4) := by
  obtain ⟨v, hword⟩ : ∃ v, wordAt? tv.bytes tv.order (p + padding p 4) 4 = some v := ⟨_, if_pos h⟩
  refine ⟨.ofNat v, ?_⟩
  unfold readWord
  refine bind_eq_ok.2 ⟨(), p + padding p 4, rfl, bind_eq_ok.2 ⟨_, _, rfl, ?_⟩⟩
  rw [hword]
  rfl

theorem readWord_of_dvd (hp : 4 ∣ p) (h : p + 4 ≤ tv.size) :
    ∃ v, tv.readWord p = .ok v (p + 4) := by
  have hpadding : p + padding p 4 = p := by rw [padding_of_dvd hp, Nat.add_zero]
  have hword := readWord_of_le (hpadding.symm ▸ h)
  rwa [hpadding] at hword

theorem readOpcode_of_lt (h : p < tv.size) : (∃ op, tv.readOpcode p = .ok op (p + 1)) ∨
    ∃ b, tv.readOpcode p = .error (.unknownOpcode b p) (p + 1) := by
  obtain ⟨b, hb⟩ := readByte_of_lt h
  unfold readOpcode
  rw [bind_of_ok (x := get) rfl, bind_of_ok hb]
  cases Opcode.ofByte? b with
  | none => exact .inr ⟨b, rfl⟩
  | some op => exact .inl ⟨op, rfl⟩

/-- The record of an arm that fits the vector is read, unless its opcode is none. -/
theorem armAt_of_le (hp : 4 ∣ p) (h : p + armWidth ≤ tv.size) :
    (∃ arm, tv.armAt p = .ok arm) ∨ ∃ b, tv.armAt p = .error (.unknownOpcode b (p + 4)) := by
  have hw : armWidth = 16 := rfl
  obtain ⟨label, hlabel⟩ : ∃ v, tv.readWord p = .ok v (p + 4) := readWord_of_dvd hp (by omega)
  unfold armAt readAt EStateM.run
  rw [bind_of_ok hlabel]
  rcases readOpcode_of_lt (show p + 4 < tv.size by omega) with ⟨op, hop⟩ | ⟨b, hb⟩
  · obtain ⟨props, hprops⟩ := readByte_of_lt (show p + 5 < tv.size by omega)
    have hskip : tv.skip 2 (p + 6) = .ok () (p + 8) := skip_of_le (by omega)
    have hword : ∀ q, 4 ∣ q → q ≤ p + 12 → ∃ v, tv.readWord q = .ok v (q + 4) := fun q hq hle =>
      readWord_of_dvd hq (by omega)
    obtain ⟨stream, hstream⟩ := hword (p + 8) (by omega) (by omega)
    have hnat : tv.readNat (p + 8) = .ok stream.toNat (p + 12) := bind_of_ok hstream _
    obtain ⟨rest, hrest⟩ := hword (p + 12) (by omega) (by omega)
    rw [bind_of_ok hop, bind_of_ok hprops, bind_of_ok hskip, bind_of_ok hnat, bind_of_ok hrest]
    exact .inl ⟨_, rfl⟩
  · rw [bind_of_error hb]
    exact .inr ⟨b, rfl⟩

/-- The arms of a union, and its default, stand in the vector. -/
theorem arms_of_unionDefinition {offset : Nat} {u : UnionDefinition}
    (h : tv.unionDefinition offset = .ok u) :
    4 ∣ u.armsAt ∧ u.armsAt + (u.armCount + 1) * armWidth ≤ tv.size := by
  unfold unionDefinition readAt at h
  split at h
  · rename_i e
    obtain rfl := Except.ok.inj h
    obtain ⟨op, _, -, e⟩ := bind_eq_ok.1 e
    cases op with
    | scalar switch =>
      obtain ⟨-, e⟩ := check_eq_ok.1 e
      obtain ⟨flags, _, -, e⟩ := bind_eq_ok.1 e
      obtain ⟨align, _, -, e⟩ := bind_eq_ok.1 e
      obtain ⟨_, _, -, e⟩ := bind_eq_ok.1 e
      obtain ⟨count, q, h1, e⟩ := bind_eq_ok.1 e
      obtain ⟨_, _, h2, e⟩ := bind_eq_ok.1 e
      obtain ⟨rfl, rfl⟩ := get_eq_ok.1 h2
      obtain ⟨hfits, e⟩ := check_eq_ok.1 e
      obtain ⟨_, _, -, e⟩ := bind_eq_ok.1 e
      obtain ⟨rfl, -⟩ := pure_eq_ok.1 e
      exact ⟨readNat_dvd h1, Nat.le_of_not_lt hfits⟩
    | _ => exact absurd e throw_ne_ok
  · nomatch h
/-- A case is looked for until the record of an arm is not read. -/
theorem findCase_eq_error {kind : Scalar} {switch : Int} {n : Nat} {e : Fault}
    (h : tv.findCase kind switch n p = .error e) :
    ∃ k < n, tv.armAt (p + k * armWidth) = .error e := by
  induction n generalizing p with
  | zero => nomatch h
  | succ n ih =>
    unfold findCase at h
    cases harm : tv.armAt p with
    | error f =>
      rw [harm] at h
      obtain rfl : f = e := Except.error.inj h
      exact ⟨0, Nat.zero_lt_succ n, by rwa [Nat.zero_mul, Nat.add_zero]⟩
    | ok arm =>
      rw [harm] at h
      change (if _ then _ else _) = _ at h
      split at h
      · nomatch h
      · obtain ⟨k, hk, harm⟩ := ih h
        refine ⟨k + 1, Nat.succ_lt_succ hk, ?_⟩
        rwa [Nat.succ_mul, Nat.add_comm (k * armWidth), ← Nat.add_assoc]

theorem findArm_eq_error {u : UnionDefinition} {switch : Int} {e : Fault}
    (h : tv.findArm u switch = .error e) :
    ∃ k ≤ u.armCount, tv.armAt (u.armsAt + k * armWidth) = .error e := by
  unfold findArm at h
  cases hcase : tv.findCase u.switch switch u.armCount u.armsAt with
  | error f =>
    rw [hcase] at h
    obtain rfl : f = e := Except.error.inj h
    obtain ⟨k, hk, harm⟩ := findCase_eq_error hcase
    exact ⟨k, Nat.le_of_lt hk, harm⟩
  | ok found =>
    simp only [hcase] at h
    cases found with
    | some arm => nomatch h
    | none =>
      refine ⟨u.armCount, Nat.le_refl _, ?_⟩
      cases harm : tv.armAt (u.armsAt + u.armCount * armWidth) with
      | error f =>
        simp only [harm] at h
        exact congrArg _ (Except.error.inj h)
      | ok arm =>
        simp only [harm] at h
        nomatch h

/-- Of a union that was read, only an arm whose opcode is none is not found. -/
theorem findArm_fault {offset : Nat} {u : UnionDefinition} (hu : tv.unionDefinition offset = .ok u)
    {switch : Int} {e : Fault} (h : tv.findArm u switch = .error e) :
    ∃ b q, e = .unknownOpcode b q := by
  obtain ⟨haligned, hfits⟩ := arms_of_unionDefinition hu
  obtain ⟨k, hk, harm⟩ := findArm_eq_error h
  have hk : k * armWidth + armWidth ≤ (u.armCount + 1) * armWidth := by
    rw [← Nat.succ_mul]
    exact Nat.mul_le_mul_right _ (Nat.succ_le_succ hk)
  have hdvd : 4 ∣ u.armsAt + k * armWidth :=
    Nat.dvd_add haligned (Nat.dvd_mul_left_of_dvd (by decide) k)
  have hend : u.armsAt + k * armWidth + armWidth ≤ tv.size := by omega
  rcases armAt_of_le hdvd hend with ⟨arm, hok⟩ | ⟨b, hb⟩
  · rw [hok] at harm
    nomatch harm
  · rw [hb] at harm
    exact ⟨b, _, (Except.error.inj harm).symm⟩

end TypeVector

end Ndr
