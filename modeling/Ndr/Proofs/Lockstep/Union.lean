import Ndr.Proofs.Lockstep.Steps
import Ndr.Proofs.TypeVector.Alignment
import Ndr.Unmarshal.Union

/-!
Unions in lock-step: the discriminant, and the arm that it selects on both sides.
-/

namespace Ndr

/-! ### Discriminants -/

/-- The value that stands for an integer holds it. Only two integers are those of a boolean. -/
theorem Scalar.toInt?_of_ofInt? {kind : Scalar} {n : Int} {v : Value} (hk : kind.isIntegral)
    (hn : FitsInt64 n) (hb : kind = .boolean → n = 0 ∨ n = 1) (h : kind.ofInt? n = some v) :
    v.toInt? = some n := by
  obtain ⟨h1, h2⟩ := hn
  unfold ofInt? at h
  split at h
  · rename_i ha
    obtain rfl := Option.some.inj h
    cases kind with
    | boolean =>
      rcases hb rfl with rfl | rfl <;> rfl
    | float | double => exact absurd hk (by decide)
    | byte | char | usmall =>
      simp only [admits, Bool.and_eq_true, decide_eq_true_eq] at ha
      simp only [Value.toInt?, UInt8.toNat_ofNat', Option.some.injEq]
      omega
    | ushort =>
      simp only [admits, Bool.and_eq_true, decide_eq_true_eq] at ha
      simp only [Value.toInt?, UInt16.toNat_ofNat', Option.some.injEq]
      omega
    | ulong | errorStatus =>
      simp only [admits, Bool.and_eq_true, decide_eq_true_eq] at ha
      simp only [Value.toInt?, UInt32.toNat_ofNat', Option.some.injEq]
      omega
    | small =>
      simp only [admits, Bool.and_eq_true, decide_eq_true_eq] at ha
      exact congrArg some (Int8.toInt_ofInt_of_le ha.1 ha.2)
    | short =>
      simp only [admits, Bool.and_eq_true, decide_eq_true_eq] at ha
      exact congrArg some (Int16.toInt_ofInt_of_le ha.1 ha.2)
    | long | enum | v1Enum =>
      simp only [admits, Bool.and_eq_true, decide_eq_true_eq] at ha
      exact congrArg some (Int32.toInt_ofInt_of_le ha.1 ha.2)
    | hyper | uhyper => exact congrArg some (Int64.toInt_ofInt_of_le h1 h2)
  · exact absurd h (by simp)

namespace TypeVector

theorem switch_of_unionDefinition {tv : TypeVector} {offset : Nat} {u : UnionDefinition}
    (e : tv.unionDefinition offset = .ok u) : u.switch.isIntegral := by
  refine readAt_of_gives (P := fun u : UnionDefinition => u.switch.isIntegral = true)
    ((gives_true _).bind fun op _ => ?_) e
  cases op with
  | scalar switch =>
    cases hs : switch.isIntegral with
    | false =>
      simp only [hs, Bool.not_false, if_true]
      exact Keeps.bind (P := fun _ => False) (.throw _) fun _ h => h.elim
    | true =>
      simp only [hs, Bool.not_true, Bool.false_eq_true, if_false]
      refine (gives_true _).bind fun _ _ => (gives_true _).bind fun _ _ =>
        (gives_true _).bind fun _ _ => (gives_true _).bind fun _ _ => (gives_true _).bind fun _ _ =>
        .check ?_
      exact (gives_true _).bind fun _ _ => .pure hs
  | _ => exact .throw _

end TypeVector

/-- The stream of an arm, where it has any. -/
def Arm.stream? (arm : Arm) : Option Nat :=
  match arm.body with
  | .empty | .absent => none
  | .stream offset => some offset

theorem Arm.stream?_eq_some {arm : Arm} {offset : Nat} :
    arm.stream? = some offset ↔ arm.body = .stream offset := by
  unfold stream?
  cases arm.body <;> simp

namespace Lockstep

/-- What is asked of the value of an arm: it is as `P` asks where the arm has a type, and void
where no arm has been found, or an empty one. -/
def ArmHolds (env : Marshal.Env) (P : Descriptor → Value → Frame → Prop) (F : Frame)
    (found : Option Arm) (v : Value) : Prop :=
  match found.bind Arm.stream? with
  | none => v = .void
  | some offset => ∀ e, env.vector.stream offset = .ok e → P e v F

/-- What is asked of a union by its definition: a boolean switch is one of two values, and the arm
is as its type asks. -/
def UnionHolds (env : Marshal.Env) (P : Descriptor → Value → Frame → Prop) (F : Frame)
    (definition : Nat) (v : Value) : Prop :=
  ∀ u switch arm, env.vector.unionDefinition definition = .ok u → v = .union switch arm →
    (u.switch = .boolean → switch.toInt = 0 ∨ switch.toInt = 1) ∧
      ∀ found, env.vector.findArm u switch.toInt = .ok found → ArmHolds env P F found arm

section

variable {env : Marshal.Env} {T : Terms} {N : Naming} {own : ScopeId → Prop} {G : List Frame}
  {F : Frame} {P : Descriptor → Value → Frame → Prop} {walk : Marshal.Walk}
  {walk' : Unmarshal.Walk} {x : Site Scope} {y : Site ScopeId} {v : Value} {u : UnionDefinition}
  {switch : Int} (side : Side) (previous : NodeTable)

/-- A switch field that was compared in writing agrees with the discriminant in reading. -/
theorem silent_checkSwitch {field : Nat} (hm : Meets G F x y) (hread : F.readable field)
    (hlt : field < 2 ^ 32) (h : Marshal.checkSwitch (some field) switch x.scope = .ok ()) :
    Silent env T N own G (Unmarshal.checkBound (.ofSwitch field) switch y.scope)
      fun _ => True := by
  have hk : (Bound.ofSwitch field).field = field := UInt32.toNat_ofNat_of_lt' hlt
  have hearly : (Bound.ofSwitch field).hasFlag BoundFlag.early = false := by
    simp [Bound.hasFlag, Bound.ofSwitch]
  refine silent_checkBound hm.frame fun _ => ⟨hearly, by rwa [hk], ?_⟩
  rw [hk, hm.scope]
  unfold Marshal.checkSwitch at h
  cases hv : x.scope.get? field with
  | none => simp [hv] at h
  | some v =>
    refine ⟨v, rfl, ?_⟩
    simp only [hv] at h
    split at h
    · rename_i hswitch
      exact congrArg _ hswitch
    · exact absurd h (by simp)

/-- The arm that is selected is read back. -/
theorem locked_putArm (hw : LockedWalks env T N P walk walk') (hm : Meets G F x y)
    (h : ∀ found, env.vector.findArm u switch = .ok found → ArmHolds env P F found v) :
    Locked env T N (fun _ => False) G (Marshal.putArm env walk u switch v x)
      (Unmarshal.getArm (env.receiver side previous) walk' u switch y) fun _ w => N.Copy v w := by
  unfold Marshal.putArm Unmarshal.getArm
  refine .both (fun found => ?_) fun found hfound => ?_
  · cases found with
    | none => exact .ite (.throw _) (.pure _)
    | some arm =>
      dsimp only
      cases arm.body with
      | empty | absent => exact .pure _
      | stream offset => exact .bind (.lift _) fun _ => hw.grows _ _ _
  have harm := h found hfound
  cases found with
  | none =>
    obtain rfl : v = .void := harm
    cases u.optional with
    | false => exact .throw _
    | true => exact .pure .void
  | some arm =>
    unfold ArmHolds at harm
    cases hbody : arm.body with
    | empty | absent =>
      simp only [Option.bind_some, Arm.stream?, hbody] at harm
      subst harm
      simp only [hbody]
      exact .pure .void
    | stream offset =>
      simp only [Option.bind_some, Arm.stream?, hbody] at harm ⊢
      exact .both (fun _ => hw.grows _ _ _) fun e he => hw.reads (harm e he) hm

theorem Naming.Copy.union {switch : Int64} {v w : Value} (h : N.Copy v w) :
    N.Copy (.union switch v) (.union switch w) := by
  refine ⟨?_, ?_⟩
  · rw [Value.rename, h.eq]
  · rintro c (_ | _ | _ | hc)
    exact h.knows c hc

/-- A union is read with the arm that its discriminant selects. -/
theorem locked_putUnion (hw : LockedWalks env T N P walk walk') (hm : Meets G F x y)
    {definition : Nat} {field : Option Nat}
    (hfield : ∀ k, field = some k → F.readable k ∧ k < 2 ^ 32)
    (h : UnionHolds env P F definition v) :
    Locked env T N (fun _ => False) G (Marshal.putUnion env walk definition field v x)
      (Unmarshal.getUnion (env.receiver side previous) walk' definition field y)
      fun _ w => N.Copy v w := by
  unfold Marshal.putUnion Unmarshal.getUnion
  cases v with
  | union switch arm =>
    have hput : ∀ u w, Marshal.Grows (do
        Marshal.put (Writer.putScalar env.representation u.switch w)
        Marshal.put (Writer.align u.align)
        Marshal.putArm env walk u switch.toInt arm x.inside) := fun u _ =>
      .bind (.put (puts_putScalar _ _ _)) fun _ => .bind (.put (puts_align _)) fun _ =>
        (Marshal.composes_grows _).putArm hw.grows _ _ _ _
    dsimp only
    refine .both (fun u => .bind (.lift _) fun _ => .bind (.lift _) fun _ => hput u _) fun u hu => ?_
    obtain ⟨hboolean, harm⟩ := h u switch arm hu rfl
    refine .lift (fun _ => .bind (.lift _) fun _ => hput u _) fun ⟨⟩ hswitch =>
      .lift (hput u) fun w hword => ?_
    have hrest : Locked env T N (fun _ => False) G (do
        Marshal.put (Writer.align u.align)
        Marshal.putArm env walk u switch.toInt arm x.inside) (do
        Unmarshal.fetch (Reader.align u.align)
        let arm ← Unmarshal.getArm (env.receiver side previous) walk' u switch.toInt y.inside
        return .union (Int64.ofInt switch.toInt) arm) fun _ w => N.Copy (.union switch arm) w := by
      refine .bind (.wire (mirrored_align _))
        (fun _ => (Marshal.composes_grows _).putArm hw.grows _ _ _ _) fun _ _ _ => ?_
      rw [Int64.ofInt_toInt]
      exact (locked_putArm side previous hw hm.inside harm).behind fun _ _ hcopy => .pure hcopy.union
    refine .bind (.wire (mirrored_putScalar _ _ _)) (fun _ => hrest.grows) ?_
    rintro _ w' ⟨rfl, n, hn⟩
    have hint : w'.toInt? = some switch.toInt := by
      unfold Marshal.discriminant at hword
      split at hword
      · rename_i z hz
        obtain rfl := Except.ok.inj hword
        exact Scalar.toInt?_of_ofInt? (TypeVector.switch_of_unionDefinition hu)
          ⟨switch.le_toInt, switch.toInt_lt⟩ hboolean hz
      · exact absurd hword (by simp)
    simp only [hint]
    cases field with
    | none => exact hrest
    | some k =>
      obtain ⟨hread, hlt⟩ := hfield k rfl
      exact .silent (silent_checkSwitch hm hread hlt hswitch) hrest.grows fun _ _ => hrest
  | _ => exact .lift (fun _ => .throw _) fun _ _ => .throw _

end

end Lockstep

end Ndr
