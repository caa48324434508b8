import Ndr.Machine
import Ndr.Proofs.Lockstep.Union
import Ndr.Value.Equality

/-!
The discriminants of unions: which switch a reader takes for the one that was written, and which arm
it selects. A boolean travels as 0 or 1, so a switch beyond these is read as 1 where its arm was
written; every other type of switch is read as it was written.
-/

namespace Ndr

/-- The switch that is read for one that was written. -/
def Scalar.readSwitch (kind : Scalar) (n : Int) : Int :=
  if kind = .boolean ∧ n ≠ 0 then 1 else n

theorem Scalar.readSwitch_eq {kind : Scalar} {n : Int} (h : kind = .boolean → n = 0 ∨ n = 1) :
    kind.readSwitch n = n := by
  unfold readSwitch
  split
  · rename_i hb
    exact ((h hb.1).resolve_left hb.2).symm
  · rfl

theorem Scalar.toInt?_readSwitch {kind : Scalar} {n : Int} {v : Value} (hk : kind.isIntegral)
    (hn : FitsInt64 n) (h : kind.ofInt? n = some v) : v.toInt? = some (kind.readSwitch n) := by
  by_cases hb : kind = .boolean
  · subst hb
    obtain rfl : Value.boolean (n != 0) = v := Option.some.inj h
    by_cases h0 : n = 0 <;> simp [readSwitch, Value.toInt?, h0]
  · rw [readSwitch_eq fun h => absurd h hb]
    exact toInt?_of_ofInt? hk hn (fun h => absurd h hb) h

namespace Marshal

variable {env : Env} {walk : Walk} {definition : Nat} {field : Option Nat} {switch : Int64}
  {arm : Value} {site : Site Scope} {s t : State} {a : Unit}

/-- **The arm of a union on both sides.** A union is written with the arm that its switch selects, or
with none where it is optional. Where the message is read, the discriminant gives the same switch,
and selects the same arm, but for a boolean switch beyond 0 and 1, for which it gives 1. -/
theorem putUnion_switch (hw : GrowsAll walk) (hs : Ready s)
    (e : putUnion env walk definition field (.union switch arm) site s = .ok a t) :
    ∃ u found, env.vector.unionDefinition definition = .ok u ∧
      env.vector.findArm u switch.toInt = .ok found ∧ (found = none → u.optional = true) ∧
      ((u.switch = .boolean → switch.toInt = 0 ∨ switch.toInt = 1) →
        env.vector.findArm u (u.switch.readSwitch switch.toInt) = .ok found) ∧
      ∃ bytes rest, Writer.Wrote s.writer t.writer (bytes ++ rest) ∧
        ∀ {r : Reader} {tail : List UInt8}, r.position = s.writer.position →
          r.rest = bytes ++ tail → ∃ v r', Reader.getScalar env.representation u.switch r = .ok v r' ∧
            r'.rest = tail ∧ v.toInt? = some (u.switch.readSwitch switch.toInt) := by
  unfold putUnion at e
  obtain ⟨u, s1, h1, e⟩ := bind_eq_ok.1 e
  obtain ⟨hu, rfl⟩ := lift_eq_ok.1 h1
  obtain ⟨_, s2, h2, e⟩ := bind_eq_ok.1 e
  obtain ⟨-, rfl⟩ := lift_eq_ok.1 h2
  obtain ⟨v, s3, h3, e⟩ := bind_eq_ok.1 e
  obtain ⟨hv, rfl⟩ := lift_eq_ok.1 h3
  obtain ⟨_, s4, h4, e⟩ := bind_eq_ok.1 e
  obtain ⟨_, s5, h5, harm⟩ := bind_eq_ok.1 e
  obtain ⟨w, hput, rfl⟩ := onPart_eq_ok.1 h4
  -- the discriminant is read where it was written
  obtain ⟨bytes, hwrote, hread⟩ :=
    (Lockstep.mirrored_putScalar env.representation u.switch v).mirrors hs.bufferSize hput
  have hint : v.toInt? = some (u.switch.readSwitch switch.toInt) := by
    unfold discriminant at hv
    split at hv
    · rename_i z hz
      obtain rfl := Except.ok.inj hv
      exact Scalar.toInt?_readSwitch (TypeVector.switch_of_unionDefinition hu)
        ⟨switch.le_toInt, switch.toInt_lt⟩ hz
    · exact absurd hv (by simp)
  -- what follows only adds to the message
  obtain ⟨g4, -⟩ := Grows.put (puts_putScalar _ _ _) hs h4
  obtain ⟨g5, -⟩ := Grows.put (puts_align _) g4.ready h5
  obtain ⟨g6, -⟩ := (composes_grows env).putArm hw _ _ _ _ g5.ready harm
  obtain ⟨rest, hrest⟩ := (g5.trans g6).wrote
  obtain ⟨found, s6, h6, harm⟩ := bind_eq_ok.1 harm
  obtain ⟨hfound, rfl⟩ := lift_eq_ok.1 h6
  refine ⟨u, found, hu, hfound, fun hnone => ?_, fun hb => ?_, bytes, rest, hwrote.trans hrest,
    fun hp hr => ?_⟩
  · subst hnone
    cases ho : u.optional with
    | true => rfl
    | false =>
      simp only [ho] at harm
      exact absurd harm throw_ne_ok
  · rw [Scalar.readSwitch_eq hb]
    exact hfound
  · obtain ⟨v', r', hget, htook, rfl, -⟩ := hread hp hr
    exact ⟨v', r', hget, htook.rest, hint⟩

end Marshal

/-! ### A boolean switch of 2 -/

/-- A vector whose only parameter list, at 76, has a union with a boolean switch and two arms, a
long for 1 and a long for 2. -/
def booleanUnionVector : TypeVector where
  bytes := #[8, 0, 10, 0, 1, 255, 255, 255, 0, 0, 0, 0, 9, 254, 255, 255, 9, 254, 255, 255,
    1, 0, 4, 255, 2, 0, 0, 0, 1, 0, 0, 0, 9, 2, 255, 255, 12, 0, 0, 0, 0, 0, 0, 0, 2, 0, 0, 0,
    9, 2, 255, 255, 16, 0, 0, 0, 0, 0, 0, 0, 0, 0, 0, 0, 26, 0, 255, 255, 0, 0, 0, 0,
    0, 0, 0, 0, 1, 0, 0, 0, 0, 0, 0, 0, 24, 2, 255, 255, 20, 0, 0, 0, 254]
  order := .little
  minor := 10

/-- The arm for 2 is written behind a 1, and read as the arm for 1. -/
theorem boolean_switch_lost :
    let m : Machine := { interface := { vector := booleanUnionVector } }
    let o := m.marshal {} 76 [.union 2 (.long 5)] .reliable
    o.result = .ok 8 ∧ o.transport.message = [1, 0, 0, 0, 5, 0, 0, 0] ∧
      (m.unmarshal {} 76 [.void] (.ofBytes o.transport.message)).result
        = .ok [.union 1 (.long 5)] := by
  have hr : (Machine.marshal { interface := { vector := booleanUnionVector } } {} 76
      [.union 2 (.long 5)] .reliable).result = .ok 8 := by decide +kernel
  have hm : (Machine.marshal { interface := { vector := booleanUnionVector } } {} 76
      [.union 2 (.long 5)] .reliable).transport.message = [1, 0, 0, 0, 5, 0, 0, 0] := by
    decide +kernel
  have hu : (Machine.unmarshal { interface := { vector := booleanUnionVector } } {} 76 [.void]
      (.ofBytes [1, 0, 0, 0, 5, 0, 0, 0])).result = .ok [.union 1 (.long 5)] := by decide +kernel
  exact ⟨hr, hm, hm ▸ hu⟩

end Ndr
