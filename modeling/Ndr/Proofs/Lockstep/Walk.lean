import Ndr.Machine
import Ndr.Proofs.Lockstep.Struct

/-!
Walks in lock-step: one level of a walk, and the values that have no parts.
-/

namespace Ndr.Lockstep

section

variable {env : Marshal.Env} {T : Terms} {N : Naming} {own : ScopeId → Prop}
  {P L : Descriptor → Value → Frame → Prop} {G : List Frame} {F : Frame} {x : Site Scope}
  {y : Site ScopeId} {side : Side} {previous : NodeTable}

/-! ### Levels -/

/-- What was written with no trace in the message changes nothing for the reader. -/
theorem Follows.of_quiet {s t : Marshal.State} {u : Unmarshal.State} (h : Follows env T N G s u)
    (hwriter : t.writer = s.writer) (hnodes : t.nodes = s.nodes) (hdeferred : t.deferred = s.deferred) :
    Follows env T N G t u where
  position := hwriter ▸ h.position
  limit := h.limit
  size := hnodes ▸ h.size
  live := h.live
  nodes := hnodes ▸ h.nodes
  consistent := h.consistent
  reached := hnodes ▸ h.reached
  scopes := h.scopes
  partly := h.partly
  late := h.late
  deferred := by
    rw [hdeferred, hnodes]
    exact h.deferred
  deleted := h.deleted

/-- What only writing does behind a value, and leaves no trace in the message. -/
theorem Locked.andThen {α β γ : Type} {X : Marshalling α} {Y : Unmarshalling β}
    {Z : Marshalling γ} {Q : α → β → Prop} {R : γ → β → Prop} (h : Locked env T N own G X Y Q)
    (hZ : ∀ {s a t}, Z s = .ok a t →
      t.writer = s.writer ∧ t.nodes = s.nodes ∧ t.deferred = s.deferred)
    (hR : ∀ a b c, Q a b → R c b) : Locked env T N own G (do let _ ← X; Z) Y R where
  grows := h.grows.bind fun _ => .quiet fun e => hZ e
  reads {s c t} hs e hN G' u bytes tail hG hw hu hr := by
    obtain ⟨a, s1, h1, h2⟩ := bind_eq_ok.1 e
    obtain ⟨hwriter, hnodes, hdeferred⟩ := hZ h2
    rw [hnodes] at hN
    rw [hwriter] at hw
    obtain ⟨b, u1, G1, e1, r1, f1, c1, q1⟩ := h.reads hs h1 hN hG hw hu hr
    exact ⟨b, u1, G1, e1, r1, f1.of_quiet hwriter hnodes hdeferred, c1, hR a b c q1⟩

/-- Where there is no room nothing is written, and so nothing is to be read. -/
theorem lockedWalks_zero {walk : Unmarshal.Walk} :
    LockedWalks env T N P (Marshal.walk env 0) walk where
  grows := Marshal.grows_walk 0
  reads _ _ := .throw _

/-- A level of a walk reads what it has written where each of its forms does. -/
theorem lockedWalks_succ {room room' : Nat}
    (h : ∀ {d v F G x y}, P d v F → Meets G F x y → Locked env T N (fun _ => False) G
      (Marshal.putForm env (Marshal.walk env room) d v x)
      (Unmarshal.getForm (env.receiver side previous)
        (Unmarshal.walk (env.receiver side previous) room') d y) fun _ w => N.Copy v w) :
    LockedWalks env T N P (Marshal.walk env (room + 1))
      (Unmarshal.walk (env.receiver side previous) (room' + 1)) where
  grows := Marshal.grows_walk _
  reads {d v F G x y} hP hm := by
    refine (h hP hm).andThen (fun {s a t} e => ?_) fun _ _ _ hcopy => hcopy
    cases hroutine : d.modifiers.freeRep with
    | some routine =>
      simp only [hroutine] at e
      obtain ⟨_, s1, h1, e1⟩ := bind_eq_ok.1 e
      obtain ⟨-, rfl⟩ := lift_eq_ok.1 h1
      obtain rfl := modify_eq_ok.1 e1
      exact ⟨rfl, rfl, rfl⟩
    | none =>
      simp only [hroutine] at e
      obtain ⟨-, rfl⟩ := pure_eq_ok.1 e
      exact ⟨rfl, rfl, rfl⟩

/-! ### Values without parts -/

theorem checkRange_of_none {kind : Scalar} {m : Modifiers} {v : Value}
    (h : m.range = none) :
    Unmarshal.checkRange kind m v = .ok () := by
  unfold Unmarshal.checkRange Scalar.range?
  rw [h]
  cases v.toInt? <;> rfl

/-- A scalar that lies in its range is read back. -/
theorem locked_scalar {kind : Scalar} {m : Modifiers} {v : Value}
    (hv : Unmarshal.checkRange kind m v = .ok ()) :
    Locked env T N own G (Marshal.put (Writer.putScalar env.representation kind v))
      (Unmarshal.getScalar (env.receiver side previous) kind m) fun _ w => N.Copy v w := by
  have h : Locked env T N own G
      (Marshal.put (Writer.putScalar env.representation kind v) >>= pure)
      (Unmarshal.getScalar (env.receiver side previous) kind m) fun _ w => N.Copy v w := by
    refine .bind (.wire (mirrored_putScalar env.representation kind v)) (fun _ => .pure _) ?_
    rintro _ w ⟨rfl, n, hn⟩
    refine .right hv (.pure (.of_word? hn))
  rwa [bind_pure] at h

/-- A marker is read back where the host holds nothing for it. -/
theorem locked_align (boundary : Nat) :
    Locked env T N own G (Marshal.put (Writer.align boundary)) (do
      Unmarshal.fetch (Reader.align boundary)
      return Value.void) fun _ w => N.Copy .void w := by
  have h : Locked env T N own G (Marshal.put (Writer.align boundary) >>= pure) (do
      Unmarshal.fetch (Reader.align boundary)
      return Value.void) fun _ w => N.Copy .void w :=
    .bind (.wire (mirrored_align boundary)) (fun _ => .pure _) fun _ _ _ => .pure .void
  rwa [bind_pure] at h

/-! ### Fields -/

/-- What is asked of the fields one by one, the last of them apart. -/
theorem fieldsHold_of_split {layout index : Nat} {slots : List Value} {ds : List Descriptor}
    (hfield : ∀ k f v, (ds.filter Descriptor.isField)[k]? = some f →
      Marshal.slotValue env layout slots (index + k) = .ok v →
      (k + 1 < (ds.filter Descriptor.isField).length → P f v F) ∧
        (k + 1 = (ds.filter Descriptor.isField).length → L f v F))
    (hmarker : ∀ d ∈ ds, d.isField = false → P d .void F) :
    FieldsHold env P L layout slots F index ds := by
  induction ds generalizing index with
  | nil => trivial
  | cons d ds ih =>
    unfold FieldsHold
    by_cases hd : d.isField
    · rw [if_pos hd]
      rw [List.filter_cons_of_pos hd] at hfield
      refine ⟨fun v hv => ?_, ih (fun k f v hf hv => ?_) fun e he => ?_⟩
      · obtain ⟨hahead, hlast⟩ := hfield 0 d v rfl hv
        have hany : ds.any Descriptor.isField ↔ 0 < (ds.filter Descriptor.isField).length := by
          simp [List.length_pos_iff_exists_mem, List.mem_filter]
        rw [List.length_cons] at hahead hlast
        split
        · rename_i h
          exact hahead (Nat.succ_lt_succ (hany.1 h))
        · rename_i h
          exact hlast (congrArg Nat.succ (Nat.eq_zero_of_not_pos (mt hany.2 h)).symm)
      · have h := hfield (k + 1) f v hf (by rwa [← Nat.add_assoc, Nat.add_right_comm])
        rwa [List.length_cons, Nat.add_lt_add_iff_right, Nat.add_right_cancel_iff] at h
      · exact hmarker e (List.mem_cons_of_mem _ he)
    · rw [if_neg hd]
      rw [List.filter_cons_of_neg hd] at hfield
      refine ⟨hmarker d List.mem_cons_self (by simpa using hd), ih hfield fun e he => ?_⟩
      exact hmarker e (List.mem_cons_of_mem _ he)

theorem fieldsHold_of_forall {layout index : Nat} {slots : List Value} {ds : List Descriptor}
    (hfield : ∀ k f v, (ds.filter Descriptor.isField)[k]? = some f →
      Marshal.slotValue env layout slots (index + k) = .ok v → P f v F)
    (hmarker : ∀ d ∈ ds, d.isField = false → P d .void F) :
    FieldsHold env P P layout slots F index ds :=
  fieldsHold_of_split (fun k f v hf hv => ⟨fun _ => hfield k f v hf hv, fun _ => hfield k f v hf hv⟩)
    hmarker

end

end Ndr.Lockstep
