import Ndr.Proofs.Delivery

/-!
What the steps of an operation do to a pipe, whether they succeed or fail: the application is asked
for room, hands over a piece or takes one, and elements are counted. A pipe that is over, or that goes
the other way, refuses the operation before its application is asked for anything.
-/

namespace Ndr

namespace Pipe

variable {p q r : Pipe} {direction : Direction} {n : Nat} {piece : List Value}
  {counted counted' pulled pulled' pushed pushed' chunks : List (List Value)}

/-! ### Pieces -/

/-- The pipe `q` is `p` when its application handed over the pieces of `pulled` and took those of
`pushed`, and the elements of `counted` were counted. -/
structure Moved (counted pulled pushed : List (List Value)) (p q : Pipe) : Prop where
  application : q.application = p.application
  direction : q.direction = p.direction
  finished : q.finished = p.finished
  transferred : q.transferred = p.transferred + counted.flatten.length
  pulled : q.pulled = p.pulled ++ pulled
  pushed : q.pushed = p.pushed ++ pushed
  events : p.events <:+ q.events

theorem Moved.refl (p : Pipe) : Moved [] [] [] p p where
  application := rfl
  direction := rfl
  finished := rfl
  transferred := rfl
  pulled := (List.append_nil _).symm
  pushed := (List.append_nil _).symm
  events := List.suffix_rfl

theorem Moved.trans (h : Moved counted pulled pushed p q) (h' : Moved counted' pulled' pushed' q r) :
    Moved (counted ++ counted') (pulled ++ pulled') (pushed ++ pushed') p r where
  application := h'.application.trans h.application
  direction := h'.direction.trans h.direction
  finished := h'.finished.trans h.finished
  transferred := by
    rw [h'.transferred, h.transferred, List.flatten_append, List.length_append, Nat.add_assoc]
  pulled := by rw [h'.pulled, h.pulled, List.append_assoc]
  pushed := by rw [h'.pushed, h.pushed, List.append_assoc]
  events := h.events.trans h'.events

theorem moved_record (p : Pipe) (e : Event) :
    Moved [] e.pulled?.toList e.pushed?.toList p (p.record e) where
  application := rfl
  direction := rfl
  finished := rfl
  transferred := rfl
  pulled := pulled_record p e
  pushed := pushed_record p e
  events := List.suffix_cons _ _

theorem Moved.replacePending (h : Moved counted pulled pushed p q) (pending : List Value) :
    Moved counted pulled pushed p { q with pending } :=
  ⟨h.application, h.direction, h.finished, h.transferred, h.pulled, h.pushed, h.events⟩

theorem moved_advance (p : Pipe) (piece : List Value) :
    Moved [piece] [] [] p (p.advance piece.length) where
  application := rfl
  direction := rfl
  finished := rfl
  transferred := by simp [advance]
  pulled := (List.append_nil _).symm
  pushed := (List.append_nil _).symm
  events := List.suffix_rfl

theorem lands_ask (n : Nat) (p : Pipe) :
    Lands (fun _ q => Moved [] [] [] p q ∧ q.pending = p.pending) (fun _ _ => False) (ask n p) :=
  ⟨moved_record p (.asked n _), rfl⟩

theorem lands_pull (n : Nat) (p : Pipe) : Lands
    (fun piece q => Moved [] [piece] [] p q ∧ (piece ≠ [] → q.pending.length < p.pending.length))
    (fun _ q => ∃ broken, broken.length ≤ 1 ∧ Moved [] broken [] p q) (pull n p) := by
  cases hpull : pull n p with
  | ok piece q =>
    have hhands := handsOver_of_pull hpull
    unfold pull at hpull
    split at hpull
    · exact absurd hpull (by simp)
    · dsimp only at hpull
      split at hpull
      · exact absurd hpull (by simp)
      · obtain ⟨rfl, rfl⟩ := EStateM.Result.ok.inj hpull
        exact ⟨(moved_record p (.pulled n _)).replacePending _, hhands.pending⟩
  | error e q =>
    unfold pull at hpull
    split at hpull
    · obtain ⟨-, rfl⟩ := EStateM.Result.error.inj hpull
      exact ⟨[], Nat.zero_le _, moved_record p (.pullFailed n)⟩
    · dsimp only at hpull
      split at hpull
      · obtain ⟨-, rfl⟩ := EStateM.Result.error.inj hpull
        exact ⟨[_], Nat.le_refl _, (moved_record p (.pulled n _)).replacePending _⟩
      · exact absurd hpull (by simp)

theorem lands_push (piece : List Value) (p : Pipe) :
    Lands (fun _ q => Moved [] [] [piece] p q) (fun _ q => Moved [] [] [] p q) (push piece p) := by
  unfold push
  split
  · exact moved_record p (.pushFailed piece)
  · exact moved_record p (.pushed piece)

/-! ### Pipes that refuse -/

/-- No operation in this direction can use the pipe: it is over, or goes the other way. -/
def Blocked (direction : Direction) (p : Pipe) : Prop :=
  p.finished = true ∨ ∃ d, p.direction = some d ∧ d ≠ direction

end Pipe

/-- A pipe refuses to be used. -/
def Fault.IsRefusal (e : Fault) : Prop :=
  e = .pipeMisuse .completed ∨ e = .pipeMisuse .bothDirections

namespace Pipe

variable {p q r : Pipe} {direction : Direction} {chunks chunks' : List (List Value)}

/-- A pipe lets an operation in, or refuses and stays as it is. -/
theorem lands_enter (direction : Direction) (p : Pipe) :
    Lands (fun _ q => ¬p.Blocked direction ∧ q = p.toward direction)
      (fun e q => p.Blocked direction ∧ e.IsRefusal ∧ q = p) (enter direction p) := by
  unfold enter
  split
  · rename_i hfinished
    exact ⟨.inl hfinished, .inl rfl, rfl⟩
  · rename_i hfinished
    split
    · rename_i hdirection
      refine ⟨?_, rfl⟩
      rintro (hover | ⟨d, hd, hne⟩)
      · exact hfinished hover
      · rcases hdirection with h | h
        · exact absurd (hd.symm.trans h) (by simp)
        · exact hne (Option.some.inj (hd.symm.trans h))
    · rename_i hdirection
      obtain ⟨hnone, hother⟩ := not_or.1 hdirection
      obtain ⟨d, hd⟩ := Option.ne_none_iff_exists'.1 hnone
      exact ⟨.inr ⟨d, hd, fun h => hother (hd.trans (congrArg some h))⟩, .inr rfl, rfl⟩

theorem not_finished_of_not_blocked (h : ¬p.Blocked direction) : p.finished = false :=
  Bool.eq_false_iff.2 fun hp => h (.inl hp)

theorem direction_of_not_blocked (h : ¬p.Blocked direction) {d : Direction}
    (hd : p.direction = some d) : d = direction :=
  Decidable.byContradiction fun hne => h (.inr ⟨d, hd, hne⟩)

/-! ### Operations -/

/-- What an operation in a direction does to a pipe that lets it in: the elements of `chunks` go
through. The pipe is over when the last of them is empty. -/
structure Used (d : Direction) (chunks : List (List Value)) (p q : Pipe) : Prop where
  unblocked : ¬p.Blocked d
  application : q.application = p.application
  direction : q.direction = some d
  transferred : q.transferred = p.transferred + chunks.flatten.length
  finished : q.finished = true ↔ chunks.getLast? = some []
  events : p.events <:+ q.events
  /-- At most one chunk was handed over that did not go through. -/
  handedOver : d = .send → q.pushed = p.pushed ∧
    ∃ broken, broken.length ≤ 1 ∧ q.pulled = p.pulled ++ chunks ++ broken
  /-- The chunks are those that were taken. -/
  taken : d = .receive → q.pulled = p.pulled ∧ q.pushed = p.pushed ++ chunks

/-- What an operation in a direction does to a pipe, if it uses it. -/
def Passes (direction : Direction) (chunks : List (List Value)) (p q : Pipe) : Prop :=
  (chunks = [] ∧ q = p) ∨ Used direction chunks p q

theorem Passes.of_blocked (h : Passes direction chunks p q) (hp : p.Blocked direction) :
    chunks = [] ∧ q = p := h.resolve_right fun hused => hused.unblocked hp

end Pipe

end Ndr
