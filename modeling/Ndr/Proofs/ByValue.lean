import Ndr.Proofs.Marshal.Faults
import Ndr.Proofs.Marshal.Traversal
import Ndr.Proofs.TypeVector.Containment
import Ndr.Proofs.Unmarshal.Traversal
import Ndr.Unmarshal.Zero

/-!
What goes down the types that a type contains comes to an end with them: the zero of a type, and the
walks of writing and reading as far as they follow no pointer.
-/

namespace Ndr

namespace Unmarshal

variable {env : Env} {n : Nat} {d : Descriptor}

/-! ### Zeros -/

theorem dry_constantTotal (dims : List Dimension) (total : Nat) : Dry (constantTotal dims total) := by
  induction dims generalizing total with
  | nil => simp [constantTotal]
  | cons dim dims ih => simp [constantTotal, constantExtent, dry_extentOf, ih]

section

variable {zero : Descriptor → Except Fault Value} {fields : List Descriptor}

theorem dry_zeroStruct (h : ∀ e ∈ fields, Dry (zero e)) (layout : Nat) :
    Dry (zeroStruct env zero layout fields) := by
  have hfields : ∀ (ds : List Descriptor) (index : Nat) (slots : Array Value),
      (∀ e ∈ ds, Dry (zero e)) → Dry (zeroFields env zero layout index ds slots) := by
    intro ds
    induction ds with
    | nil => simp [zeroFields]
    | cons d ds ih =>
      intro index slots h
      obtain ⟨hd, hds⟩ := List.forall_mem_cons.1 h
      simp [zeroFields, Layout.dry_slot, hd, ih _ _ hds]
  simp [zeroStruct, Layout.dry_slotCount, hfields _ _ _ fun e he => h e (List.mem_filter.1 he).1]

end

/-- **The zero of a type is found within its levels**, unless something on the way is missing or too
large. -/
theorem dry_zeroFrom (h : env.vector.Levels n d) : Dry (zeroFrom env n d) := by
  induction n generalizing d with
  | zero => cases h
  | succ n ih =>
    cases h with
    | intro h =>
      have ih := fun e he => ih (h e he)
      unfold zeroFrom
      cases hform : d.form with
      | struct kind props definition =>
        refine (Dry.bind_iff _ _).2 ⟨TypeVector.dry_structDefinition _ _, fun s hs => ?_⟩
        exact dry_zeroStruct (fun e he => ih e (.field hform hs he)) _
      | nested align layout fields =>
        exact dry_zeroStruct (fun e he => ih e (.nestedField hform he)) _
      | array kind props dims definition =>
        refine Dry.ite_iff.2 ⟨fun _ => (Dry.ok_iff _).2 trivial, fun _ => ?_⟩
        refine (Dry.bind_iff _ _).2 ⟨TypeVector.dry_arrayDefinition _ _ _, fun a ha => ?_⟩
        have helement := ih a.element (.element hform ha)
        simp [dry_constantTotal, checkCount, helement]
      | _ => exact (Dry.ok_iff _).2 trivial

/-! ### Reading -/

/-- The walk of reading down to `room` levels, where `behind` reads what stands behind a pointer, and
`beyond` what is still to read below them. -/
def walkWithin (env : Env) (behind : Nat → Walk) (beyond : Walk) : Nat → Walk
  | 0 => beyond
  | room + 1 => fun d site =>
    match d.form with
    | .pointer .. => behind room d site
    | _ => getForm env (walkWithin env behind beyond room) d site

theorem walk_eq_walkWithin (env : Env) (room : Nat) :
    walk env room = walkWithin env (fun room => walk env (room + 1)) (walk env 0) room := by
  induction room with
  | zero => rfl
  | succ room ih =>
    funext d site
    unfold walkWithin
    split
    · rfl
    · rw [← ih]
      rfl

theorem relates_eq (env : Env) : Relates env (fun x y => x = y) where
  pure _ := rfl
  throw _ := rfl
  bind h hf := by
    rw [h, funext hf]
  align _ := rfl
  count := rfl
  shortCount := rfl
  scalar _ := rfl
  run _ := rfl
  context _ _ := rfl
  onPipe _ _ _ := rfl
  call _ := rfl
  openScope _ := rfl
  setField _ _ _ := rfl
  scopeOf _ := rfl
  keepLate _ _ := rfl
  verifyLate _ := rfl
  seeHeap h := congrArg _ (funext fun s => h s.heap)
  seeCalls h := congrArg _ (funext fun s => h s.calls)

/-- **Reading goes no further down than the levels of a type**, short of what stands behind pointers. -/
theorem walkWithin_eq {room : Nat} (h : env.vector.Levels n d) (hn : n ≤ room) (behind : Nat → Walk)
    (beyond beyond' : Walk) (site : Site ScopeId) :
    walkWithin env behind beyond room d site = walkWithin env behind beyond' room d site := by
  induction n generalizing d room site with
  | zero => cases h
  | succ n ih =>
    obtain ⟨room, rfl⟩ := Nat.exists_eq_succ_of_ne_zero (Nat.ne_zero_of_lt hn)
    have hparts : ∀ e, env.vector.Contains d e → env.vector.Levels n e := by
      cases h with
      | intro h => exact h
    have hw : RelatesWalks (env.vector.Levels n) (fun x y => x = y)
        (walkWithin env behind beyond room) (walkWithin env behind beyond' room) :=
      fun e he site => ih he (Nat.le_of_succ_le_succ hn) site
    unfold walkWithin
    split
    · rfl
    · rename_i hpointer
      refine (relates_eq env).getForm hw (.refl env _) (fun _ _ he hd => he.contains hd.contains)
        (.refl _ d) (fun e he => hparts e he.contains) (fun hform he => hparts _ (.wire hform he))
        (fun hform => absurd hform (hpointer _ _ _)) (fun _ => rfl) site

end Unmarshal

namespace Marshal

variable {env : Env} {n : Nat} {d : Descriptor}

/-! ### Writing -/

/-- The walk of writing down to `room` levels, where `behind` writes what stands behind a pointer, and
`beyond` what is still to write below them. -/
def walkWithin (env : Env) (behind : Nat → Walk) (beyond : Walk) : Nat → Walk
  | 0 => beyond
  | room + 1 => fun d v site =>
    match d.form with
    | .pointer .. => behind room d v site
    | _ => do
      putForm env (walkWithin env behind beyond room) d v site
      match d.modifiers.freeRep with
      | some routine => freeInstance env routine v
      | none => return

theorem walk_eq_walkWithin (env : Env) (room : Nat) :
    walk env room = walkWithin env (fun room => walk env (room + 1)) (walk env 0) room := by
  induction room with
  | zero => rfl
  | succ room ih =>
    funext d v site
    unfold walkWithin
    split
    · rfl
    · rw [← ih]
      rfl

theorem relates_eq (env : Env) : Relates env env (fun x y => x = y) where
  pure _ := rfl
  throw _ := rfl
  bind h hf := by
    rw [h, funext hf]
  align _ := rfl
  count _ := rfl
  shortCount _ := rfl
  scalar _ _ := rfl
  run _ := rfl
  token _ := rfl
  onPipe _ _ _ := rfl
  call _ := rfl
  recorded _ h := by rw [h]
  seeCalls h := congrArg _ (funext fun s => h s.calls)

/-- **Writing goes no further down than the levels of a type**, short of what stands behind pointers. -/
theorem walkWithin_eq {room : Nat} (h : env.vector.Levels n d) (hn : n ≤ room) (behind : Nat → Walk)
    (beyond beyond' : Walk) (v : Value) (site : Site Scope) :
    walkWithin env behind beyond room d v site = walkWithin env behind beyond' room d v site := by
  induction n generalizing d room v site with
  | zero => cases h
  | succ n ih =>
    obtain ⟨room, rfl⟩ := Nat.exists_eq_succ_of_ne_zero (Nat.ne_zero_of_lt hn)
    have hparts : ∀ e, env.vector.Contains d e → env.vector.Levels n e := by
      cases h with
      | intro h => exact h
    have hw : RelatesWalks (fun _ => env.vector.Levels n) (fun x y => x = y)
        (walkWithin env behind beyond room) (walkWithin env behind beyond' room) :=
      fun e v site he => ih he (Nat.le_of_succ_le_succ hn) v site
    unfold walkWithin
    split
    · rfl
    · rename_i hpointer
      have hform : putForm env (walkWithin env behind beyond room) d v site
          = putForm env (walkWithin env behind beyond' room) d v site :=
        (relates_eq env).putForm hw (.refl env _) (fun _ _ _ he hd => he.contains hd.contains)
          (.refl _ d) (fun e he => hparts e he.contains) (fun hform he => hparts _ (.wire hform he)) v
          (fun hform => absurd hform (hpointer _ _ _))
          (fun hform => (relates_eq env).putPipe hw (.refl env) rfl
            (fun e he => hparts e (TypeVector.Embeds.piped hform he).contains) v site) fun _ => rfl
      rw [hform]

end Marshal

/-! ### What ends -/

namespace TypeVector

variable {tv : TypeVector} {d : Descriptor}

/-- What goes down a type by value ends with it: its zero, and the walks over its values, which follow
pointers as ever, but do not come to what lies beyond as many levels as the vector has bytes. -/
structure EndsByValue (tv : TypeVector) (d : Descriptor) : Prop where
  zero : ∀ env : Unmarshal.Env, env.vector = tv →
    ∀ offset, Unmarshal.zeroValue env d ≠ .error (.endlessType offset)
  write : ∀ env : Marshal.Env, env.vector = tv → ∀ room, tv.size < room → ∀ beyond v site,
    Marshal.walk env room d v site
      = Marshal.walkWithin env (fun room => Marshal.walk env (room + 1)) beyond room d v site
  read : ∀ env : Unmarshal.Env, env.vector = tv → ∀ room, tv.size < room → ∀ beyond site,
    Unmarshal.walk env room d site
      = Unmarshal.walkWithin env (fun room => Unmarshal.walk env (room + 1)) beyond room d site

/-- A type below which containment ends, and whose parts stand in the vector. -/
theorem Founded.endsByValue (h : tv.Founded d) (hparts : ∀ e, tv.Contains d e → e.StandsIn tv) :
    tv.EndsByValue d := by
  have hlevels : tv.Levels (tv.size + 1) d := .intro fun e he => (h.contains he).levels (hparts e he)
  refine ⟨fun env henv offset he => ?_, fun env henv room hroom beyond v site => ?_,
    fun env henv room hroom beyond site => ?_⟩
  all_goals subst henv
  · exact Unmarshal.dry_zeroFrom hlevels _ he trivial
  · rw [Marshal.walk_eq_walkWithin]
    exact Marshal.walkWithin_eq hlevels hroom _ _ _ v site
  · rw [Unmarshal.walk_eq_walkWithin]
    exact Unmarshal.walkWithin_eq hlevels hroom _ _ _ site

end TypeVector

end Ndr
