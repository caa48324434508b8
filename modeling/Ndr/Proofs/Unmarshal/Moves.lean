import Ndr.Proofs.Unmarshal.Progress

/-!
Relations of states that reading keeps to where it succeeds. Most steps go on in the message and leave
the registry and the scopes as they are: a relation in turn that holds there is kept to by every walk
whose structs, bounds and contexts keep to it.
-/

namespace Ndr.Unmarshal

variable {M : State → State → Prop} {α β : Type}

/-- An action that leads from a state to one that `M` relates it to, where it succeeds. -/
def Moves (M : State → State → Prop) (x : Unmarshalling α) : Prop := ∀ ⦃s a t⦄, x s = .ok a t → M s t

namespace Moves

theorem throw (e : Fault) : Moves M (throw e : Unmarshalling α) :=
  fun _ _ _ e => absurd e throw_ne_ok

theorem bind {x : Unmarshalling α} {f : α → Unmarshalling β}
    (trans : ∀ {s t u}, M s t → M t u → M s u) (hx : Moves M x) (hf : ∀ a, Moves M (f a)) :
    Moves M (x >>= f) := fun _ _ _ e => by
  obtain ⟨a, u, h1, h2⟩ := bind_eq_ok.1 e
  exact trans (hx h1) (hf a h2)

theorem ite {p : Prop} [Decidable p] {x y : Unmarshalling α} (hx : Moves M x) (hy : Moves M y) :
    Moves M (if p then x else y) := by
  split
  · exact hx
  · exact hy

/-- An action that depends on what it sees in the state. -/
theorem see {f : State → Unmarshalling α} (hf : ∀ s, Moves M (f s)) : Moves M (get >>= f) :=
  fun _ _ _ e => by
    obtain ⟨_, _, h1, h2⟩ := bind_eq_ok.1 e
    obtain ⟨rfl, rfl⟩ := get_eq_ok.1 h1
    exact hf _ h2

theorem modify {f : State → State} (h : ∀ s, M s (f s)) : Moves M (modify f : Unmarshalling PUnit) :=
  fun _ _ _ e => modify_eq_ok.1 e ▸ h _

theorem fetch {x : Fetch α} {n : Nat} (hx : Reader.Passes n x)
    (h : ∀ s reader, reader.rest <:+ s.reader.rest → M s { s with reader }) :
    Moves M (fetch x) := fun s _ _ e => by
  obtain ⟨reader, hreader, rfl⟩ := onPart_eq_ok.1 e
  obtain ⟨bytes, -, hrest⟩ := hx hreader
  exact h s reader ⟨bytes, hrest.symm⟩

end Moves

/-- **What every step does**: a relation in turn that holds where the message goes on and neither the
registry nor a scope changes is kept to by every step inside of a scope, where bounds and new contexts
keep to it. -/
theorem composesInside_of_moves {env : Env}
    (frame : ∀ s t : State, t.reader.rest <:+ s.reader.rest → t.contexts = s.contexts →
      t.closed = s.closed → t.scopes = s.scopes → t.late = s.late → M s t)
    (trans : ∀ {s t u}, M s t → M t u → M s u)
    (newContext : ∀ direction, Moves M (getContext env direction (.context none)))
    (checkBound : ∀ b wire scope, Moves M (checkBound b wire scope)) :
    ComposesInside env (Moves M) := by
  have hsame : ∀ s t : State, t.reader = s.reader → t.contexts = s.contexts →
      t.closed = s.closed → t.scopes = s.scopes → t.late = s.late → M s t := fun s t h =>
    frame s t (h ▸ List.suffix_rfl)
  have hfetch : ∀ {α : Type} {x : Fetch α} {n : Nat}, Reader.Passes n x → Moves M (fetch x) := fun hx =>
    .fetch hx fun s reader h => frame s _ h rfl rfl rfl rfl
  have hbind : ∀ {α β : Type} {x : Unmarshalling α} {f : α → Unmarshalling β}, Moves M x →
      (∀ a, Moves M (f a)) → Moves M (x >>= f) := fun hx hf => .bind trans hx hf
  exact {
    pure := fun a s _ t e => by
      obtain ⟨-, rfl⟩ := pure_eq_ok.1 e
      exact hsame s s rfl rfl rfl rfl rfl
    throw := .throw
    bind := hbind
    align := fun n => hfetch (Reader.passes_align n)
    count := hfetch (Reader.passes_getAligned _ _)
    shortCount := hfetch (Reader.passes_getAligned _ _)
    scalar := fun kind => hfetch (Reader.passes_getScalar _ kind)
    run := fun n => hfetch (Reader.passes_getRun n)
    newContext
    scopeOf := fun id s _ t e => by
      obtain ⟨-, rfl⟩ := scopeOf_eq_ok.1 e
      exact hsame s s rfl rfl rfl rfl rfl
    checkBound
    call := fun _ => .modify fun s => hsame s _ rfl rfl rfl rfl rfl
    seeCalls := fun hf => .see fun s => hf s.calls
    store := fun _ _ s _ t e => by
      obtain ⟨-, rfl⟩ := store_eq_ok.1 e
      exact hsame s _ rfl rfl rfl rfl rfl
    takeDeferred := fun hf => hbind (fun s _ t e => by
      obtain ⟨-, rfl⟩ := takeDeferred_eq_ok.1 e
      exact hsame s _ rfl rfl rfl rfl rfl) fun ds => hf ds fun _ _ => ⟨trivial, trivial⟩
    allocate := fun hf => hbind (fun s _ t e => by
      obtain ⟨-, -, rfl⟩ := allocate_eq_ok.1 e
      exact hsame s _ rfl rfl rfl rfl rfl) fun c => hf c trivial
    register := fun _ _ s _ t e => by
      obtain ⟨nodes, -, rfl⟩ := register_eq_ok.1 e
      exact hsame s _ rfl rfl rfl rfl rfl
    sight := fun _ => .modify fun s => hsame s _ rfl rfl rfl rfl rfl
    defer := fun _ _ => .modify fun s => hsame s _ rfl rfl rfl rfl rfl
    seeNodes := fun hf => .see fun s => hf s.nodes
    onPipe := fun _ _ _ s _ t e => by
      obtain ⟨pipes, -, rfl⟩ := onPart_eq_ok.1 e
      exact hsame s _ rfl rfl rfl rfl rfl
    delete := fun _ => .modify fun s => hsame s _ rfl rfl rfl rfl rfl
    seeRest := fun hf => .see fun s => hf s.reader.rest.length }

end Ndr.Unmarshal
