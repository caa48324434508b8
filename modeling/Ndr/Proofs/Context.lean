import Ndr.Proofs.Lockstep.Operation
import Ndr.Proofs.Marshal.Plan
import Ndr.Proofs.Packing
import Ndr.Proofs.Rollback

/-!
Operations that pass one context. Its token travels in twenty bytes, of which the byte order of the
message arranges all but the last eight, and the other side reads the token that was written: a
server looks it up and leaves its registry alone, a client holds it from then on or, for the null
token, lets go of what it held.
-/

namespace Ndr

/-- A token as it travels, behind its unused word. -/
def Uuid.wire (order : ByteOrder) (u : Uuid) : List UInt8 :=
  order.encode 4 0 ++ (order.encode 4 u.first.toNat ++ (order.encode 2 u.second.toNat ++
    (order.encode 2 u.third.toNat ++ ByteOrder.big.encode 8 u.tail.toNat)))

/-- At a multiple of four a token needs no padding. -/
theorem encodeFields_token {order : ByteOrder} {u : Uuid} {position : Nat} (h : 4 ∣ position) :
    encodeFields order ((Writer.Step.token u).fields position) = u.wire order := by
  rw [Writer.Step.fields, encodeFields_append, Writer.encodeFields_wordFields,
    Writer.alignedBytes_of_dvd h]
  simp [Field.encode, Uuid.wire]

/-! ### Writing -/

namespace Marshal

variable {env : Env} {direction : ContextDirection} {s t : State} {v : Value} {u : Unit}

theorem put_eq_ok {α : Type} {x : Put α} {a : α} :
    put x s = .ok a t ↔ ∃ w, x s.writer = .ok a w ∧ { s with writer := w } = t := onPart_eq_ok

/-- A context is written as its token, and nothing else changes. -/
theorem putContext_eq_ok (hp : 4 ∣ s.writer.position) (hb : 8 ≤ s.writer.bufferSize)
    (e : putContext env direction v s = .ok u t) :
    ∃ registry h token, env.contexts = some registry ∧ v = .context h ∧
      tokenOf registry direction h = .ok token ∧ t = { s with writer := t.writer } ∧
      Writer.Wrote s.writer t.writer (token.wire env.order) := by
  unfold putContext at e
  cases hcontexts : env.contexts with
  | none =>
    simp only [hcontexts] at e
    exact absurd e throw_ne_ok
  | some registry =>
    simp only [hcontexts] at e
    obtain ⟨h, _, e0, e⟩ := bind_eq_ok.1 e
    obtain ⟨hv, rfl⟩ := lift_eq_ok.1 e0
    obtain ⟨token, _, e0, e⟩ := bind_eq_ok.1 e
    obtain ⟨htoken, rfl⟩ := lift_eq_ok.1 e0
    have e : put ((Writer.Step.token token).perform env.representation) s = .ok u t :=
      putToken_eq env token ▸ e
    obtain ⟨w, ew, rfl⟩ := put_eq_ok.1 e
    have hwrote := Writer.wrote_perform hb ew
    rw [encodeFields_token hp] at hwrote
    have hvalue : v = .context h := by
      unfold Value.context? at hv
      split at hv
      · rw [Except.ok.inj hv]
      · exact absurd hv (by simp)
    exact ⟨registry, h, token, rfl, hvalue, htoken, rfl, hwrote⟩

/-- Where nothing was put off there is nothing left to write. -/
theorem flush_of_nothing {walk : Walk} (h : s.deferred = []) : flush env walk s = .ok () s := by
  have htake : takeDeferred s = .ok [] s := by
    obtain ⟨writer, nodes, deferred, pipes, calls⟩ := s
    obtain rfl : deferred = [] := h
    rfl
  refine bind_eq_ok.2 ⟨[], s, htake, ?_⟩
  unfold putDeferred
  rfl

end Marshal

/-! ### Reading -/

namespace Unmarshal

/-- The token that was written is read. -/
theorem getToken_ok {order : ByteOrder} {token : Uuid} {r : Reader} {tail : List UInt8}
    (hp : 4 ∣ r.position) (h : r.rest = token.wire order ++ tail) :
    ∃ r', getToken order r = .ok token r' ∧ r'.rest = tail := by
  simp only [Uuid.wire, List.append_assoc] at h
  rw [← Writer.alignedBytes_of_dvd hp] at h
  obtain ⟨r1, e1, t1⟩ := Reader.getAligned_ok (v := 0) (by decide) h
  have h1 := t1.rest
  have hp1 : 4 ∣ r1.position := by
    rw [t1.position, Writer.alignedBytes_of_dvd hp, ByteOrder.length_encode]
    omega
  rw [← Writer.alignedBytes_of_dvd hp1] at h1
  obtain ⟨r2, e2, t2⟩ := Reader.getAligned_ok (by exact token.first.toNat_lt) h1
  obtain ⟨r3, e3, t3⟩ := Reader.getWord_ok (by exact token.second.toNat_lt) t2.rest
  obtain ⟨r4, e4, t4⟩ := Reader.getWord_ok (by exact token.third.toNat_lt) t3.rest
  obtain ⟨r5, e5, t5⟩ := Reader.getRun_ok t4.rest
  rw [ByteOrder.length_encode] at e5
  refine ⟨r5, ?_, t5.rest⟩
  refine bind_eq_ok.2 ⟨_, r1, e1, bind_eq_ok.2 ⟨_, r2, e2, bind_eq_ok.2 ⟨_, r3, e3,
    bind_eq_ok.2 ⟨_, r4, e4, bind_eq_ok.2 ⟨_, r5, e5, ?_⟩⟩⟩⟩⟩
  rw [ByteOrder.decode_encode _ (show token.tail.toNat < 256 ^ 8 from token.tail.toNat_lt)]
  simp only [UInt32.ofNat_toNat, UInt16.ofNat_toNat, UInt64.ofNat_toNat]
  rfl

variable {env : Env} {s : State}

/-- Where nothing was put off there is nothing left to read. -/
theorem flush_of_nothing {walk : Walk} (h : s.deferred = []) : flush env walk s = .ok () s := by
  have htake : takeDeferred s = .ok [] s := by
    obtain ⟨reader, heap, contexts, nodes, scopes, deferred⟩ := s
    obtain rfl : deferred = [] := h
    rfl
  refine bind_eq_ok.2 ⟨s, s, rfl, bind_eq_ok.2 ⟨[], s, htake, ?_⟩⟩
  unfold getDeferred
  rfl

/-! ### The registry of a server -/

/-- The registry of the reader is `r`, and no context was closed or made. -/
structure Settled (r : Option Registry) (s : State) : Prop where
  contexts : s.contexts = r
  closed : s.closed = []
  adopted : s.adopted = []

section

variable {r : Option Registry}

theorem Settled.of_eq {t : State} (h : Settled r s)
    (he : (t.contexts, t.adopted, t.closed) = (s.contexts, s.adopted, s.closed)) : Settled r t := by
  simp only [Prod.mk.injEq] at he
  exact ⟨he.1.trans h.contexts, he.2.2.trans h.closed, he.2.1.trans h.adopted⟩

theorem holds_settled_modify {f : State → State}
    (h : ∀ s, ((f s).contexts, (f s).adopted, (f s).closed) = (s.contexts, s.adopted, s.closed)) :
    Holds (Settled r) (modify f : Unmarshalling PUnit) := Keeps.modify fun s hs => hs.of_eq (h s)

/-- The side that made a context only looks it up. -/
theorem holds_settled_getContext (h : env.side = .server) (direction : ContextDirection)
    (current : Value) : Holds (Settled r) (getContext env direction current) := by
  rw [getContext_eq]
  refine Keeps.get.bind fun s _ => ?_
  unfold contextIn
  cases s.contexts with
  | none => exact .throw _
  | some registry =>
    refine Keeps.bind (P := fun _ => True) (Keeps.onPart (fun _ _ hs => hs.of_eq rfl) _) fun u _ => ?_
    rw [h]
    exact (Keeps.lift _).bind fun _ _ => .pure trivial

/-- Whatever a server reads, its registry stays as it is. -/
theorem composes_settled (env : Env) (h : env.side = .server) :
    ComposesSteps env (fun _ => True) (Holds (Settled r)) := by
  have hallocate : Keeps (Settled r) (fun _ => True) allocate :=
    Keeps.get.bind fun _ _ => (Keeps.lift _).bind fun _ _ => Keeps.get.bind fun _ _ =>
      Keeps.bind (holds_settled_modify fun _ => rfl) fun _ _ => .pure trivial
  refine composesSteps_of_frame (fun s t he hs => hs.of_eq (by simp_all))
    (holds_settled_getContext h) hallocate (fun _ v => ?_) (fun _ _ => ?_) (fun _ => ?_) ?_
  · exact Keeps.get.bind fun _ _ => .ite (holds_settled_modify fun _ => rfl) (.throw _)
  · exact Keeps.get.bind fun _ _ => (Keeps.lift _).bind fun _ _ => holds_settled_modify fun _ => rfl
  · exact holds_settled_modify fun _ => rfl
  · exact Keeps.modifyGet fun _ hs => ⟨hs.of_eq rfl, fun _ _ => trivial⟩

end

end Unmarshal

/-! ### Machines -/

namespace Machine

variable {m : Machine} {world : Surroundings} {offset : Nat} {params : List Value}

/-- A server never enters a context into its registry, and never takes one out: it only finds
contexts there, in any message and wherever reading fails. -/
theorem contexts_unmarshal_of_server (h : m.side = .server) (source : Source) :
    (m.unmarshal world offset params source).surroundings.contexts = world.contexts := by
  have hkeep := (Unmarshal.composes_settled (r := world.contexts) { m.startOperation with } h).walks.getParameters offset params { world with reader := { source } }
      ⟨rfl, rfl, rfl⟩
  unfold unmarshal
  dsimp only at hkeep ⊢
  split
  · rename_i values s hrun
    rw [hrun] at hkeep
    obtain ⟨⟨hcontexts, hclosed, -⟩, -⟩ := hkeep
    simp [commit, hcontexts, hclosed]
  · rename_i e s hrun
    rw [hrun] at hkeep
    obtain ⟨hcontexts, -, hadopted⟩ := hkeep
    simp [rollback, hcontexts, hadopted]

end Machine

/-! ### Lists of one context -/

/-- The list at `offset` has one parameter, a context. -/
structure Interface.Passes (i : Interface) (offset : Nat) (p : Parameter)
    (direction : ContextDirection) : Prop where
  list : i.vector.parameters offset = .ok [p]
  form : p.descriptor.form = .context direction

namespace Marshal

variable {env : Env} {offset : Nat} {params : List Value} {p : Parameter}
  {direction : ContextDirection} {s t : State} {u : Unit}

/-- What writing a list of one context writes. -/
theorem putParameters_context (env : Env) (hp : env.interface.Passes offset p direction)
    (hs : s.deferred = []) (hposition : 4 ∣ s.writer.position) (hb : 8 ≤ s.writer.bufferSize)
    (e : putParameters env offset params s = .ok u t) :
    ∃ registry h token, env.contexts = some registry ∧ params[p.index]? = some (.context h) ∧
      tokenOf registry direction h = .ok token ∧
      Writer.Wrote s.writer t.writer (token.wire env.order) := by
  obtain ⟨list, _, e0, e⟩ := bind_eq_ok.1 e
  obtain ⟨hlist, rfl⟩ := lift_eq_ok.1 e0
  obtain rfl := Except.ok.inj (hp.list.symm.trans hlist)
  obtain ⟨_, t1, e1, hdone⟩ := bind_eq_ok.1 e
  obtain ⟨-, rfl⟩ := pure_eq_ok.1 hdone
  cases hv : params[p.index]? with
  | none =>
    simp only [hv] at e1
    exact absurd e1 throw_ne_ok
  | some v =>
    simp only [hv] at e1
    obtain ⟨_, t2, e2, e3⟩ := bind_eq_ok.1 e1
    cases hroom : env.config.maxNesting with
    | zero =>
      rw [hroom] at e2
      exact absurd e2 throw_ne_ok
    | succ room =>
      rw [hroom] at e2
      obtain ⟨_, t3, e2, e4⟩ := bind_eq_ok.1 e2
      unfold putForm at e2
      simp only [hp.form] at e2
      obtain ⟨registry, h, token, hcontexts, rfl, htoken, ht3, hwrote⟩ :=
        putContext_eq_ok hposition hb e2
      have hsame : t2.writer = t3.writer ∧ t2.deferred = t3.deferred := by
        cases hroutine : p.descriptor.modifiers.freeRep with
        | none =>
          simp only [hroutine] at e4
          obtain ⟨-, rfl⟩ := pure_eq_ok.1 e4
          exact ⟨rfl, rfl⟩
        | some routine =>
          simp only [hroutine] at e4
          obtain ⟨_, _, e5, e6⟩ := bind_eq_ok.1 e4
          obtain ⟨-, rfl⟩ := lift_eq_ok.1 e5
          obtain rfl := modify_eq_ok.1 e6
          exact ⟨rfl, rfl⟩
      have hdeferred : t2.deferred = [] := by
        rw [hsame.2, ht3]
        exact hs
      rw [flush_of_nothing hdeferred] at e3
      obtain ⟨-, rfl⟩ := EStateM.Result.ok.inj e3
      exact ⟨registry, h, token, hcontexts, rfl, htoken, hsame.1 ▸ hwrote⟩

end Marshal

namespace Unmarshal

variable {env : Env} {offset : Nat} {params : List Value} {p : Parameter}
  {direction : ContextDirection} {s t : State} {current : Value}

/-- A context that was read is the only value that was. -/
theorem getParameters_context_of_ok {h : Option ContextHandle}
    (hp : env.interface.Passes offset p direction) (hcurrent : params[p.index]? = some current)
    (e : getContext env direction current
      { s with scopes := s.scopes.push (parameterScope s.heap [p] params) } = .ok (.context h) t)
    (ht : t.deferred = []) (hlate : t.late = ∅) :
    ∃ t', getParameters env offset params s = .ok [(p.index, .context h)] t' ∧
      t'.contexts = t.contexts ∧ t'.closed = t.closed := by
  have hset : setField s.scopes.size p.index (correlationOf t.heap (.context h)) t = .ok () t := rfl
  have hverify : verifyLate s.scopes.size t = .ok () { t with late := t.late.erase s.scopes.size } :=
    verifyLate_eq_ok.2 ⟨by simp [State.due, hlate], rfl⟩
  have hget : getParameter env p.descriptor current { scope := s.scopes.size, embedded := false }
      { s with scopes := s.scopes.push (parameterScope s.heap [p] params) } = .ok (.context h) t := by
    unfold getParameter
    simp only [hp.form]
    exact e
  refine ⟨{ t with late := t.late.erase s.scopes.size }, ?_, rfl, rfl⟩
  refine bind_eq_ok.2 ⟨_, s, lift_eq_ok.2 ⟨hp.list, rfl⟩, bind_eq_ok.2 ⟨s, s, rfl, bind_eq_ok.2
    ⟨_, _, openScope_eq_ok.2 ⟨rfl, rfl⟩, bind_eq_ok.2 ⟨[(p.index, .context h)], t, ?_,
      bind_eq_ok.2 ⟨(), _, hverify, rfl⟩⟩⟩⟩⟩
  rw [List.mapM_cons]
  refine bind_eq_ok.2 ⟨(p.index, .context h), t, ?_, rfl⟩
  simp only [hcurrent]
  exact bind_eq_ok.2 ⟨_, t, hget, bind_eq_ok.2 ⟨(), t, flush_of_nothing ht, bind_eq_ok.2 ⟨t, t, rfl,
    bind_eq_ok.2 ⟨(), t, hset, rfl⟩⟩⟩⟩

/-- Where a context cannot be read, nothing is. -/
theorem getParameters_context_of_error {fault : Fault}
    (hp : env.interface.Passes offset p direction) (hcurrent : params[p.index]? = some current)
    (e : getContext env direction current
      { s with scopes := s.scopes.push (parameterScope s.heap [p] params) } = .error fault t) :
    getParameters env offset params s = .error fault t := by
  have hget : getParameter env p.descriptor current { scope := s.scopes.size, embedded := false }
      { s with scopes := s.scopes.push (parameterScope s.heap [p] params) } = .error fault t := by
    unfold getParameter
    simp only [hp.form]
    exact e
  have hlist : (liftM (env.vector.parameters offset) : Unmarshalling (List Parameter)) s
      = .ok [p] s := lift_eq_ok.2 ⟨hp.list, rfl⟩
  refine (bind_of_ok hlist _).trans ((bind_of_ok (get_eq_ok.2 ⟨rfl, rfl⟩) _).trans
    ((bind_of_ok (openScope_eq_ok.2 ⟨rfl, rfl⟩) _).trans (bind_of_error ?_ _)))
  rw [List.mapM_cons]
  refine bind_of_error ?_ _
  simp only [hcurrent]
  exact bind_of_error hget _

variable {registry : Registry} {token : Uuid} {tail : List UInt8}

/-- The token of a message has been read. -/
theorem fetch_token (hposition : 4 ∣ s.reader.position)
    (h : s.reader.rest = token.wire env.order ++ tail) :
    ∃ reader, fetch (getToken env.order) s = .ok token { s with reader } := by
  obtain ⟨reader, e, -⟩ := getToken_ok hposition h
  exact ⟨reader, onPart_eq_ok.2 ⟨reader, e, rfl⟩⟩

theorem resolveContext_eq_some {h : ContextHandle}
    (e : resolveContext registry direction token = .ok (some h)) :
    token ≠ .null ∧ registry.resolve? token = some h := by
  unfold resolveContext at e
  split at e
  · split at e <;> simp at e
  · rename_i hne
    split at e
    · rename_i hfound
      exact ⟨hne, (Option.some.inj (Except.ok.inj e)) ▸ hfound⟩
    · simp at e

/-- What a server makes of a token. -/
theorem getContext_of_server (env : Env) (direction : ContextDirection) (current : Value)
    (hside : env.side = .server) (hs : s.contexts = some registry)
    (hposition : 4 ∣ s.reader.position) (h : s.reader.rest = token.wire env.order ++ tail) :
    ∃ reader, getContext env direction current s =
      Writer.ended ((resolveContext registry direction token).map Value.context)
        { s with reader } := by
  obtain ⟨reader, e⟩ := fetch_token hposition h
  refine ⟨reader, ?_⟩
  rw [getContext_eq, bind_of_ok (get_eq_ok.2 ⟨rfl, rfl⟩)]
  unfold contextIn
  simp only [hs, hside]
  rw [bind_of_ok e]
  cases resolveContext registry direction token <;> exact congrArg _ (by rw [← hs])

end Unmarshal

/-- What a client holds once it has read a token in place of the handle `held`, and its registry
then. -/
def Registry.hold (r : Registry) (held : Option ContextHandle) (token : Uuid) :
    Option ContextHandle × Registry :=
  if token = .null then (none, held.toList.foldl Registry.destroy r)
  else (some (r.adopt token).1, (r.adopt token).2)

namespace Unmarshal

variable {env : Env} {direction : ContextDirection} {s : State} {current : Value}
  {registry : Registry} {token : Uuid} {tail : List UInt8}

/-- What a client makes of a token; the handle that the null token closes is forgotten when the
message has been read. -/
theorem getContext_of_client (env : Env) (direction : ContextDirection) (current : Value)
    (hside : env.side = .client) (hs : s.contexts = some registry)
    (hclosed : s.closed = []) (hposition : 4 ∣ s.reader.position)
    (h : s.reader.rest = token.wire env.order ++ tail) :
    ∃ t, getContext env direction current s
        = .ok (.context (registry.hold current.context?.toOption.join token).1) t ∧
      t.deferred = s.deferred ∧ t.late = s.late ∧
      t.contexts.map (fun r => t.closed.reverse.foldl Registry.destroy r)
        = some (registry.hold current.context?.toOption.join token).2 := by
  obtain ⟨reader, e⟩ := fetch_token hposition h
  rw [getContext_eq, bind_of_ok (get_eq_ok.2 ⟨rfl, rfl⟩)]
  unfold contextIn Registry.hold
  simp only [hs, hside]
  rw [bind_of_ok e]
  unfold adoptContext
  by_cases hnull : token = .null
  · simp only [if_pos hnull]
    refine ⟨{ s with
      reader
      closed := (current.context?.toOption.join).toList ++ s.closed }, rfl, rfl, rfl, ?_⟩
    cases current.context?.toOption.join <;> simp [hs, hclosed]
  · simp only [if_neg hnull]
    cases hfound : registry.resolve? token with
    | none =>
      refine ⟨{ s with
        reader
        contexts := some (registry.adopt token).2
        adopted := (registry.adopt token).1 :: s.adopted }, rfl, rfl, rfl, ?_⟩
      simp [hclosed]
    | some handle =>
      refine ⟨{ s with reader }, rfl, rfl, rfl, ?_⟩
      simp [hs, hclosed, Registry.adopt, hfound]

end Unmarshal

namespace Machine

variable {m : Machine} {world : Surroundings} {offset : Nat} {params : List Value} {p : Parameter}
  {direction : ContextDirection} {registry : Registry} {token : Uuid} {source : Source}

/-- The message of an operation that passes a context is its token. -/
theorem marshal_context {sink : Sink} {n : Nat} (hp : m.interface.Passes offset p direction)
    (hc : m.config.check = .ok ()) (e : (m.marshal world offset params sink).result = .ok n) :
    ∃ registry h token, world.contexts = some registry ∧ params[p.index]? = some (.context h) ∧
      Marshal.tokenOf registry direction h = .ok token ∧
      (m.marshal world offset params sink).transport.message
        = sink.message ++ token.wire m.representation.integers := by
  obtain ⟨t, hput, -, hmessage⟩ := Lockstep.marshal_eq_ok e
  obtain ⟨registry, h, token, hcontexts, hv, htoken, hwrote⟩ :=
    Marshal.putParameters_context (m.writing world) hp rfl (Nat.dvd_zero 4)
      ((Config.check_eq_ok_iff _).1 hc).1 hput
  refine ⟨registry, h, token, hcontexts, hv, htoken, ?_⟩
  rw [hmessage, hwrote.output, Writer.output_new]
  rfl

/-- A server finds the context of the token, or fails as the look-up does. -/
theorem unmarshal_context_of_server (world : Surroundings) (hp : m.interface.Passes offset p direction)
    (hside : m.side = .server) (hcontexts : world.contexts = some registry)
    (hindex : p.index < params.length)
    (hsource : source.bytes = token.wire m.representation.integers) :
    (m.unmarshal world offset params source).result =
      (Unmarshal.resolveContext registry direction token).map
        fun h => params.set p.index (.context h) := by
  have hget := List.getElem?_eq_getElem hindex
  let start : Unmarshal.State := { world with reader := { source } }
  have hrest : start.reader.rest = token.wire m.representation.integers ++ [] := by
    rw [List.append_nil]
    exact hsource
  obtain ⟨reader, e⟩ := Unmarshal.getContext_of_server { m.startOperation with } direction
    params[p.index]
    (s := { start with scopes := #[].push (Unmarshal.parameterScope world.heap [p] params) })
    hside hcontexts (Nat.dvd_zero 4) hrest
  unfold unmarshal
  dsimp only
  cases hfound : Unmarshal.resolveContext registry direction token with
  | error fault =>
    rw [hfound] at e
    rw [Unmarshal.getParameters_context_of_error (s := start) hp hget e]
    rfl
  | ok h =>
    rw [hfound] at e
    obtain ⟨t, e', -⟩ := Unmarshal.getParameters_context_of_ok (s := start) hp hget e rfl rfl
    rw [e']
    rfl

/-- A client holds the token from then on. -/
theorem unmarshal_context_of_client (world : Surroundings) (hp : m.interface.Passes offset p direction)
    (hside : m.side = .client) (hcontexts : world.contexts = some registry)
    {current : Value} (hcurrent : params[p.index]? = some current)
    (hsource : source.bytes = token.wire m.representation.integers) :
    let held := registry.hold current.context?.toOption.join token
    (m.unmarshal world offset params source).result = .ok (params.set p.index (.context held.1)) ∧
      (m.unmarshal world offset params source).surroundings.contexts = some held.2 := by
  let start : Unmarshal.State := { world with reader := { source } }
  have hrest : start.reader.rest = token.wire m.representation.integers ++ [] := by
    rw [List.append_nil]
    exact hsource
  obtain ⟨t, e, hdeferred, hlate, hkept⟩ := Unmarshal.getContext_of_client
    { m.startOperation with } direction current
    (s := { start with scopes := #[].push (Unmarshal.parameterScope world.heap [p] params) })
    hside hcontexts rfl (Nat.dvd_zero 4) hrest
  obtain ⟨t', e', hcontexts', hclosed'⟩ := Unmarshal.getParameters_context_of_ok (s := start) hp
    hcurrent e hdeferred hlate
  unfold unmarshal
  dsimp only
  rw [e']
  refine ⟨rfl, ?_⟩
  rw [← hkept, ← hcontexts', ← hclosed']
  rfl

end Machine

end Ndr
