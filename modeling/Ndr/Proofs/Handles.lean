import Ndr.Proofs.Association
import Ndr.Proofs.Effect
import Ndr.Proofs.Unmarshal.Moves

/-!
Handles that an operation returns. Whatever else a message holds, the registry has the token behind
every handle that was read of it. But the contexts that null tokens close are forgotten last of all,
also those that another parameter of the same message names: so a handle that is returned is live
exactly where no other parameter lets go of it.
-/

namespace Ndr

/-! ### Registries -/

namespace Registry

variable {r r' : Registry} {h : ContextHandle} {u : Uuid}

/-- No handle stands for two tokens. -/
def Distinct (r : Registry) : Prop := (r.entries.map (·.1)).Nodup

/-- Every handle of the one registry stands for the same token in the other. -/
def Le (r r' : Registry) : Prop := ∀ h u, r.token? h = some u → r'.token? h = some u

theorem distinct_empty : ({} : Registry).Distinct := List.nodup_nil

theorem Distinct.destroy_all (hr : r.Distinct) (l : List ContextHandle) :
    (l.foldl Registry.destroy r).Distinct := by
  rw [Distinct, entries_destroy_all]
  exact hr.sublist (List.filter_sublist.map _)

theorem Distinct.insert (hr : r.Distinct) (u : Uuid) : (r.insert u).2.Distinct := by
  refine List.nodup_cons.2 ⟨fun hm => ?_, hr⟩
  obtain ⟨e, he, hlast⟩ := List.mem_map.1 hm
  have hle := r.le_last e he
  rw [hlast] at hle
  exact Nat.not_succ_le_self _ hle

theorem Distinct.token?_of_mem (hr : r.Distinct) (hm : (h, u) ∈ r.entries) :
    r.token? h = some u := by
  obtain ⟨v, hv⟩ := Option.isSome_iff_exists.1 (isLive_of_mem hm)
  have heq := List.inj_on_of_nodup_map hr hm (mem_of_token? hv) rfl
  rw [hv, (Prod.mk.inj heq).2]

theorem Distinct.adopt (hr : r.Distinct) (u : Uuid) : (r.adopt u).2.Distinct := by
  unfold Registry.adopt
  cases r.resolve? u with
  | some h => exact hr
  | none => exact hr.insert u

/-- A handle that is adopted stands for its token. -/
theorem Distinct.token?_adopt (hr : r.Distinct) (u : Uuid) :
    (r.adopt u).2.token? (r.adopt u).1 = some u := by
  unfold Registry.adopt
  cases hfound : r.resolve? u with
  | some h => exact hr.token?_of_mem (mem_of_resolve? hfound)
  | none => exact (token?_insert _ _ _).trans (if_pos rfl)

theorem le_adopt (r : Registry) (u : Uuid) : r.Le (r.adopt u).2 := by
  intro h v hv
  unfold adopt
  cases r.resolve? u with
  | some _ => exact hv
  | none =>
    have hle := r.le_last _ (mem_of_token? hv)
    exact (token?_insert _ _ _).trans ((if_neg (Nat.ne_of_lt (Nat.lt_succ_of_le hle))).trans hv)

/-- A handle that is forgotten stands for no token, and the others for theirs. -/
theorem token?_destroy_all (l : List ContextHandle) (r : Registry) (h : ContextHandle) :
    (l.foldl destroy r).token? h = if h ∈ l then none else r.token? h := by
  induction l generalizing r with
  | nil => rfl
  | cons g l ih =>
    rw [List.foldl_cons, ih, token?_destroy]
    by_cases hl : h ∈ l
    · rw [if_pos hl, if_pos (List.mem_cons_of_mem g hl)]
    · simp only [if_neg hl, List.mem_cons, or_iff_left hl]

theorem isLive_destroy_all (l : List ContextHandle) (hlive : r.isLive h) :
    (l.foldl destroy r).isLive h ↔ h ∉ l := by
  rw [isLive, token?_destroy_all]
  by_cases hl : h ∈ l
  · simp [hl]
  · rw [if_neg hl]
    exact iff_of_true hlive hl

end Registry

namespace Unmarshal

variable {env : Env} {s t u : State} {h : ContextHandle} {closed closed' : List ContextHandle}

/-! ### What values keep -/

/-- From `s` to `t` the message goes on, no context is lost, and those are closed that are listed. -/
structure Retains (closed : List ContextHandle) (s t : State) : Prop where
  rest : t.reader.rest <:+ s.reader.rest
  contexts : ∀ r, s.contexts = some r → r.Distinct →
    ∃ r', t.contexts = some r' ∧ r'.Distinct ∧ r.Le r'
  closed : t.closed = closed ++ s.closed

namespace Retains

theorem trans (h : Retains closed s t) (h' : Retains closed' t u) :
    Retains (closed' ++ closed) s u where
  rest := h'.rest.trans h.rest
  contexts r hs hr := by
    obtain ⟨r', ht, hr', hle⟩ := h.contexts r hs hr
    obtain ⟨r'', hu, hr'', hle'⟩ := h'.contexts r' ht hr'
    exact ⟨r'', hu, hr'', fun k v hv => hle' k v (hle k v hv)⟩
  closed := by rw [h'.closed, h.closed, List.append_assoc]

/-- A step in the message that leaves the registry alone. -/
theorem of_eq (hrest : t.reader.rest <:+ s.reader.rest) (hcontexts : t.contexts = s.contexts)
    (hclosed : t.closed = closed ++ s.closed) : Retains closed s t :=
  ⟨hrest, fun r hs hr => ⟨r, hcontexts.trans hs, hr, fun _ _ hv => hv⟩, hclosed⟩

end Retains

/-- The handle stands for a token that was read of what is left of the message. -/
def Obtained (order : ByteOrder) (s t : State) (h : ContextHandle) : Prop :=
  ∃ token reader reader' registry, reader.rest <:+ s.reader.rest ∧
    getToken order reader = .ok token reader' ∧ t.contexts = some registry ∧ registry.Distinct ∧
    registry.token? h = some token

/-- A handle that was obtained stands for its token from then on. -/
theorem Obtained.retains {order : ByteOrder} (hs : Obtained order s t h) (ht : Retains closed t u) :
    Obtained order s u h := by
  obtain ⟨token, reader, reader', registry, hrest, hread, hcontexts, hr, htoken⟩ := hs
  obtain ⟨registry', hcontexts', hr', hle⟩ := ht.contexts registry hcontexts hr
  exact ⟨token, reader, reader', registry', hrest, hread, hcontexts', hr', hle h token htoken⟩

theorem Obtained.behind {order : ByteOrder} (hs : Retains closed s t) (ht : Obtained order t u h) :
    Obtained order s u h := by
  obtain ⟨token, reader, reader', registry, hrest, h⟩ := ht
  exact ⟨token, reader, reader', registry, hrest.trans hs.rest, h⟩

/-- There is a registry, in which handles are distinct. -/
def State.Registered (s : State) : Prop := ∃ r, s.contexts = some r ∧ r.Distinct

theorem State.Registered.retains (hs : s.Registered) (ht : Retains closed s t) : t.Registered := by
  obtain ⟨r, hr, hdistinct⟩ := hs
  obtain ⟨r', hr', hdistinct', -⟩ := ht.contexts r hr hdistinct
  exact ⟨r', hr', hdistinct'⟩

/-- A parameter that held a handle lets go of it: a client has read the null token for it. -/
structure GivesUp (env : Env) (params : List Value) (p : Parameter) (v : Value) (h : ContextHandle) :
    Prop where
  side : env.side = .client
  passes : ∃ direction, p.descriptor.form = .context direction
  held : params[p.index]? = some (.context (some h))
  returned : v = .context none

/-- What becomes of the registry where a context is read. -/
theorem retains_getContext {direction : ContextDirection} {current v : Value}
    (e : getContext env direction current s = .ok v t) :
    ∃ closed, Retains closed s t ∧
      (∀ h, h ∈ closed ↔
        env.side = .client ∧ current = .context (some h) ∧ v = .context none) ∧
      (s.Registered → ∀ h, v = .context (some h) → Obtained env.order s t h) := by
  obtain ⟨registry, token, reader, hregistry, hread, hcases⟩ := getContext_eq_ok e
  obtain ⟨bytes, -, hbytes⟩ := passes_getToken env.order hread
  have hrest : reader.rest <:+ s.reader.rest := ⟨bytes, hbytes.symm⟩
  have hdistinct : s.Registered → registry.Distinct := by
    rintro ⟨r, hr, hdistinct⟩
    exact Option.some.inj (hregistry.symm.trans hr) ▸ hdistinct
  rcases hcases with ⟨hside, g, hresolve, rfl, rfl⟩ | ⟨hside, -, rfl, rfl⟩ |
    ⟨hside, -, rfl, adopted, rfl⟩
  · -- a server looks the token up
    refine ⟨[], .of_eq hrest rfl rfl, fun h => by simp [hside], fun hs => ?_⟩
    rintro h ⟨⟩
    have hr := hdistinct hs
    exact ⟨token, s.reader, reader, registry, List.suffix_rfl, hread, hregistry, hr,
      hr.token?_of_mem (Registry.mem_of_resolve? (resolveContext_eq_some hresolve).2)⟩
  · -- the null token
    refine ⟨current.context?.toOption.join.toList, .of_eq hrest rfl rfl, fun h => ?_, fun _ => nofun⟩
    cases current <;> simp [Value.context?, hside, Except.toOption, eq_comm]
  · -- a token that a client holds from then on
    refine ⟨[], ⟨hrest, fun r hr hdistinct' => ?_, rfl⟩, fun h => by simp, fun hs => ?_⟩
    · obtain rfl := Option.some.inj (hregistry.symm.trans hr)
      exact ⟨_, rfl, hdistinct'.adopt token, Registry.le_adopt registry token⟩
    · rintro h ⟨⟩
      have hr := hdistinct hs
      exact ⟨token, s.reader, reader, _, List.suffix_rfl, hread, rfl, hr.adopt token,
        hr.token?_adopt token⟩

theorem composes_retains (env : Env) : ComposesInside env (Moves (Retains [])) :=
  composesInside_of_moves (fun _ _ hrest hcontexts hclosed _ _ => .of_eq hrest hcontexts hclosed)
    .trans
    (fun direction s v t e => by
      obtain ⟨closed, hretains, hclosed, -⟩ := retains_getContext e
      obtain rfl : closed = [] := List.eq_nil_iff_forall_not_mem.2 fun h hm =>
        nomatch ((hclosed h).1 hm).2.1
      exact hretains)
    fun _ _ _ _ _ _ e => by
      rcases checkBound_eq_ok e with ⟨-, rfl⟩ | ⟨-, rfl⟩ <;> exact .of_eq List.suffix_rfl rfl rfl

/-- Scopes make no difference to contexts. -/
theorem relatesScoped_retains (env : Env) : RelatesScoped env fun x _ => Moves (Retains []) x where
  toRelatesUnscoped := (composes_retains env).toRelatesUnscoped
  openScope _ s _ t e := by
    obtain ⟨-, rfl⟩ := openScope_eq_ok.1 e
    exact .of_eq List.suffix_rfl rfl rfl
  setField _ _ _ s _ t e := by
    obtain rfl := setField_eq_ok.1 e
    exact .of_eq List.suffix_rfl rfl rfl
  keepLate _ _ s _ t e := by
    obtain rfl := modify_eq_ok.1 e
    exact .of_eq List.suffix_rfl rfl rfl
  verifyLate _ s _ t e := by
    obtain ⟨-, rfl⟩ := verifyLate_eq_ok.1 e
    exact .of_eq List.suffix_rfl rfl rfl

/-- No value closes a context or loses one: contexts that take the place of another are parameters. -/
theorem retains_walk (env : Env) (room : Nat) (d : Descriptor) (site : Site ScopeId) :
    Moves (Retains []) (walk env room d site) :=
  (composes_retains env).walk
    (fun hw kind _ site => (relatesScoped_retains env).getStruct (relatesWalks hw) (.refl env _)
      (fun _ _ _ _ => trivial) rfl (fun _ _ _ _ => trivial) kind site)
    (fun hw align layout _ site => (relatesScoped_retains env).getNested (relatesWalks hw) (.refl env)
      align layout (fun _ _ => trivial) site)
    room d site

/-! ### Parameters -/

variable {params : List Value} {scope : ScopeId} {p : Parameter} {list : List Parameter}

/-- What becomes of contexts where a parameter is read. -/
theorem readParameter_retains {v : Nat × Value} (e : readParameter env params scope p s = .ok v t) :
    v.1 = p.index ∧ ∃ closed, Retains closed s t ∧ (∀ h, h ∈ closed ↔ GivesUp env params p v.2 h) ∧
      (s.Registered → ∀ direction h, p.descriptor.form = .context direction →
        v.2 = .context (some h) → Obtained env.order s t h) := by
  obtain ⟨current, w, s1, s2, hcurrent, hread, hflush, rfl, rfl⟩ := readParameter_eq_ok e
  have hC := composes_retains env
  have hrest : Retains [] s1
      { s2 with scopes := enter s2.scopes scope p.index (correlationOf s2.heap w) } := by
    have h : Retains [] s1 s2 := hC.flush (retains_walk env _) hflush
    exact ⟨h.rest, h.contexts, h.closed⟩
  refine ⟨rfl, ?_⟩
  by_cases hform : ∃ direction, p.descriptor.form = .context direction
  · obtain ⟨direction, hform⟩ := hform
    unfold getParameter at hread
    simp only [hform] at hread
    obtain ⟨closed, hretains, hclosed, hobtained⟩ := retains_getContext hread
    refine ⟨closed, hretains.trans hrest, fun h => ?_, fun hs _ h _ hv => ?_⟩
    · rw [hclosed]
      constructor
      · rintro ⟨hside, rfl, hv⟩
        exact ⟨hside, ⟨direction, hform⟩, hcurrent, hv⟩
      · intro hgives
        exact ⟨hgives.side, Option.some.inj (hcurrent.symm.trans hgives.held), hgives.returned⟩
    · exact (hobtained hs h hv).retains hrest
  · have hretains := hC.getParameter (retains_walk env _) p.descriptor current _
      (fun direction h => absurd ⟨direction, h⟩ hform) hread
    refine ⟨[], hretains.trans hrest, fun h => ?_, fun _ direction h hd => absurd ⟨direction, hd⟩ hform⟩
    simp only [List.not_mem_nil, false_iff]
    exact fun hgives => hform hgives.passes

/-- What becomes of contexts where parameters are read in turn. -/
theorem readParameters_retains {values : List (Nat × Value)}
    (e : list.mapM (readParameter env params scope) s = .ok values t) :
    values.map Prod.fst = list.map Parameter.index ∧ ∃ closed, Retains closed s t ∧
      (∀ h, h ∈ closed ↔ ∃ q v, (q, v) ∈ list.zip values ∧ GivesUp env params q v.2 h) ∧
      (s.Registered → ∀ q v direction h, (q, v) ∈ list.zip values →
        q.descriptor.form = .context direction → v.2 = .context (some h) →
          Obtained env.order s t h) := by
  induction list generalizing s values with
  | nil =>
    rw [List.mapM_nil] at e
    obtain ⟨rfl, rfl⟩ := pure_eq_ok.1 e
    exact ⟨rfl, [], .of_eq List.suffix_rfl rfl rfl, by simp, by simp⟩
  | cons p list ih =>
    rw [List.mapM_cons] at e
    obtain ⟨v, s1, h1, e⟩ := bind_eq_ok.1 e
    obtain ⟨values, _, h2, e⟩ := bind_eq_ok.1 e
    obtain ⟨rfl, rfl⟩ := pure_eq_ok.1 e
    obtain ⟨hindex, first, hfirst, hfirst', hobtained⟩ := readParameter_retains h1
    obtain ⟨hindices, rest, hrest, hrest', hobtained'⟩ := ih h2
    refine ⟨by rw [List.map_cons, List.map_cons, hindex, hindices], rest ++ first,
      hfirst.trans hrest, fun h => ?_, fun hs q w direction h hm => ?_⟩
    · simp only [List.mem_append, hfirst', hrest', List.zip_cons_cons, List.mem_cons, Prod.mk.injEq]
      constructor
      · rintro (⟨q, w, hm, hgives⟩ | hgives)
        · exact ⟨q, w, .inr hm, hgives⟩
        · exact ⟨p, v, .inl ⟨rfl, rfl⟩, hgives⟩
      · rintro ⟨q, w, ⟨rfl, rfl⟩ | hm, hgives⟩
        · exact .inr hgives
        · exact .inl ⟨q, w, hm, hgives⟩
    · rw [List.zip_cons_cons, List.mem_cons, Prod.mk.injEq] at hm
      rcases hm with ⟨rfl, rfl⟩ | hm
      · exact fun hd hv => (hobtained hs direction h hd hv).retains hrest
      · exact fun hd hv => (hobtained' (hs.retains hfirst) q w direction h hm hd hv).behind hfirst

/-- What becomes of contexts in a whole operation. -/
theorem getParameters_retains {offset : Nat} {values : List (Nat × Value)}
    (hlist : env.vector.parameters offset = .ok list)
    (e : getParameters env offset params s = .ok values t) :
    values.map Prod.fst = list.map Parameter.index ∧ ∃ closed, Retains closed s t ∧
      (∀ h, h ∈ closed ↔ ∃ q v, (q, v) ∈ list.zip values ∧ GivesUp env params q v.2 h) ∧
      (s.Registered → ∀ q v direction h, (q, v) ∈ list.zip values →
        q.descriptor.form = .context direction → v.2 = .context (some h) →
          Obtained env.order s t h) := by
  obtain ⟨list', u, hlist', hread, -, rfl⟩ := getParameters_eq_ok e
  obtain rfl := Except.ok.inj (hlist.symm.trans hlist')
  obtain ⟨hindices, closed, hretains, hclosed, hobtained⟩ := readParameters_retains hread
  -- the scope of the parameters is not a matter of contexts
  exact ⟨hindices, closed, ⟨hretains.rest, hretains.contexts, hretains.closed⟩, hclosed, hobtained⟩

end Unmarshal

/-! ### Operations -/

namespace Machine

variable {m : Machine} {world : Surroundings} {offset : Nat} {params results : List Value}
  {source : Source} {list : List Parameter} {registry : Registry} {p : Parameter}
  {direction : ContextDirection} {h : ContextHandle}

/-- A parameter that held a handle came back without one. -/
structure LetsGo (params results : List Value) (p : Parameter) (h : ContextHandle) : Prop where
  passes : ∃ direction, p.descriptor.form = .context direction
  held : params[p.index]? = some (.context (some h))
  returned : results[p.index]? = some (.context none)

/-- Every parameter of a list gets the value that was read for it, where no two have one index. -/
theorem replaced_beside {values : List (Nat × Value)}
    (hindices : values.map Prod.fst = list.map Parameter.index)
    (hnodup : (list.map Parameter.index).Nodup) (hindex : ∀ q ∈ list, q.index < params.length) :
    (∀ q ∈ list, ∃ v, (q, v) ∈ list.zip values) ∧
      ∀ q v, (q, v) ∈ list.zip values → (replace params values)[q.index]? = some v.2 := by
  have hall : List.Forall₂ (fun q v => v.1 = q.index) list values := by
    have hmap : List.Forall₂ Eq (values.map Prod.fst) (list.map Parameter.index) := by
      rw [List.forall₂_eq_eq_eq, hindices]
    rw [List.forall₂_map_left_iff, List.forall₂_map_right_iff] at hmap
    exact hmap.flip
  constructor
  · intro q hq
    rw [← List.map_fst_zip (Nat.le_of_eq hall.length_eq)] at hq
    obtain ⟨⟨_, v⟩, hm, rfl⟩ := List.mem_map.1 hq
    exact ⟨v, hm⟩
  · intro q v hm
    obtain ⟨hq, hv⟩ := List.of_mem_zip hm
    have heq : v.1 = q.index := (List.forall₂_iff_zip.1 hall).2 hm
    exact getElem?_replace_of_mem (hindices ▸ hnodup) (heq ▸ hv) (hindex q hq)

/-- **A handle that is returned stands for a token of the message**, and it is live unless another
parameter lets go of it: then it is forgotten, although it was handed out. -/
theorem isLive_returned_iff (hlist : m.interface.vector.parameters offset = .ok list)
    (hnodup : (list.map Parameter.index).Nodup) (hworld : world.contexts = some registry)
    (hdistinct : registry.Distinct)
    (he : (m.unmarshal world offset params source).result = .ok results)
    (hp : p ∈ list) (hform : p.descriptor.form = .context direction)
    (hreturned : results[p.index]? = some (.context (some h))) :
    ∃ token reader reader' registry', reader.rest <:+ source.bytes ∧
      Unmarshal.getToken m.representation.integers reader = .ok token reader' ∧
      (m.unmarshal world offset params source).surroundings.contexts = some registry' ∧
      registry'.Distinct ∧ (∀ u, registry'.token? h = some u → u = token) ∧
      (registry'.isLive h ↔ m.side = .server ∨ ∀ q ∈ list, ¬LetsGo params results q h) := by
  obtain ⟨values, t, hrun, hresult, hsurroundings, -⟩ := unmarshal_eq_ok he
  obtain rfl := Except.ok.inj (hresult.symm.trans he)
  have hlist' : ({ m.startOperation with } : Unmarshal.Env).vector.parameters offset = .ok list := hlist
  have hindex := Unmarshal.index_lt_of_getParameters hlist' hrun
  obtain ⟨hindices, closed, hretains, hclosed, hobtained⟩ :=
    Unmarshal.getParameters_retains hlist' hrun
  obtain ⟨hexists, hbeside⟩ := replaced_beside hindices hnodup hindex
  have hlets : h ∈ closed ↔
      m.side = .client ∧ ∃ q ∈ list, LetsGo params (replace params values) q h := by
    rw [hclosed]
    constructor
    · rintro ⟨q, v, hm, hgives⟩
      exact ⟨hgives.side, q, (List.of_mem_zip hm).1, hgives.passes, hgives.held,
        (hbeside q v hm).trans (congrArg some hgives.returned)⟩
    · rintro ⟨hside, q, hq, hlets⟩
      obtain ⟨v, hm⟩ := hexists q hq
      exact ⟨q, v, hm, hside, hlets.passes, hlets.held,
        Option.some.inj ((hbeside q v hm).symm.trans hlets.returned)⟩
  obtain ⟨v, hm⟩ := hexists p hp
  obtain ⟨token, reader, reader', registry', hrest, htoken, hcontexts, hdistinct', hstands⟩ :=
    hobtained ⟨registry, hworld, hdistinct⟩ p v direction h hm hform
      (Option.some.inj ((hbeside p v hm).symm.trans hreturned))
  -- what was closed is forgotten last
  refine ⟨token, reader, reader', closed.reverse.foldl Registry.destroy registry', hrest, htoken, ?_,
    hdistinct'.destroy_all _, fun w hw => ?_, ?_⟩
  · rw [hsurroundings]
    simp [commit, hcontexts, hretains.closed]
  · rw [Registry.token?_destroy_all] at hw
    split at hw
    · exact absurd hw (by simp)
    · exact Option.some.inj (hw.symm.trans hstands)
  · have hlive : registry'.isLive h := Option.isSome_iff_exists.2 ⟨token, hstands⟩
    rw [Registry.isLive_destroy_all _ hlive, List.mem_reverse, hlets]
    cases m.side <;> simp

end Machine

end Ndr
