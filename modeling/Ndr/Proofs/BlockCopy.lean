import Ndr.Proofs.Lockstep.Element
import Ndr.Proofs.Unmarshal.Progress

/-!
Runs of bytes: elements of one byte that travel as a block are written and read as they are one by
one, whatever the chunks and whatever the transport does. A block takes no walk, so it looks at the
representation of characters even for no element, and at no limit on how deep descriptors open.
-/

namespace Ndr

/-! ### Writing -/

namespace Writer

variable {w w' : Writer} {bytes : List UInt8}

@[simp] theorem append_nil (w : Writer) : w.append [] = w := by
  unfold append
  cases hc : w.current with
  | none => cases w; cases hc; rfl
  | some c => cases w; cases hc; rfl

theorem append_cons (w : Writer) (b : UInt8) (bytes : List UInt8) :
    (w.append [b]).append bytes = w.append (b :: bytes) := by
  unfold append
  cases w.current with
  | none => simp [Nat.add_comm, Nat.add_left_comm]
  | some c => simp [List.reverseAux, Nat.sub_sub, Nat.add_comm, Nat.add_left_comm]

theorem room_append (w : Writer) (bytes : List UInt8) :
    (w.append bytes).room = w.room - bytes.length := by
  unfold append room
  cases w.current <;> simp

/-- A chunk with room takes the byte. -/
theorem putTogether_of_room (h : 0 < w.room) (b : UInt8) :
    putTogether [b] w = .ok () (w.append [b]) := by
  have hchunk : ¬(w.current.isNone ∨ w.room < [b].length) := by
    rintro (hnone | hlt)
    · rw [room, Option.isNone_iff_eq_none.1 hnone] at h
      exact Nat.lt_irrefl 0 h
    · exact Nat.lt_irrefl 0 (Nat.lt_of_lt_of_le h (Nat.le_of_lt_succ hlt))
  refine bind_eq_ok.2 ⟨(), w, ?_, rfl⟩
  exact bind_eq_ok.2 ⟨w, w, rfl, by rw [if_neg hchunk]; rfl⟩

/-- A new chunk has room for a byte. -/
theorem room_nextChunk {u : Unit} (hb : 8 ≤ w.bufferSize) (h : nextChunk w = .ok u w') :
    0 < w'.room ∧ 8 ≤ w'.bufferSize := by
  obtain ⟨hwrote, hcurrent⟩ := wrote_nextChunk h
  refine ⟨?_, hwrote.bufferSize ▸ hb⟩
  have hroom : w'.room = w.bufferSize - w.position % 8 := by rw [room, hcurrent]
  omega

/-- Behind a full chunk a byte opens the next. -/
theorem putTogether_of_full (hb : 8 ≤ w.bufferSize) (h : w.room = 0) (b : UInt8) :
    putTogether [b] w = (do nextChunk; putTogether [b]) w := by
  have hchunk : w.current.isNone ∨ w.room < [b].length := .inr (by rw [h]; exact Nat.one_pos)
  cases hnext : nextChunk w with
  | error e w' =>
    rw [bind_of_error hnext]
    refine bind_of_error ((bind_of_ok rfl _).trans ?_) _
    rw [if_pos hchunk]
    exact bind_of_error hnext _
  | ok u w' =>
    obtain ⟨hroom, -⟩ := room_nextChunk hb hnext
    rw [bind_of_ok hnext, putTogether_of_room hroom]
    have hfits : ¬w'.room < [b].length := Nat.not_lt.2 hroom
    refine bind_eq_ok.2 ⟨(), w', (bind_of_ok rfl _).trans ?_, rfl⟩
    rw [if_pos hchunk]
    refine (bind_of_ok hnext _).trans ((bind_of_ok rfl _).trans ?_)
    rw [if_neg hfits]
    rfl

/-- Write bytes one by one. -/
def putBytes (bytes : List UInt8) : Put Unit := bytes.forM fun b => putTogether [b]

theorem putBytes_cons (b : UInt8) (bytes : List UInt8) :
    putBytes (b :: bytes) = (do putTogether [b]; putBytes bytes) := rfl

theorem putBytes_append (bytes bytes' : List UInt8) :
    putBytes (bytes ++ bytes') = (do putBytes bytes; putBytes bytes') := by
  induction bytes with
  | nil => rfl
  | cons b bytes ih => rw [List.cons_append, putBytes_cons, ih, putBytes_cons, bind_assoc]

/-- Bytes for which a chunk has room fill it. -/
theorem putBytes_of_room (h : bytes.length ≤ w.room) :
    putBytes bytes w = .ok () (w.append bytes) := by
  induction bytes generalizing w with
  | nil => exact pure_eq_ok.2 ⟨rfl, (append_nil w).symm⟩
  | cons b bytes ih =>
    rw [List.length_cons] at h
    have hrest : bytes.length ≤ (w.append [b]).room := by
      rw [room_append, List.length_singleton]
      omega
    rw [putBytes_cons, bind_of_ok (putTogether_of_room (by omega) b), ih hrest, append_cons]

theorem putBytes_of_full (hb : 8 ≤ w.bufferSize) (h : w.room = 0) (hne : bytes ≠ []) :
    putBytes bytes w = (do nextChunk; putBytes bytes) w := by
  obtain ⟨b, bytes, rfl⟩ := List.exists_cons_of_ne_nil hne
  rw [putBytes_cons, ← bind_assoc]
  exact bind_of_eq (putTogether_of_full hb h b) _

theorem putRunFrom_eq_putBytes {fuel : Nat} (hb : 8 ≤ w.bufferSize) (hf : bytes.length ≤ fuel) :
    putRunFrom fuel bytes w = putBytes bytes w := by
  induction fuel generalizing bytes w with
  | zero =>
    obtain rfl := List.length_eq_zero_iff.1 (Nat.le_zero.1 hf)
    rfl
  | succ fuel ih =>
    by_cases hne : bytes = []
    · subst hne
      rfl
    have hpos : 0 < bytes.length := List.length_pos_iff.2 hne
    -- a chunk with room takes what fits, and the rest is a shorter run
    have hrest : ∀ {w : Writer}, 8 ≤ w.bufferSize → 0 < w.room →
        putRunFrom fuel (bytes.drop w.room) (w.append (bytes.take w.room)) = putBytes bytes w := by
      intro w hb hr
      have hlength : (bytes.drop w.room).length ≤ fuel := by
        rw [List.length_drop]
        omega
      have hfits := putBytes_of_room (w := w) (List.length_take_le w.room bytes)
      calc putRunFrom fuel (bytes.drop w.room) (w.append (bytes.take w.room))
          = putBytes (bytes.drop w.room) (w.append (bytes.take w.room)) := ih hb hlength
        _ = (do putBytes (bytes.take w.room); putBytes (bytes.drop w.room)) w := by
            rw [bind_of_ok hfits]
        _ = putBytes bytes w := by rw [← putBytes_append, List.take_append_drop]
    obtain ⟨b, bs, hbs⟩ := List.exists_cons_of_ne_nil hne
    have hstep : putRunFrom (fuel + 1) bytes = (do
        if (← get).room = 0 then nextChunk
        let room := (← get).room
        modify (·.append (bytes.take room))
        putRunFrom fuel (bytes.drop room)) := by
      rw [hbs]
      rfl
    rw [hstep]
    refine (bind_of_ok rfl _).trans ?_
    split
    · rename_i hfull
      rw [putBytes_of_full hb hfull hne]
      cases hnext : nextChunk w with
      | error e w' => rw [bind_of_error hnext, bind_of_error hnext]
      | ok u w' =>
        obtain ⟨hroom, hb'⟩ := room_nextChunk hb hnext
        rw [bind_of_ok hnext, bind_of_ok hnext]
        exact hrest hb' hroom
    · rename_i hroom
      exact hrest hb (Nat.pos_of_ne_zero hroom)

/-- A run is written as its bytes are one by one. -/
theorem putRun_eq_putBytes (hb : 8 ≤ w.bufferSize) (bytes : List UInt8) :
    putRun bytes w = putBytes bytes w :=
  putRunFrom_eq_putBytes hb (Nat.le_refl _)

/-- A byte is not aligned. -/
theorem putScalar_ofByte (r : Representation) {kind : Scalar}
    (hk : kind = .byte ∨ kind = .usmall ∨ kind = .char) (b : UInt8) :
    putScalar r kind (kind.ofByte b) = (do kind.checkRepresentation r; putTogether [b]) := by
  have halign : align 1 = pure () := by
    funext w
    refine (bind_of_ok (get_eq_ok.2 ⟨rfl, rfl⟩) _).trans ?_
    simp [padding]
  have hencode : ∀ order : ByteOrder, order.encode 1 b.toNat = [b] := by
    intro order
    cases order <;> simp [ByteOrder.encode, leastFirst]
  have henum : ∀ v, kind.checkEnum v = .ok () := by
    rcases hk with rfl | rfl | rfl <;> exact fun _ => rfl
  have hsize : kind.size = 1 := by rcases hk with rfl | rfl | rfl <;> rfl
  unfold putScalar putWord
  rw [hsize, halign, word?_ofByte hk, henum, pure_bind]
  dsimp only
  rw [hencode]
  rfl

end Writer

namespace Marshal

variable {env : Env} {x : Site Scope} {element : Descriptor} {kind : Scalar} {room : Nat}
  {elements : List Value} {s : State}

/-- Elements of one byte go out as a block; no walk is taken. -/
theorem putElements_block (walk : Walk) (hk : element.byteElement? = some kind)
    (bytes : List UInt8) :
    putElements env walk element (bytes.map kind.ofByte) x = (do
      kind.checkRepresentation env.representation
      put (Writer.putRun bytes)) := by
  obtain ⟨-, -, hbyte⟩ := byteElement?_eq_some hk
  have hofByte : kind.byteOf? ∘ kind.ofByte = some := by
    rcases hbyte with rfl | rfl | rfl <;> rfl
  have hbytes : (bytes.map kind.ofByte).filterMap kind.byteOf? = bytes := by
    rw [List.filterMap_map, hofByte, List.filterMap_some]
  unfold putElements putByteRun
  simp [hk, hbytes]

/-- For no element a block still looks at the representation. -/
theorem putElements_nil (walk : Walk) (hk : element.byteElement? = some kind) :
    putElements env walk element [] x = liftM (kind.checkRepresentation env.representation) := by
  rw [← List.map_nil (f := kind.ofByte), putElements_block walk hk]
  exact bind_pure _

/-- Where one of the elements is of another type, they go one by one. -/
theorem putElements_of_mixed (walk : Walk) (h : ∀ kind, element.byteElement? = some kind →
      ∀ bytes : List UInt8, elements ≠ bytes.map kind.ofByte) :
    putElements env walk element elements x = elements.forM fun v => walk element v x := by
  unfold putElements putByteRun
  cases hk : element.byteElement? with
  | none => simp
  | some kind =>
    have hmixed : (elements.filterMap kind.byteOf?).length ≠ elements.length :=
      fun hlength => h kind hk _ (eq_map_ofByte rfl hlength)
    simp [hmixed]

theorem walk_ofByte (hk : element.byteElement? = some kind) (b : UInt8) :
    walk env (room + 1) element (kind.ofByte b) x = (do
      kind.checkRepresentation env.representation
      put (Writer.putTogether [b])) := by
  obtain ⟨-, -, hbyte⟩ := byteElement?_eq_some hk
  rw [Lockstep.putWalk_of_byteElement hk, Writer.putScalar_ofByte _ hbyte]
  cases kind.checkRepresentation env.representation <;> rfl

theorem forM_walk_ofByte (hk : element.byteElement? = some kind)
    (hr : kind.checkRepresentation env.representation = .ok ()) (bytes : List UInt8) :
    ((bytes.map kind.ofByte).forM fun v => walk env (room + 1) element v x) =
      put (Writer.putBytes bytes) := by
  induction bytes with
  | nil => rfl
  | cons b bytes ih =>
    have hfirst : walk env (room + 1) element (kind.ofByte b) x = put (Writer.putTogether [b]) := by
      rw [walk_ofByte hk, hr]
      rfl
    rw [Writer.putBytes_cons, put_bind, ← ih, ← hfirst]
    rfl

/-- **A block is written as its elements are one by one**: the same bytes into the same chunks, or the
same fault with as much written before it. It takes an element, or a representation that its type can
travel in. -/
theorem putElements_one_by_one (hb : 8 ≤ s.writer.bufferSize)
    (hr : elements = [] → ∀ kind, element.byteElement? = some kind →
      kind.checkRepresentation env.representation = .ok ()) :
    putElements env (walk env (room + 1)) element elements x s =
      (elements.forM fun v => walk env (room + 1) element v x) s := by
  by_cases hmixed : ∀ kind, element.byteElement? = some kind →
      ∀ bytes : List UInt8, elements ≠ bytes.map kind.ofByte
  · rw [putElements_of_mixed _ hmixed]
  push Not at hmixed
  obtain ⟨kind, hk, bytes, rfl⟩ := hmixed
  rw [putElements_block _ hk]
  cases hcheck : kind.checkRepresentation env.representation with
  | ok =>
    rw [forM_walk_ofByte hk hcheck]
    show put (Writer.putRun bytes) s = put (Writer.putBytes bytes) s
    unfold put onPart
    rw [Writer.putRun_eq_putBytes hb]
  | error e =>
    -- the first element meets the same fault
    cases bytes with
    | nil => exact absurd (hr rfl kind hk) (by rw [hcheck]; simp)
    | cons b bytes =>
      have hfirst : walk env (room + 1) element (kind.ofByte b) x s = .error e s := by
        rw [walk_ofByte hk, hcheck]
        rfl
      exact (bind_of_error hfirst _).symm

end Marshal

/-! ### Reading -/

section

variable {σ α β : Type}

theorem repeatM_add (m n : Nat) (x : EStateM Fault σ α) :
    repeatM (m + n) x = (do let as ← repeatM m x; (as ++ ·) <$> repeatM n x) := by
  induction m with
  | zero =>
    rw [Nat.zero_add]
    exact (id_map' (repeatM n x)).symm
  | succ m ih =>
    rw [Nat.succ_add, repeatM_succ, repeatM_succ, ih]
    simp only [bind_assoc, map_bind, bind_map_left, Functor.map_map, List.cons_append]

theorem repeatM_map (n : Nat) (f : α → β) (x : EStateM Fault σ α) :
    repeatM n (f <$> x) = List.map f <$> repeatM n x := by
  induction n with
  | zero => rfl
  | succ n ih =>
    rw [repeatM_succ, repeatM_succ, ih]
    simp only [map_bind, bind_map_left, Functor.map_map, List.map_cons]

end

namespace Reader

variable {r r' : Reader} {n : Nat} {α : Type}

theorem ensure_of_le (h : n ≤ r.current.length) : ensure n r = .ok () r := by
  have hhas := hasAtLeast_iff.2 h
  have hall : ∀ ds, ensureFrom n ds r = .ok () r := by
    rintro (_ | ⟨_ | _, _⟩) <;> simp [ensureFrom, hhas]
  exact bind_eq_ok.2 ⟨r, r, rfl, hall _⟩

/-- Read a byte. -/
def getByte : Fetch UInt8 := return (← getTogether 1).headD 0

theorem getByte_of_cons {b : UInt8} {bytes : List UInt8} (h : r.current = b :: bytes) :
    getByte r = .ok b (r.pass 1) := by
  have hensure : ensure 1 r = .ok () r := ensure_of_le (by rw [h]; exact Nat.le_add_left 1 _)
  have htogether : getTogether 1 r = .ok [b] (r.pass 1) :=
    bind_eq_ok.2 ⟨(), r, hensure, modifyGet_eq_ok.2 (by rw [h]; rfl)⟩
  exact bind_eq_ok.2 ⟨_, _, htogether, rfl⟩

/-- What comes behind a byte that stands ready may make sure of it again. -/
theorem ensure_twice (x : Fetch α) (r : Reader) :
    (do ensure 1; x) r = (do ensure 1; ensure 1; x) r := by
  cases hensure : ensure 1 r with
  | error e r' => rw [bind_of_error hensure, bind_of_error hensure]
  | ok u r' =>
    rw [bind_of_ok hensure, bind_of_ok hensure, bind_of_ok (ensure_of_le (rest_ensure hensure).2)]

theorem repeatM_getByte_behind_ensure (hn : n ≠ 0) (r : Reader) :
    repeatM n getByte r = (do ensure 1; repeatM n getByte) r := by
  obtain ⟨n, rfl⟩ := Nat.exists_eq_succ_of_ne_zero hn
  rw [repeatM_succ]
  simp only [getByte, getTogether, bind_assoc]
  exact ensure_twice _ r

theorem repeatM_getByte_of_le (h : n ≤ r.current.length) :
    repeatM n getByte r = .ok (r.current.take n) (r.pass n) := by
  induction n generalizing r with
  | zero => rfl
  | succ n ih =>
    obtain ⟨b, bytes, hcurrent⟩ := List.exists_cons_of_ne_nil (l := r.current) (by
      rintro hnil
      simp [hnil] at h)
    have hrest : (r.pass 1).current = bytes := by rw [pass, hcurrent]; rfl
    have hpass : (r.pass 1).pass n = r.pass (n + 1) := by
      simp [pass, Nat.add_comm, Nat.add_left_comm]
    have hn : n ≤ (r.pass 1).current.length := by
      rw [hcurrent, List.length_cons] at h
      rw [hrest]
      omega
    have hread := ih hn
    rw [hrest, hpass] at hread
    rw [repeatM_succ, bind_of_ok (getByte_of_cons hcurrent), hcurrent]
    exact map_eq_ok.2 ⟨_, hread, rfl⟩

/-- What a chunk holds of a run is taken at once. -/
theorem getRunFrom_of_pos (fuel : Nat) (before : List (List UInt8)) (h : 0 < r.current.length)
    {k : Nat} (hk : k = min (n + 1) r.current.length) :
    getRunFrom (fuel + 1) (n + 1) before r =
      getRunFrom fuel (n + 1 - k) (r.current.take k :: before) (r.pass k) := by
  have hne : ¬r.current.isEmpty := by simpa using List.length_pos_iff.1 h
  have htake : r.current.take (n + 1) = r.current.take k := by
    rw [hk, ← List.take_take, List.take_length]
  have hdrop : r.current.drop (n + 1) = r.current.drop k := by
    rw [hk]
    rcases Nat.le_total (n + 1) r.current.length with hle | hle
    · rw [Nat.min_eq_left hle]
    · rw [Nat.min_eq_right hle, List.drop_length, List.drop_of_length_le hle]
  have hlength : (r.current.take k).length = k := by
    rw [List.length_take]
    omega
  conv_lhs => unfold getRunFrom
  refine (bind_of_ok rfl _).trans ?_
  rw [if_neg hne]
  refine (bind_of_ok (modifyGet_eq_ok.2 rfl) _).trans ?_
  rw [htake, hdrop, hlength]
  rfl

theorem getRunFrom_behind_ensure (fuel : Nat) (before : List (List UInt8)) (r : Reader) :
    getRunFrom (fuel + 1) (n + 1) before r =
      (do ensure 1; getRunFrom (fuel + 1) (n + 1) before) r := by
  by_cases hempty : r.current.isEmpty
  · conv_lhs => unfold getRunFrom
    refine (bind_of_ok rfl _).trans ?_
    rw [if_pos hempty]
    cases hensure : ensure 1 r with
    | error e r' => rw [bind_of_error hensure, bind_of_error hensure]
    | ok u r' =>
      have hne : ¬r'.current.isEmpty := by
        simpa using List.length_pos_iff.1 (rest_ensure hensure).2
      rw [bind_of_ok hensure, bind_of_ok hensure]
      conv_rhs => unfold getRunFrom
      refine .trans ?_ (bind_of_ok rfl _).symm
      rw [if_neg hne]
  · have hpos : 0 < r.current.length := List.length_pos_iff.2 (by simpa using hempty)
    rw [bind_of_ok (ensure_of_le hpos)]

theorem getRunFrom_eq_repeatM {fuel : Nat} (hf : n ≤ fuel) (before : List (List UInt8))
    (r : Reader) :
    getRunFrom fuel n before r = ((before.reverse.flatten ++ ·) <$> repeatM n getByte) r := by
  induction fuel generalizing n before r with
  | zero =>
    obtain rfl := Nat.le_zero.1 hf
    exact pure_eq_ok.2 ⟨(List.append_nil _).symm, rfl⟩
  | succ fuel ih =>
    obtain _ | n := n
    · exact pure_eq_ok.2 ⟨(List.append_nil _).symm, rfl⟩
    -- both sides may have a byte ready first
    rw [getRunFrom_behind_ensure, map_eq_pure_bind,
      bind_of_eq (repeatM_getByte_behind_ensure (Nat.succ_ne_zero n) r), bind_assoc,
      ← map_eq_pure_bind]
    cases hensure : ensure 1 r with
    | error e r' => rw [bind_of_error hensure, bind_of_error hensure]
    | ok u r' =>
      rw [bind_of_ok hensure, bind_of_ok hensure]
      have hpos : 0 < r'.current.length := (rest_ensure hensure).2
      obtain ⟨k, hk⟩ : ∃ k, k = min (n + 1) r'.current.length := ⟨_, rfl⟩
      have hsplit : n + 1 = k + (n + 1 - k) := by omega
      have hread : repeatM k getByte r' = .ok (r'.current.take k) (r'.pass k) :=
        repeatM_getByte_of_le (by omega)
      calc getRunFrom (fuel + 1) (n + 1) before r'
          = getRunFrom fuel (n + 1 - k) (r'.current.take k :: before) (r'.pass k) :=
            getRunFrom_of_pos fuel before hpos hk
        _ = (((r'.current.take k :: before).reverse.flatten ++ ·) <$> repeatM (n + 1 - k) getByte)
              (r'.pass k) := ih (by omega) _ _
        _ = (repeatM k getByte >>= fun as => (before.reverse.flatten ++ ·) <$> (as ++ ·) <$>
              repeatM (n + 1 - k) getByte) r' := by
            rw [bind_of_ok hread]
            simp [Functor.map_map]
        _ = ((before.reverse.flatten ++ ·) <$> repeatM (n + 1) getByte) r' := by
            conv_rhs => rw [hsplit, repeatM_add, map_bind]

/-- A run is read as its bytes are one by one. -/
theorem getRun_eq_repeatM (n : Nat) : getRun n = repeatM n getByte := by
  funext r
  refine (getRunFrom_eq_repeatM (Nat.le_refl n) [] r).trans ?_
  exact congrFun (id_map' (repeatM n getByte)) r

theorem getTogether_one {bytes : List UInt8} (e : getTogether 1 r = .ok bytes r') :
    ∃ b, bytes = [b] := by
  obtain ⟨_, t, hensure, e⟩ := bind_eq_ok.1 e
  obtain ⟨rfl, -⟩ := Prod.mk.inj (modifyGet_eq_ok.1 e)
  exact List.length_eq_one_iff.1 (List.length_take_of_le (rest_ensure hensure).2)

/-- An element of one byte is the byte that stands for it. -/
theorem getScalar_byte (rep : Representation) {kind : Scalar}
    (hk : kind = .byte ∨ kind = .usmall ∨ kind = .char) :
    getScalar rep kind = (do kind.checkRepresentation rep; kind.ofByte <$> getByte) := by
  have halign : align 1 = pure () := by
    funext r
    refine (bind_of_ok (get_eq_ok.2 ⟨rfl, rfl⟩) _).trans ?_
    simp [padding]
  have hsize : kind.size = 1 := by rcases hk with rfl | rfl | rfl <;> rfl
  have hdecode : ∀ b : UInt8, kind.ofWord (rep.integers.decode [b]) = kind.ofByte b := by
    intro b
    cases rep.integers <;> rcases hk with rfl | rfl | rfl <;>
      simp [ByteOrder.decode, ofLeastFirst, Scalar.ofWord, Scalar.ofByte]
  have henum : ∀ v, kind.checkEnum v = .ok () := by
    rcases hk with rfl | rfl | rfl <;> exact fun _ => rfl
  unfold getScalar
  rw [hsize, halign, pure_bind]
  congr 1
  funext _ r
  simp only [getWord, getByte, henum, map_bind, map_pure, bind_assoc, pure_bind]
  cases e : getTogether 1 r with
  | error e' r' => rw [bind_of_error e, bind_of_error e]
  | ok bytes r' =>
    obtain ⟨b, rfl⟩ := getTogether_one e
    rw [bind_of_ok e, bind_of_ok e, hdecode]
    rfl

end Reader

namespace Unmarshal

variable {env : Env} {y : Site ScopeId} {element : Descriptor} {kind : Scalar} {n room : Nat}

theorem fetch_map {α β : Type} (f : α → β) (x : Fetch α) : fetch (f <$> x) = f <$> fetch x := by
  rw [map_eq_pure_bind, map_eq_pure_bind, Lockstep.fetch_bind]
  rfl

theorem walk_byte (hk : element.byteElement? = some kind) :
    walk env (room + 1) element y = (do
      kind.checkRepresentation env.representation
      kind.ofByte <$> fetch Reader.getByte) := by
  obtain ⟨-, -, hbyte⟩ := byteElement?_eq_some hk
  -- any reader is the partner of some writer
  let writer : Marshal.Env := { env with heap := {}, contexts := none, deleted := [] }
  have hwalk : walk (writer.receiver env.side env.previous) (room + 1) element y =
      fetch (Reader.getScalar env.representation kind) :=
    Lockstep.walk_of_byteElement env.side env.previous hk
  refine hwalk.trans ?_
  rw [Reader.getScalar_byte _ hbyte, ← fetch_map]
  cases kind.checkRepresentation env.representation <;> rfl

/-- Elements of one byte come in as a block; no walk is taken. -/
theorem getElements_block (walk : Walk) (hk : element.byteElement? = some kind) (n : Nat) :
    getElements env walk element n y = (do
      checkCount env n
      kind.checkRepresentation env.representation
      List.map kind.ofByte <$> fetch (Reader.getRun n)) := by
  unfold getElements
  simp only [hk, map_eq_pure_bind]

/-- For no element a block still looks at the representation. -/
theorem getElements_nil (walk : Walk) (hk : element.byteElement? = some kind) :
    getElements env walk element 0 y = (do
      kind.checkRepresentation env.representation
      return []) := by
  have hcount : checkCount env 0 = .ok () := if_pos (Nat.zero_le _)
  rw [getElements_block walk hk, hcount]
  rfl

/-- **A block is read as its elements are one by one**: the same values from the same chunks, or the
same fault where the message ends. It takes an element, or a representation that its type can travel
in, and a number of elements that a message may announce. -/
theorem getElements_one_by_one (hn : n ≤ env.config.maxElements)
    (hr : n = 0 → ∀ kind, element.byteElement? = some kind →
      kind.checkRepresentation env.representation = .ok ()) :
    getElements env (walk env (room + 1)) element n y =
      repeatM n (walk env (room + 1) element y) := by
  have hcount : checkCount env n = .ok () := if_pos hn
  cases hk : element.byteElement? with
  | none =>
    unfold getElements
    rw [hcount, hk, lift_ok_bind]
  | some kind =>
    rw [getElements_block _ hk, walk_byte hk, hcount, lift_ok_bind]
    cases hcheck : kind.checkRepresentation env.representation with
    | ok =>
      simp only [lift_ok_bind]
      rw [Reader.getRun_eq_repeatM, Lockstep.fetch_repeatM, repeatM_map]
    | error e =>
      -- the first element meets the same fault
      obtain _ | n := n
      · exact absurd (hr rfl kind hk) (by rw [hcheck]; simp)
      · rw [repeatM_succ, bind_assoc]
        rfl

end Unmarshal

end Ndr
