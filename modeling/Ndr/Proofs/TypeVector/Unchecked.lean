import Ndr.Proofs.Assembly.Finish
import Ndr.Proofs.TypeVector.Spending

/-!
Decoding ends, and stays in the vector. Reads are not checked here unless a scan checks them itself, and
what a scan asserts has to hold: it has no answer where it leaves the vector, breaks an assertion or goes
deeper than a number that is given. It has one whatever number is given above the size of the vector, and
it is always the same.
-/

namespace Ndr

namespace Unchecked

/-- A scan that need not have an answer. -/
abbrev Scan := ExceptT Fault (StateT Nat Option)

/-- No answer. -/
def stuck {α : Type} : Scan α := fun _ => none

variable (tv : TypeVector)

/-! ### Bytes and words -/

/-- The byte at an offset, which must be in the vector. -/
def peek (i : Nat) : Scan UInt8 :=
  match tv.bytes[i]? with
  | some b => pure b
  | none => stuck

def readByte : Scan UInt8 := do
  let here ← get
  if here < tv.size then
    let b ← peek tv here
    set (here + 1)
    return b
  else throw (.truncatedVector here 1)

def skip (n : Nat) : Scan Unit := do
  let here ← get
  if tv.size < here + n then throw (.truncatedVector here n)
  set (here + n)

def readWord : Scan UInt32 := do
  modify fun here => here + padding here 4
  let here ← get
  if here + 4 ≤ tv.size then
    let b₀ ← peek tv here
    let b₁ ← peek tv (here + 1)
    let b₂ ← peek tv (here + 2)
    let b₃ ← peek tv (here + 3)
    set (here + 4)
    return UInt32.ofNat (tv.order.decode [b₀, b₁, b₂, b₃])
  else throw (.truncatedVector here 4)

def readNat : Scan Nat := return (← readWord tv).toNat

def readOpcode : Scan Opcode := do
  let here ← get
  let b ← readByte tv
  match Opcode.ofByte? b with
  | some op => return op
  | none => throw (.unknownOpcode b here)

def expectEnd : Scan Unit := do
  let here ← get
  match ← readOpcode tv with
  | .endOfList => return
  | _ => throw (.invalidDescriptor here .expectedEnd)

/-! ### Descriptors -/

/-- The descriptors up to the end of a list, or of a nested struct, each of which `next` reads, in `n`
rounds at most. -/
def readFields (next : Scan (Option Descriptor)) (nested : Bool) :
    Nat → List Descriptor → Scan (List Descriptor)
  | 0, _ => stuck
  | n + 1, before => do
    let here ← get
    if here < tv.size then
      if (← peek tv here) = Opcode.endNested.toByte then
        if nested then
          set (here + 1)
          return before.reverse
        else throw (.invalidDescriptor here .unbalancedEnd)
      else
        match ← next with
        | some d => readFields next nested n (d :: before)
        | none =>
          if nested then throw (.invalidDescriptor here .unclosedNested)
          else return before.reverse
    else throw (.truncatedVector here 1)

/-- The rest of the descriptor that began at `start` with these modifiers, `none` at the end of a
list. Modifiers and nested structs take at most `n` levels. -/
def readDescriptorFrom : Nat → Nat → Modifiers → Scan (Option Descriptor)
  | 0, _, _ => stuck
  | n + 1, start, modifiers => do
    let here ← get
    let op ← readOpcode tv
    let found (form : TypeForm) : Option Descriptor := some { offset := start, modifiers, form }
    match op with
    | .endOfList =>
      if modifiers = {} then return none
      else throw (.invalidDescriptor here .danglingModifier)
    | .mark mark => readDescriptorFrom n start (modifiers.add mark)
    | .range =>
      let lower ← readWord tv
      let upper ← readWord tv
      readDescriptorFrom n start { modifiers with range := some (lower, upper) }
    | .freeRep =>
      let routine ← readNat tv
      readDescriptorFrom n start { modifiers with freeRep := some routine }
    | .scalar kind => return found (.scalar kind)
    | .struct kind =>
      let props ← readByte tv
      return found (.struct kind props (← readNat tv))
    | .beginNested =>
      let align ← TypeVector.checkAlign (← readByte tv) here
      let layout ← readNat tv
      return found (.nested align layout (← readFields tv (do readDescriptorFrom n (← get) {}) true n []))
    | .array kind =>
      let props ← readByte tv
      let dims ← readByte tv
      return found (.array kind props dims.toNat (← readNat tv))
    | .encapsulatedUnion =>
      let props ← readByte tv
      return found (.encapsulatedUnion props (← readNat tv))
    | .switchedUnion =>
      let props ← readByte tv
      let field ← readNat tv
      return found (.switchedUnion props field (← readNat tv))
    | .pointer kind =>
      let props ← readByte tv
      return found (.pointer kind props (← readNat tv))
    | .ignore => return found .ignore
    | .conversion kind =>
      let props ← readByte tv
      let routine ← readNat tv
      return found (.converted kind props routine (← readNat tv))
    | .pipe =>
      let props ← readByte tv
      return found (.pipe props (← readNat tv))
    | .context direction => return found (.context direction)
    | .align boundary => return found (.align boundary)
    | .deletedNodes => return found .deletedNodes
    | .void => return found .void
    | .unhosted opcode => return found (.unhosted opcode)
    | .noArm | .endNested => throw (.invalidDescriptor here .strayMarker)

def readDescriptor (n : Nat) : Scan (Option Descriptor) := do readDescriptorFrom tv n (← get) {}

/-! ### What stands at an offset -/

/-- The result of reading at an offset. -/
def readAt {α : Type} (offset : Nat) (scan : Scan α) : Option (Except Fault α) :=
  (scan offset).map Prod.fst

def stream (n offset : Nat) : Option (Except Fault Descriptor) :=
  readAt offset do
    match ← readDescriptor tv n with
    | some d =>
      expectEnd tv
      return d
    | none => throw (.invalidDescriptor offset .emptyStream)

def readParameter (n : Nat) : Scan Parameter := do
  let index ← readNat tv
  let here ← get
  match ← readDescriptor tv n with
  | some descriptor =>
    expectEnd tv
    return { index, descriptor }
  | none => throw (.invalidDescriptor here .bareParameter)

def parameters (n offset : Nat) : Option (Except Fault (List Parameter)) :=
  readAt offset do repeatM (← readNat tv) (readParameter tv n)

def structDefinition (n offset : Nat) : Option (Except Fault StructDefinition) :=
  readAt offset do
    let align ← readByte tv
    let props ← readByte tv
    skip tv 2
    let layout ← readNat tv
    let trailing ← readNat tv
    let fields ← readFields tv (readDescriptor tv n) false n []
    let align ← TypeVector.checkAlign align offset
    return { offset, align, props, layout, fields
             trailing := if trailing = TypeVector.noTrailing then none else some trailing }

def readBound : Scan Bound := do
  let kind ← readByte tv
  let fieldType ← readByte tv
  let operator ← readByte tv
  skip tv 1
  let value ← readWord tv
  return { kind := kind &&& BoundFlag.kindMask
           flags := kind &&& ~~~BoundFlag.kindMask
           fieldType, operator, value }

/-- Two bounds, which must take sixteen bytes. -/
def readBoundPair : Scan BoundPair := do
  let start ← get
  let lower ← readBound tv
  let upper ← readBound tv
  if (← get) - start = 16 then return { lower, upper } else stuck

/-- The definition of an array, once its dimensions are known. -/
def readElement (n offset : Nat) (dimensions : List Dimension) : Scan ArrayDefinition := do
  let here ← get
  match ← readDescriptor tv n with
  | some element =>
    expectEnd tv
    return { offset, dimensions, element }
  | none => throw (.invalidDescriptor here .noElement)

def arrayDefinition (n offset : Nat) (varying : Bool) : Option (Except Fault ArrayDefinition) :=
  readAt offset do
    let dims ← readByte tv
    if dims = 0 then throw (.invalidDescriptor offset .noDimensions)
    skip tv 3
    let bounds ← repeatM dims.toNat (readBoundPair tv)
    let limits ← if varying then some <$> repeatM dims.toNat (readBoundPair tv) else pure none
    readElement tv n offset (TypeVector.dimensionsOf bounds limits)

def unionDefinition (offset : Nat) : Option (Except Fault UnionDefinition) :=
  readAt offset do
    match ← readOpcode tv with
    | .scalar switch =>
      if !switch.isIntegral then throw (.invalidDescriptor offset .switchNotIntegral)
      let flags ← readByte tv
      let align ← readByte tv
      skip tv 1
      let armCount ← readNat tv
      let armsAt ← get
      let needed := (armCount + 1) * TypeVector.armWidth
      if tv.size < armsAt + needed then throw (.truncatedVector armsAt needed)
      let align ← TypeVector.checkAlign align offset
      return { offset, switch, align, armCount, armsAt,
               optional := flags &&& TypeVector.optionalFlag ≠ 0 }
    | _ => throw (.invalidDescriptor offset .switchNotIntegral)

/-! ### Answers -/

/-- How a scan with a bound ended. -/
def outcome {α : Type} : EStateM.Result Fault Nat α → Except Fault α × Nat
  | .ok a q => (.ok a, q)
  | .error e q => (.error e, q)

/-- From the position `p` on a scan has an answer, which is that of a scan with a bound. -/
def Answers {α : Type} (x : Scan α) (y : Ndr.Scan α) (p : Nat) : Prop := x p = some (outcome (y p))

/-- What follows starts from the answer, if there is one. -/
theorem bind_apply {α β : Type} (x : Scan α) (f : α → Scan β) (p : Nat) :
    (x >>= f) p = (x p).bind fun r => ExceptT.bindCont f r.1 r.2 := rfl

theorem get_bind_apply {α : Type} (f : Nat → Scan α) (p : Nat) : (get >>= f) p = f p p := rfl

namespace Answers

variable {α β : Type} {p : Nat}

theorem pure (a : α) : Answers (pure a) (pure a) p := rfl

theorem throw (e : Fault) : Answers (throw e : Scan α) (throw e) p := rfl

theorem bind {x : Scan α} {y : Ndr.Scan α} {f : α → Scan β} {g : α → Ndr.Scan β}
    (h : Answers x y p) (hf : ∀ a q, y p = .ok a q → Answers (f a) (g a) q) :
    Answers (x >>= f) (y >>= g) p := by
  unfold Answers at h
  unfold Answers
  rw [bind_apply, h]
  cases e : y p with
  | ok a q =>
    rw [bind_of_ok e]
    exact hf a q e
  | error f q =>
    rw [bind_of_error e]
    rfl

theorem get_bind {f : Nat → Scan β} {g : Nat → Ndr.Scan β} (h : Answers (f p) (g p) p) :
    Answers (get >>= f) (get >>= g) p := h

/-- A look at the position that only one of them takes. -/
theorem look_bind {f : Nat → Scan β} {y : Ndr.Scan β} (h : Answers (f p) y p) :
    Answers (get >>= f) y p := h

theorem set_bind {q : Nat} {f : PUnit → Scan β} {g : PUnit → Ndr.Scan β}
    (h : Answers (f ⟨⟩) (g ⟨⟩) q) : Answers (set q >>= f) (set q >>= g) p := h

theorem lift (x : Except Fault α) : Answers (liftM x) (liftM x) p := by
  cases x <;> rfl

theorem ite {c : Prop} [Decidable c] {x x' : Scan α} {y y' : Ndr.Scan α} (h : Answers x y p)
    (h' : Answers x' y' p) : Answers (if c then x else x') (if c then y else y') p := by
  split
  · exact h
  · exact h'

/-- The same answers at all positions of which `I` holds, which each run keeps to. -/
theorem repeatM {x : Scan α} {y : Ndr.Scan α} {I : Nat → Prop}
    (h : ∀ p, I p → Answers x y p ∧ ∀ ⦃a q⦄, y p = .ok a q → I q) (n : Nat) (hp : I p) :
    Answers (repeatM n x) (repeatM n y) p ∧ ∀ ⦃as q⦄, Ndr.repeatM n y p = .ok as q → I q := by
  have hfrom : ∀ (n : Nat) (before : List α) (p : Nat), I p →
      Answers (repeatFrom x n before) (repeatFrom y n before) p ∧
        ∀ ⦃as q⦄, repeatFrom y n before p = .ok as q → I q := by
    intro n
    induction n with
    | zero => exact fun before p hp => ⟨rfl, fun as q e => (pure_eq_ok.1 e).2 ▸ hp⟩
    | succ n ih =>
      intro before p hp
      obtain ⟨hone, hnext⟩ := h p hp
      refine ⟨hone.bind fun a q e => (ih _ q (hnext e)).1, fun as q e => ?_⟩
      obtain ⟨a, r, h1, h2⟩ := bind_eq_ok.1 e
      exact (ih _ r (hnext h1)).2 h2
  exact hfrom n [] p hp

theorem map (f : α → β) {x : Scan α} {y : Ndr.Scan α} (h : Answers x y p) :
    Answers (f <$> x) (f <$> y) p := by
  rw [map_eq_pure_bind, map_eq_pure_bind]
  exact h.bind fun _ _ _ => .pure _

theorem readAt {x : Scan α} {y : Ndr.Scan α} (h : Answers x y p) :
    Unchecked.readAt p x = some (TypeVector.readAt p y) := by
  unfold Unchecked.readAt TypeVector.readAt EStateM.run
  rw [show x p = some (outcome (y p)) from h]
  cases y p <;> rfl

end Answers

variable {tv : TypeVector} {p : Nat}

theorem peek_of_lt {i : Nat} (h : i < tv.bytes.size) : peek tv i = pure tv.bytes[i] := by
  unfold peek
  rw [Array.getElem?_eq_getElem h]

/-! ### Bytes and words -/

theorem answers_readByte : Answers (readByte tv) tv.readByte p := by
  refine .get_bind ?_
  by_cases h : p < tv.size
  · rw [if_pos h, peek_of_lt h, Array.getElem?_eq_getElem h]
    rfl
  · rw [if_neg h, Array.getElem?_eq_none (Nat.le_of_not_lt h)]
    rfl

theorem answers_skip (n : Nat) : Answers (skip tv n) (tv.skip n) p := by
  refine .get_bind ?_
  by_cases h : tv.size < p + n
  · rw [if_pos h, if_pos h]
    rfl
  · rw [if_neg h, if_neg h]
    rfl

/-- The bytes of a word, one by one. -/
theorem extract_word {here : Nat} (h : here + 4 ≤ tv.bytes.size) :
    (tv.bytes.extract here (here + 4)).toList
      = [tv.bytes[here], tv.bytes[here + 1], tv.bytes[here + 2], tv.bytes[here + 3]] := by
  refine List.ext_getElem (by simp; omega) fun k h1 h2 => ?_
  rw [Array.getElem_toList, Array.getElem_extract]
  simp only [List.length_cons, List.length_nil] at h2
  rcases k with _ | _ | _ | _ | k
  any_goals rfl
  omega

theorem answers_readWord : Answers (readWord tv) tv.readWord p := by
  have hmodify : Answers (modify fun here => here + padding here 4)
      (modify fun here => here + padding here 4) p := rfl
  refine hmodify.bind fun _ here e => .get_bind ?_
  unfold TypeVector.wordAt?
  by_cases h : here + 4 ≤ tv.size
  · have h' : here + 4 ≤ tv.bytes.size := h
    rw [if_pos h, if_pos h', extract_word h', peek_of_lt (i := here) (by omega),
      peek_of_lt (i := here + 1) (by omega), peek_of_lt (i := here + 2) (by omega),
      peek_of_lt (i := here + 3) (by omega)]
    rfl
  · have h' : ¬ here + 4 ≤ tv.bytes.size := h
    rw [if_neg h, if_neg h']
    rfl

theorem answers_readNat : Answers (readNat tv) tv.readNat p :=
  answers_readWord.bind fun _ _ _ => .pure _

theorem answers_readOpcode : Answers (readOpcode tv) tv.readOpcode p := by
  refine .get_bind (answers_readByte.bind fun b _ _ => ?_)
  cases Opcode.ofByte? b with
  | none => exact .throw _
  | some op => exact .pure _

theorem answers_expectEnd : Answers (expectEnd tv) tv.expectEnd p := by
  refine .get_bind (answers_readOpcode.bind fun op _ _ => ?_)
  cases op with
  | endOfList => exact .pure _
  | _ => exact .throw _

/-! ### Descriptors -/

/-- The descriptors of a list have an answer where each of them has one. -/
theorem answers_readFields {next : Scan (Option Descriptor)} {next' : Ndr.Scan (Option Descriptor)}
    {k : Nat} (hspends : tv.Spends TypeVector.cost next')
    (hnext : ∀ p, tv.size - p < k → Answers next next' p) (nested : Bool) (n m : Nat)
    (before : List Descriptor) (hp : tv.size - p < k) (hn : tv.size - p < n) (hm : tv.size - p < m) :
    Answers (readFields tv next nested n before) (tv.readFields next' nested m before) p := by
  induction n generalizing m before p with
  | zero => exact absurd hn (Nat.not_lt_zero _)
  | succ n ih =>
    obtain ⟨m, rfl⟩ := Nat.exists_eq_succ_of_ne_zero (Nat.ne_zero_of_lt hm)
    refine .get_bind ?_
    by_cases h : p < tv.size
    · rw [if_pos h, peek_of_lt h, Array.getElem?_eq_getElem h, pure_bind]
      refine .ite (.ite (.set_bind (.pure _)) (.throw _)) ?_
      refine (hnext p hp).bind fun d q e => ?_
      obtain ⟨hpq, -⟩ := hspends e
      cases d with
      | none => exact .ite (.throw _) (.pure _)
      | some d =>
        have hpos := d.count_pos
        simp only [TypeVector.cost, Option.elim] at hpq
        exact ih m (d :: before) (by omega) (by omega) (by omega)
    · rw [if_neg h, Array.getElem?_eq_none (Nat.le_of_not_lt h)]
      exact .throw _

/-- A descriptor has an answer: every modifier and every level of nesting takes a byte. -/
theorem answers_readDescriptorFrom (n fuel start : Nat) (m : Modifiers) (p : Nat)
    (hn : tv.size - p < n) (hp : tv.size - p < fuel) :
    Answers (readDescriptorFrom tv n start m) (tv.readDescriptorFrom fuel start m) p := by
  induction n generalizing fuel start m p with
  | zero => exact absurd hn (Nat.not_lt_zero _)
  | succ n ih =>
    obtain ⟨fuel, rfl⟩ := Nat.exists_eq_succ_of_ne_zero (Nat.ne_zero_of_lt hp)
    refine .get_bind (answers_readOpcode.bind fun op q e => ?_)
    have hq : p + 1 ≤ q ∧ q ≤ max p tv.size := TypeVector.spends_readOpcode e
    cases op with
    | endOfList => exact .ite (.pure _) (.throw _)
    | mark mark => exact ih _ _ _ _ (by omega) (by omega)
    | range =>
      refine answers_readWord.bind fun _ r e => answers_readWord.bind fun _ r' e' => ?_
      have hr : q + 4 ≤ r := (TypeVector.spends_readWord e).1
      have hr' : r + 4 ≤ r' := (TypeVector.spends_readWord e').1
      exact ih _ _ _ _ (by omega) (by omega)
    | freeRep =>
      refine answers_readNat.bind fun _ r e => ?_
      have hr : q + 4 ≤ r := (TypeVector.spends_readNat e).1
      exact ih _ _ _ _ (by omega) (by omega)
    | beginNested =>
      refine answers_readByte.bind fun _ r e => (Answers.lift _).bind fun _ r' e' =>
        answers_readNat.bind fun _ r'' e'' => ?_
      obtain ⟨-, rfl⟩ := lift_eq_ok.1 e'
      have hr : q + 1 ≤ r := (TypeVector.spends_readByte e).1
      have hr' : r + 4 ≤ r'' := (TypeVector.spends_readNat e'').1
      have hspends : tv.Spends TypeVector.cost (do tv.readDescriptorFrom fuel (← get) {}) :=
        TypeVector.Spends.get.bind fun here => TypeVector.spends_readDescriptorFrom fuel here {}
      have hnext : ∀ p, tv.size - p < tv.size - r'' + 1 →
          Answers (do readDescriptorFrom tv n (← get) {}) (do tv.readDescriptorFrom fuel (← get) {}) p :=
        fun p hp => .get_bind (ih _ _ _ _ (by omega) (by omega))
      exact (answers_readFields hspends hnext true n (tv.size + 1) [] (by omega) (by omega)
        (by omega)).bind fun _ _ _ => .pure _
    | array kind =>
      exact answers_readByte.bind fun _ _ _ => answers_readByte.bind fun _ _ _ =>
        answers_readNat.bind fun _ _ _ => .pure _
    | struct | encapsulatedUnion | pointer | pipe =>
      exact answers_readByte.bind fun _ _ _ => answers_readNat.bind fun _ _ _ => .pure _
    | switchedUnion | conversion =>
      exact answers_readByte.bind fun _ _ _ => answers_readNat.bind fun _ _ _ =>
        answers_readNat.bind fun _ _ _ => .pure _
    | scalar | ignore | context | align | deletedNodes | void | unhosted => exact .pure _
    | noArm | endNested => exact .throw _

variable {n : Nat}

theorem answers_readDescriptor (hn : tv.size < n) : Answers (readDescriptor tv n) tv.readDescriptor p :=
  answers_readDescriptorFrom n (tv.size + 1) p {} p (by omega) (by omega)

/-! ### What stands at an offset -/

theorem stream_eq (hn : tv.size < n) (offset : Nat) :
    stream tv n offset = some (tv.stream offset) := by
  refine Answers.readAt ((answers_readDescriptor hn).bind fun found _ _ => ?_)
  cases found with
  | none => exact .throw _
  | some d => exact answers_expectEnd.bind fun _ _ _ => .pure _

theorem answers_readParameter (hn : tv.size < n) : Answers (readParameter tv n) tv.readParameter p := by
  refine answers_readNat.bind fun _ _ _ => .get_bind ?_
  refine (answers_readDescriptor hn).bind fun found _ _ => ?_
  cases found with
  | none => exact .throw _
  | some d => exact answers_expectEnd.bind fun _ _ _ => .pure _

theorem parameters_eq (hn : tv.size < n) (offset : Nat) :
    parameters tv n offset = some (tv.parameters offset) :=
  Answers.readAt (answers_readNat.bind fun count _ _ =>
    (Answers.repeatM (I := fun _ => True)
      (fun _ _ => ⟨answers_readParameter hn, fun _ _ _ => trivial⟩) count trivial).1)

theorem structDefinition_eq (hn : tv.size < n) (offset : Nat) :
    structDefinition tv n offset = some (tv.structDefinition offset) :=
  Answers.readAt (answers_readByte.bind fun _ _ _ => answers_readByte.bind fun _ _ _ =>
    (answers_skip 2).bind fun _ _ _ => answers_readNat.bind fun _ _ _ =>
    answers_readNat.bind fun _ q _ =>
    (answers_readFields TypeVector.spends_readDescriptor (fun _ _ => answers_readDescriptor hn) false
      n (tv.size + 1) [] (Nat.lt_succ_self _) (by omega) (by omega)).bind fun _ _ _ =>
    (Answers.lift _).bind fun _ _ _ => .pure _)

theorem answers_readBound : Answers (readBound tv) tv.readBound p :=
  answers_readByte.bind fun _ _ _ => answers_readByte.bind fun _ _ _ =>
    answers_readByte.bind fun _ _ _ => (answers_skip 1).bind fun _ _ _ =>
    answers_readWord.bind fun _ _ _ => .pure _

/-- A bound takes eight bytes, and those that are skipped ahead of its value. -/
theorem readBound_end {b : Bound} {q : Nat} (e : tv.readBound p = .ok b q) :
    q = p + padding p 4 + 8 ∧ q ≤ tv.size := by
  unfold TypeVector.readBound at e
  obtain ⟨_, _, h1, e⟩ := bind_eq_ok.1 e
  obtain ⟨rfl, -⟩ := TypeVector.readByte_end h1
  obtain ⟨_, _, h2, e⟩ := bind_eq_ok.1 e
  obtain ⟨rfl, -⟩ := TypeVector.readByte_end h2
  obtain ⟨_, _, h3, e⟩ := bind_eq_ok.1 e
  obtain ⟨rfl, -⟩ := TypeVector.readByte_end h3
  obtain ⟨_, _, h4, e⟩ := bind_eq_ok.1 e
  obtain ⟨rfl, -⟩ := TypeVector.skip_end h4
  obtain ⟨_, _, h5, e⟩ := bind_eq_ok.1 e
  obtain ⟨hq, hsize⟩ := TypeVector.readWord_end h5
  obtain ⟨-, rfl⟩ := pure_eq_ok.1 e
  have hpadding : padding (p + 1 + 1 + 1 + 1) 4 = padding p 4 := padding_add_self p 4
  exact ⟨by omega, hsize⟩

/-- Two bounds take sixteen bytes, and those that are skipped ahead of the first value. -/
theorem readBoundPair_end {pair : BoundPair} {q : Nat} (e : tv.readBoundPair p = .ok pair q) :
    q = p + padding p 4 + 16 ∧ q ≤ tv.size := by
  obtain ⟨_, _, h1, e⟩ := bind_eq_ok.1 e
  obtain ⟨rfl, -⟩ := readBound_end h1
  obtain ⟨_, _, h2, e⟩ := bind_eq_ok.1 e
  obtain ⟨hq, hsize⟩ := readBound_end h2
  obtain ⟨-, rfl⟩ := pure_eq_ok.1 e
  have hdvd := @dvd_add_padding p 4 (by decide)
  rw [padding_of_dvd (show 4 ∣ p + padding p 4 + 8 by omega)] at hq
  exact ⟨hq, hsize⟩

/-- Two bounds at a multiple of four have an answer, and the next two stand at one as well. -/
theorem answers_readBoundPair (hp : 4 ∣ p) : Answers (readBoundPair tv) tv.readBoundPair p ∧
    ∀ ⦃pair q⦄, tv.readBoundPair p = .ok pair q → 4 ∣ q := by
  have hpadding : padding p 4 = 0 := padding_of_dvd hp
  constructor
  · refine .look_bind (answers_readBound.bind fun lower q e => answers_readBound.bind fun upper r e' =>
      .look_bind ?_)
    have hpair : tv.readBoundPair p = .ok { lower, upper } r :=
      bind_eq_ok.2 ⟨lower, q, e, bind_eq_ok.2 ⟨upper, r, e', rfl⟩⟩
    obtain ⟨hr, -⟩ := readBoundPair_end hpair
    rw [if_pos (by omega)]
    exact .pure _
  · intro pair q e
    obtain ⟨hq, -⟩ := readBoundPair_end e
    omega

theorem answers_readElement (hn : tv.size < n) (offset : Nat) (dimensions : List Dimension) :
    Answers (readElement tv n offset dimensions) (tv.readElement offset dimensions) p := by
  refine .get_bind ((answers_readDescriptor hn).bind fun found _ _ => ?_)
  cases found with
  | none => exact .throw _
  | some d => exact answers_expectEnd.bind fun _ _ _ => .pure _

/-- The definition of an array has an answer where its pairs have one, from one to the next. -/
theorem arrayDefinition_eq_of {I : Nat → Prop} (hn : tv.size < n) {offset : Nat} (varying : Bool)
    (hpairs : ∀ p, I p → Answers (readBoundPair tv) tv.readBoundPair p ∧
      ∀ ⦃pair q⦄, tv.readBoundPair p = .ok pair q → I q)
    (hfirst : ∀ dims, tv.bytes[offset]? = some dims → dims ≠ 0 → I (offset + 4)) :
    arrayDefinition tv n offset varying = some (tv.arrayDefinition offset varying) := by
  refine Answers.readAt (answers_readByte.bind fun dims p e => ?_)
  obtain ⟨hbyte, rfl⟩ := TypeVector.getElem?_of_readByte e
  by_cases hdims : dims = 0
  · rw [if_pos hdims, if_pos hdims]
    exact .throw _
  rw [if_neg hdims, if_neg hdims]
  refine (answers_skip 3).bind fun _ q e' => ?_
  obtain ⟨rfl, -⟩ := TypeVector.skip_end e'
  obtain ⟨hbounds, hafter⟩ := Answers.repeatM hpairs dims.toNat (hfirst dims hbyte hdims)
  refine hbounds.bind fun bounds r e => ?_
  have hlimits := (Answers.repeatM hpairs dims.toNat (hafter e)).1
  exact .ite ((hlimits.map some).bind fun _ _ _ => answers_readElement hn offset _)
    ((Answers.pure none).bind fun _ _ _ => answers_readElement hn offset _)

/-- What an array asserts of its bounds holds where it stands at a multiple of four. -/
theorem arrayDefinition_eq (hn : tv.size < n) {offset : Nat} (ho : 4 ∣ offset) (varying : Bool) :
    arrayDefinition tv n offset varying = some (tv.arrayDefinition offset varying) :=
  arrayDefinition_eq_of (I := fun p => 4 ∣ p) hn varying (fun _ hp => answers_readBoundPair hp)
    fun _ _ _ => by omega

theorem unionDefinition_eq (tv : TypeVector) (offset : Nat) :
    unionDefinition tv offset = some (tv.unionDefinition offset) := by
  refine Answers.readAt (answers_readOpcode.bind fun op _ _ => ?_)
  cases op with
  | scalar switch =>
    refine .ite (.throw _) ?_
    refine answers_readByte.bind fun flags _ _ => answers_readByte.bind fun align _ _ =>
      (answers_skip 1).bind fun _ _ _ => answers_readNat.bind fun count armsAt _ => .get_bind ?_
    refine .ite (.throw _) ?_
    exact (Answers.lift _).bind fun _ _ _ => .pure _
  | _ => exact .throw _

/-- **Decoding ends**, whatever counts stand in the vector: it goes no deeper than there are bytes, and what
is found has no more descriptors than there are bytes. The record of an arm that is looked for is never cut
off. -/
theorem decoder_ends {bytes : Array UInt8} (h : TypeVector.parse bytes = .ok tv)
    (hn : bytes.size < n) (offset : Nat) :
    (stream tv n offset = some (tv.stream offset) ∧
      ∀ d, tv.stream offset = .ok d → d.count ≤ bytes.size) ∧
    (parameters tv n offset = some (tv.parameters offset) ∧
      ∀ list, tv.parameters offset = .ok list →
        countAll (list.map Parameter.descriptor) ≤ bytes.size) ∧
    (structDefinition tv n offset = some (tv.structDefinition offset) ∧
      ∀ s, tv.structDefinition offset = .ok s → countAll s.fields ≤ bytes.size) ∧
    (4 ∣ offset → ∀ varying,
      arrayDefinition tv n offset varying = some (tv.arrayDefinition offset varying)) ∧
    (unionDefinition tv offset = some (tv.unionDefinition offset) ∧
      ∀ u, tv.unionDefinition offset = .ok u → ∀ switch place needed,
        tv.findArm u switch ≠ .error (.truncatedVector place needed)) := by
  obtain ⟨rfl, -⟩ := Assembler.parse_eq_ok h
  refine ⟨⟨stream_eq hn offset, fun _ => TypeVector.count_stream⟩,
    ⟨parameters_eq hn offset, fun _ => TypeVector.count_parameters⟩,
    ⟨structDefinition_eq hn offset, fun _ => TypeVector.count_structDefinition⟩,
    arrayDefinition_eq hn, unionDefinition_eq tv offset, fun u hu switch place needed harm => ?_⟩
  obtain ⟨b, q, he⟩ := TypeVector.findArm_fault hu harm
  nomatch he

/-- A parameter whose type is a nested struct of two longs, a struct of one long, an array of longs,
and a union with an arm and no default. -/
def sample : TypeVector where
  bytes := #[
    8, 0, 10, 0, 1, 255, 255, 255, 0, 0, 0, 0,
    1, 0, 0, 0, 0, 0, 0, 0, 18, 4, 255, 255, 0, 0, 0, 0, 8, 8, 19, 254,
    4, 0, 255, 255, 0, 0, 0, 0, 255, 255, 255, 255, 8, 254, 255, 255,
    1, 255, 255, 255, 0, 8, 0, 255, 0, 0, 0, 0, 0, 8, 0, 255, 4, 0, 0, 0, 8, 254, 255, 255,
    8, 0, 4, 255, 1, 0, 0, 0, 7, 0, 0, 0, 8, 0, 255, 255, 20, 0, 0, 0, 0, 0, 0, 0,
    0, 0, 0, 0, 26, 0, 255, 255, 0, 0, 0, 0, 0, 0, 0, 0]
  order := .little
  minor := 10

theorem sample_ends :
    (∃ d, stream sample 113 20 = some (.ok d) ∧ d.count ≤ 112) ∧
    (∃ list, parameters sample 113 12 = some (.ok list) ∧
      countAll (list.map Parameter.descriptor) ≤ 112) ∧
    (∃ s, structDefinition sample 113 32 = some (.ok s) ∧ countAll s.fields ≤ 112) ∧
    (∃ a, arrayDefinition sample 113 48 false = some (.ok a)) ∧
    ∃ u, unionDefinition sample 72 = some (.ok u) ∧ ∀ switch place needed,
      sample.findArm u switch ≠ .error (.truncatedVector place needed) := by
  have hparse : TypeVector.parse sample.bytes = .ok sample := rfl
  have hends := decoder_ends hparse (show 112 < 113 by decide)
  obtain ⟨d, hd⟩ : ∃ d, sample.stream 20 = .ok d := ⟨_, rfl⟩
  obtain ⟨list, hlist⟩ : ∃ list, sample.parameters 12 = .ok list := ⟨_, rfl⟩
  obtain ⟨s, hs⟩ : ∃ s, sample.structDefinition 32 = .ok s := ⟨_, rfl⟩
  obtain ⟨a, ha⟩ : ∃ a, sample.arrayDefinition 48 false = .ok a := ⟨_, rfl⟩
  obtain ⟨u, hu⟩ : ∃ u, sample.unionDefinition 72 = .ok u := ⟨_, rfl⟩
  obtain ⟨hstream, hcount⟩ := (hends 20).1
  obtain ⟨hparameters, hcounts⟩ := (hends 12).2.1
  obtain ⟨hstruct, hfields⟩ := (hends 32).2.2.1
  have harray := (hends 48).2.2.2.1 (by decide) false
  obtain ⟨hunion, harms⟩ := (hends 72).2.2.2.2
  rw [hd] at hstream
  rw [hlist] at hparameters
  rw [hs] at hstruct
  rw [ha] at harray
  rw [hu] at hunion
  exact ⟨⟨d, hstream, hcount d hd⟩, ⟨list, hparameters, hcounts list hlist⟩,
    ⟨s, hstruct, hfields s hs⟩, ⟨a, harray⟩, u, hunion, harms u hu⟩

end Unchecked

end Ndr
