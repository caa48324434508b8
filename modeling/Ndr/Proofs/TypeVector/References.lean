import Mathlib.Data.List.Perm.Subperm
import Mathlib.Logic.Relation
import Ndr.Proofs.TypeVector.Leads
import Ndr.Proofs.TypeVector.Reading

/-!
Which types refer to which: behind an embedded reference a pointee of another type is put off. Where
no type refers to itself, be it through others, references lead through no more types than their
vector has bytes.
-/

namespace Ndr.TypeVector

variable {tv : TypeVector} {p q : Nat}

/-- The types that are met in a pointee of the type at `p`, embedded in it or not, short of the
pointees of embedded pointers. -/
inductive AtHand (tv : TypeVector) (p : Nat) : Bool → Descriptor → Prop where
  | start {d : Descriptor} (stream : tv.stream p = .ok d) : AtHand tv p false d
  | embedded {b : Bool} {d e : Descriptor} (here : AtHand tv p b d) (embeds : tv.Embeds d e) :
      AtHand tv p true e
  | pointee {d e : Descriptor} {kind : PointerKind} {props : UInt8} {q : Nat}
      (here : AtHand tv p false d) (form : d.form = .pointer kind props q)
      (stream : tv.stream q = .ok e) : AtHand tv p false e
  | wire {b : Bool} {d e : Descriptor} {kind : ConversionKind} {props : UInt8}
      {routine wire : Nat} (here : AtHand tv p b d)
      (form : d.form = .converted kind props routine wire) (stream : tv.stream wire = .ok e) :
      AtHand tv p b e

theorem closedAtHand_atHand (tv : TypeVector) (p : Nat) : tv.ClosedAtHand (tv.AtHand p) where
  embedded := .embedded
  pointee := .pointee
  wire := .wire

/-- A pointee of the type at `p` may hold an embedded reference to one of the type at `q`. -/
def Refers (tv : TypeVector) (p q : Nat) : Prop :=
  ∃ d props, tv.AtHand p true d ∧ d.form = .pointer .ref props q

/-- No type refers to itself, be it through others. -/
def ReferencesEnd (tv : TypeVector) : Prop := ∀ p, ¬Relation.TransGen tv.Refers p p

/-- A type that is met in a pointee has its own type read first. -/
theorem AtHand.exists_stream {b : Bool} {d : Descriptor} (h : tv.AtHand p b d) :
    ∃ e, tv.stream p = .ok e := by
  induction h with
  | start stream => exact ⟨_, stream⟩
  | embedded _ _ ih => exact ih
  | pointee _ _ _ ih => exact ih
  | wire _ _ _ ih => exact ih

theorem Refers.lt_size (h : tv.Refers p q) : p < tv.size := by
  obtain ⟨d, props, hd, -⟩ := h
  obtain ⟨e, he⟩ := hd.exists_stream
  rw [← offset_of_stream he]
  exact (stream_of_gives gives_readDescriptor_standsIn he).lt_size

/-- Types that refer to one another in a row, the last one first. -/
abbrev Trail (tv : TypeVector) (ps : List Nat) : Prop := ps.IsChain (flip tv.Refers)

theorem Trail.nodup (h : tv.ReferencesEnd) {ps : List Nat} (hps : tv.Trail ps) : ps.Nodup := by
  have hchain : ps.IsChain (flip (Relation.TransGen tv.Refers)) := hps.imp fun _ _ => .single
  have : Trans (flip (Relation.TransGen tv.Refers)) (flip (Relation.TransGen tv.Refers))
      (flip (Relation.TransGen tv.Refers)) := ⟨fun h h' => Relation.TransGen.trans h' h⟩
  refine hchain.pairwise.imp fun hpq heq => ?_
  rw [heq] at hpq
  exact h _ hpq

/-- **References lead through no more types than the vector has bytes.** -/
theorem Trail.length_le (h : tv.ReferencesEnd) {ps : List Nat} (hps : tv.Trail (p :: ps)) :
    ps.length ≤ tv.size := by
  have hlt : ∀ {p ps}, tv.Trail (p :: ps) → ∀ q ∈ ps, q < tv.size := by
    intro p ps
    induction ps generalizing p with
    | nil => simp
    | cons q ps ih =>
      intro hps
      obtain ⟨hq, hps⟩ := List.isChain_cons_cons.1 hps
      exact List.forall_mem_cons.2 ⟨hq.lt_size, ih hps⟩
  have hsub : ps ⊆ List.range tv.size := fun q hq => List.mem_range.2 (hlt hps q hq)
  have hnodup : ps.Nodup := (List.nodup_cons.1 (hps.nodup h)).2
  simpa using (List.Nodup.subperm hnodup hsub).length_le

end Ndr.TypeVector
