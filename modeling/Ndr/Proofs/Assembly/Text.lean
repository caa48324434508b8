import Ndr.Proofs.Assembly.Aggregate
import Ndr.Proofs.TextRoundTrip

/-!
The strings that an assembler makes: the text of each gives the part of it that is sent, so what a
machine has read of one it can send on.
-/

namespace Ndr

/-- The types of strings, of any length or in an array of one length. -/
inductive ArraySpec.IsText : ArraySpec → Prop where
  | string (character : Scalar) : IsText (.ofString character)
  | v1String (n : UInt32) (character : Scalar) : IsText (.ofV1String n character)

variable {i : Interface} {s : ArraySpec}

namespace ArraySpec.IsText

theorem isAggregate (h : s.IsText) : (TypeSpec.array s).IsAggregate := by
  cases h with
  | string character => exact .string character
  | v1String n character => exact .v1String n character

theorem isString (h : s.IsText) : (s.modify {}).isString := by
  cases h <;> rfl

theorem freeRep (h : s.IsText) : (s.modify {}).freeRep = none := by
  cases h <;> rfl

/-- A definition that spells the type of a string is one of a text. -/
theorem ofText {a : Assembler} {e : Descriptor} (h : s.IsText) (he : Spells i a {} s.element e)
    (offset : Nat) : ∃ dim, (ArrayDefinition.mk offset s.dimensions e).OfText s.kind dim ∧
      (ArrayDefinition.mk offset s.dimensions e).checkDims s.bounds.length = .ok () := by
  cases h with
  | string character =>
    cases he
    exact ⟨_, ⟨rfl, rfl, rfl, fun _ => rfl, _, rfl, rfl, rfl, rfl⟩, rfl⟩
  | v1String n character =>
    cases he
    have hkind : ¬ArrayKind.varying.isConformant := by decide
    exact ⟨_, ⟨rfl, rfl, rfl, fun h => absurd h hkind, _, rfl, rfl, rfl, rfl⟩, rfl⟩

end ArraySpec.IsText

namespace Assembler

variable {b : Assembler} {log : List (Nat × Request)} {routines : List Routine} {offset : Nat}
  {index : UInt32}

/-- An assembled list of one string passes a text. -/
theorem passesText (routines : List Routine) (hb : Assembled b log)
    (he : Interface.ofAssembler b = .ok i) (hi : i.Small)
    (hps : (offset, .parameters [(index, .array s)]) ∈ log) (hs : s.IsText) :
    ∃ p kind a dim, p.index = index.toNat ∧
      Interface.PassesText { i with routines } offset p kind a dim := by
  obtain ⟨a, -, -, hread⟩ := settled_of_ofAssembler hb he hi
  obtain ⟨list, hlist, hspelled⟩ := hread _ hps fun q hq =>
    List.mem_singleton.1 hq ▸ hs.isAggregate.plain
  obtain ⟨⟨_, d⟩, _, ⟨hindex, hspells⟩, hnil, rfl⟩ := List.forall₂_cons_left_iff.1 hspelled
  obtain rfl := List.forall₂_nil_left_iff.1 hnil
  cases hspells with
  | array hdefinition helement =>
    obtain ⟨dim, htext, hdims⟩ := hs.ofText helement _
    exact ⟨_, s.kind, _, dim, hindex, hlist, ⟨_, _, _, rfl, hdefinition, hdims⟩, hs.isString,
      hs.freeRep, htext⟩

/-- **A string that was received can be sent on** under its own type, and a partner reads it as far as
its first terminator. -/
theorem string_resent {m m' : Machine} {world world' world'' : Surroundings}
    {params params' results : List Value} {source : Source} {sink : Sink} (hb : Assembled b log)
    (he : Interface.ofAssembler b = .ok i) (hi : i.Small)
    (hps : (offset, .parameters [(index, .array s)]) ∈ log) (hs : s.IsText)
    (hm : m.interface = { i with routines }) (hm' : m.Matches m') (hc : m.config.check = .ok ())
    (hnesting : 2 ≤ m.config.maxNesting) (hsink : sink.Obliging)
    (hlength : params'.length = results.length) (hlimit : world''.heap.limit = none)
    (e : (m.unmarshal world offset params source).result = .ok results) :
    ∃ text wire, results[index.toNat]? = some (.array text) ∧
      (m.marshal world' offset results sink).result = .ok wire.length ∧
      (m.marshal world' offset results sink).transport.message = sink.message ++ wire ∧
      ∀ source', source'.bytes = wire →
        AggregateRead [(index, .array s)] (results.set index.toNat (.array (Value.textOf text)))
          params' world''.heap (m'.unmarshal world'' offset params' source') := by
  obtain ⟨p, kind, a, dim, hindex, hp⟩ := passesText routines hb he hi hps hs
  rw [← hm] at hp
  rw [← hindex]
  obtain ⟨text, wire, hv, hmarshal, hmessage, harrived⟩ :=
    Machine.text_resent world' hm' hc hnesting hp hsink hlength hlimit e
  refine ⟨text, wire, hv, hmarshal, hmessage, fun source' hsource => ?_⟩
  obtain ⟨⟨ws, hws, hlength, hsame, hothers⟩, hunread, hcells⟩ :=
    harrived source' [] (by rw [hsource, List.append_nil])
  refine ⟨⟨ws, hws, hlength, fun q hq => ?_, fun k hk => hothers k fun q hq => ?_⟩, hunread, hcells⟩
  · obtain rfl := List.mem_singleton.1 hq
    rw [← hindex]
    exact hsame p (List.mem_singleton_self p)
  · obtain rfl := List.mem_singleton.1 hq
    exact hindex ▸ hk _ (List.mem_singleton_self _)

end Assembler

end Ndr
