import ColumnFunctions.Proofs.Clickstream.Inflation
import ColumnFunctions.Proofs.Json.Completeness
import ColumnFunctions.Proofs.Record

namespace ColumnFunctions.Clickstream

open Json

section Reading

variable {α : Type}

def readRecords (read : (room : Nat) → Node → Except Complaint α) (room : Nat) :
    Node → Except Complaint (Payload α) :=
  readOption (readList (fun room ↦ readOption (read room)) room)

variable {read : Nat → Node → Except Complaint α}

theorem readPayload_eq_ok (h : ∀ room, ByTree (read room)) {text : String} {p : Payload α} :
    readPayload read text = .ok p ↔
      ∃ t, SpellsText t text.toList ∧ readRecords read maxDepth t.node = .ok p :=
  readDocument_eq_ok (byTree_option (byTree_list (fun room ↦ byTree_option (h room)) maxDepth))

theorem reencodeAs_eq_ok (h : ∀ room, ByTree (read room)) {toValue : α → Value} {text u : String} :
    reencodeAs read toValue text = .ok u ↔
      ∃ t p, SpellsText t text.toList ∧ readRecords read maxDepth t.node = .ok p ∧
        writePayload toValue p = u := by
  have hmap : reencodeAs read toValue text = .ok u ↔
      ∃ p, readPayload read text = .ok p ∧ writePayload toValue p = u := by
    simp only [reencodeAs]
    cases readPayload read text <;> simp [Except.map]
  rw [hmap]
  constructor
  · intro ⟨p, hp, hu⟩
    obtain ⟨t, ht, hr⟩ := (readPayload_eq_ok h).1 hp
    exact ⟨t, p, ht, hr, hu⟩
  · intro ⟨t, p, ht, hr, hu⟩
    exact ⟨p, (readPayload_eq_ok h).2 ⟨t, ht, hr⟩, hu⟩

end Reading

theorem reencode_of_spells {shape : Shape} {text text' u : String}
    (hs : ∀ t, SpellsText t text.toList → SpellsText t text'.toList)
    (h : reencode shape text = .ok u) : reencode shape text' = .ok u := by
  have hread : ∀ {α : Type} {read : Nat → Node → Except Complaint α} {toValue : α → Value},
      (∀ room, ByTree (read room)) → reencodeAs read toValue text = .ok u →
        reencodeAs read toValue text' = .ok u := by
    intro α read toValue htree h
    obtain ⟨t, p, ht, hr, hu⟩ := (reencodeAs_eq_ok htree).1 h
    exact (reencodeAs_eq_ok htree).2 ⟨t, p, hs t ht, hr, hu⟩
  cases shape
  · exact hread EventRecord.byTree_ofNode h
  · exact hread AttributeRecord.byTree_ofNode h
  · exact hread UserRecord.byTree_ofNode h

theorem decode_encode {shape : Shape} {b : Bytes} {text u : String}
    (hb : Gzip.decompress b = .ok (Bytes.ofText text)) :
    decode shape (some (Base64.encode b)) = .ok (some u) ↔
      reencode shape (joinLines text) = .ok u := by
  have hinflate : inflateText (Base64.encode b) = .ok (joinLines text) :=
    inflateText_encode_eq_ok.2 ⟨text, hb, rfl⟩
  simp only [decode, hinflate, bind, Except.bind]
  cases reencode shape (joinLines text) with
  | error c => exact ⟨fun h ↦ (nomatch h), fun h ↦ (nomatch h)⟩
  | ok json =>
    constructor
    · intro h
      cases h
      rfl
    · intro h
      cases h
      rfl

/-- A text that is written again without its line breaks is so in every gzip stream of it. -/
theorem decode_gzip {shape : Shape} {text u : String}
    (h : reencode shape (joinLines text) = .ok u) :
    (∀ b, Gzip.decompress b = .ok (Bytes.ofText text) →
      decode shape (some (Base64.encode b)) = .ok (some u)) ∧
    ∀ members : List Gzip.Member, members ≠ [] →
      members.flatMap Gzip.Member.chunk = Bytes.ofText text →
      decode shape (some (Base64.encode (members.flatMap Gzip.Member.bytes))) = .ok (some u) := by
  constructor
  · intro b hb
    exact (decode_encode hb).2 h
  · intro members hne htext
    refine (decode_encode ?_).2 h
    rw [Gzip.decompress_members hne, htext]

end ColumnFunctions.Clickstream
