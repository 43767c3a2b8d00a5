import ColumnFunctions.Proofs.Clickstream.Attributes
import ColumnFunctions.Proofs.Json.Sources
import ColumnFunctions.Proofs.Record.Rows

namespace ColumnFunctions

open Json

theorem Scalar.toOption_ofValueOrNull {t : Tree} {v : Value} (h : t.Means v) :
    (ofValueOrNull v).toOption = ofTree? t := by
  cases h with
  | null | bool | string | list | object => rfl
  | number n =>
    rw [ofTree?, ofValueOrNull]
    · cases ofValue? (.number n) <;> rfl
    · intro h
      cases h

theorem Scalar.alike_field {σ : Type} (room : ℕ) (name : String)
    (change : Option Scalar → Except Complaint (σ → σ)) :
    Field.Alike ⟨name, fun n ↦ ofNode? room n >>= change⟩
      ⟨name, fun v ↦ ofValueOrNull v >>= change⟩ where
  name_eq := rfl
  read_eq t v hm := by
    rw [toOption_bind, toOption_bind, toOption_ofNode?_node, toOption_ofValueOrNull hm]

theorem EventRecord.alike_shape (room : ℕ) :
    (shape (Scalar.ofNode? room)).Alike (shape Scalar.ofValueOrNull) where
  fields := by
    have field {name : String}
        {change : Option Scalar → Except Complaint (EventRecord → EventRecord)} :=
      Scalar.alike_field room name change
    exact .cons field <| .cons field <| .cons field <| .cons field <| .cons field <|
      .cons field <| .cons field <| .cons field <| .cons field <| .cons field <| .cons field <|
      .cons field <| .cons field <| .cons field <| .cons field <| .cons field .nil
  optional := rfl
  optional' := rfl

theorem EventRecord.alike : Alike EventRecord.ofNode EventRecord.ofValue :=
  Shape.alike_read EventRecord.alike_shape {}

theorem UserAttribute.alike_shape (room : ℕ) :
    (shape (Scalar.ofNode? room)).Alike (shape Scalar.ofValueOrNull) where
  fields := .cons (Scalar.alike_field room _ _) <| .cons (Scalar.alike_field room _ _) .nil
  optional := rfl
  optional' := rfl

theorem UserAttribute.alike : Alike UserAttribute.ofNode UserAttribute.ofValue :=
  (Shape.alike_read UserAttribute.alike_shape {}).bind _

theorem AttributeRecord.alike : Alike AttributeRecord.ofNode AttributeRecord.ofValue := by
  intro t v room hm _ hroom
  rw [toOption_ofNode, (Tree.toOption_ofNode t room).2 ⟨hm, hroom⟩, Option.bind_some]

namespace UserRecord

theorem readEntries_eq {ms : List (Option String × Tree)} {members : List (String × Value)}
    (hms : Tree.Entries Tree.Means ms members) {room : ℕ} (hd : Tree.DistinctMembers ms)
    (hroom : Tree.depthMembers ms ≤ room) {attributes : List (String × UserAttribute)}
    (hn : (attributes.map Prod.fst ++ members.map Prod.fst).Nodup) :
    (readEntries (UserAttribute.ofNode room) attributes (Tree.members ms)).toOption =
      (ofMembers members).toOption.map (attributes ++ ·) := by
  induction hms generalizing attributes with
  | nil => exact congrArg some (List.append_nil attributes).symm
  | @cons key t v ms members hv _ ih =>
    rw [Tree.depthMembers, Nat.max_le] at hroom
    have hread := UserAttribute.alike hv hd.1 hroom.1
    simp only [Tree.members, readEntries, ofMembers, toOption_bind, toOption_issue, toOption_part,
      Tree.toOption_orIssue, Option.bind_some, hread]
    cases (UserAttribute.ofValue v).toOption with
    | none => rfl
    | some a =>
      have hkey : key ∉ attributes.map Prod.fst := by
        rw [List.map_cons, List.nodup_append] at hn
        exact fun hmem ↦ hn.2.2 key hmem key List.mem_cons_self rfl
      have hrest := @ih hd.2 hroom.2 (attributes ++ [(key, a)]) (by
        rwa [List.map_append, List.append_assoc])
      rw [Option.bind_some, put_of_not_mem hkey, hrest]
      cases (ofMembers members).toOption with
      | none => rfl
      | some more => exact congrArg some (List.append_assoc attributes [(key, a)] more)

theorem alike : Alike UserRecord.ofNode UserRecord.ofValue := by
  intro t v room hm hd hroom
  cases hm with
  | null | bool | number | string | list => rfl
  | @object ms entries members hms hs =>
    cases room with
    | zero => exact absurd hroom (Nat.not_succ_le_zero _)
    | succ room =>
      obtain ⟨_, ⟨⟩, hentries, hn⟩ := (Tree.Means.object hms hs).exists_members hd.1
      have hread := @readEntries_eq _ _ hentries room hd.2 (Nat.le_of_succ_le_succ hroom) [] hn
      simp only [UserRecord.ofNode, Json.Tree.node, readMap, ofValue, toOption_map, hread]
      cases (ofMembers members).toOption <;> rfl

end UserRecord

/-- A text and a value are both no record, or one and the same, which is written in one way. -/
structure SameRecord {ρ : Type} (toValue : ρ → Value) (ofText ofValue : Except Complaint ρ) :
    Prop where
  accepted : (∃ r, ofText = .ok r) ↔ ∃ r, ofValue = .ok r
  record : ∀ {r r'}, ofText = .ok r → ofValue = .ok r' → r = r'
  text : ∀ {r r'}, ofText = .ok r → ofValue = .ok r' → (toValue r).text = (toValue r').text

theorem Json.Alike.sameRecord {ρ : Type} {read : (room : ℕ) → Node → Except Complaint ρ}
    {ofValue : Value → Except Complaint ρ} (h : Alike read ofValue)
    (hread : ByTree (read maxDepth)) {text : String} {t : Tree} {v : Value}
    (ht : SpellsText t text.toList) (hd : t.Distinct)
    (hv : Json.readDocument Value.ofNode text = .ok v) (toValue : ρ → Value) :
    SameRecord toValue (Json.readDocument read text) (ofValue v) := by
  have hiff := h.readDocument hread ht hd hv
  have heq : ∀ {r r'}, Json.readDocument read text = .ok r → ofValue v = .ok r' → r = r' := by
    intro r r' hr hr'
    exact Except.ok.inj (((hiff r).1 hr).symm.trans hr')
  exact ⟨exists_congr hiff, heq, fun hr hr' ↦ congrArg (fun r ↦ (toValue r).text) (heq hr hr')⟩

/-- Whoever reads a text as a value first makes the same record of the value as one who reads the
record at once, or none as well, if no object in the text repeats a key. -/
theorem records_read_alike {text : String} {t : Tree} {v : Value}
    (ht : SpellsText t text.toList) (hd : t.Distinct)
    (hv : readDocument Value.ofNode text = .ok v) :
    SameRecord EventRecord.toValue (readDocument EventRecord.ofNode text) (EventRecord.ofValue v) ∧
    SameRecord AttributeRecord.toValue (readDocument AttributeRecord.ofNode text)
      (AttributeRecord.ofValue v) ∧
    SameRecord UserRecord.toValue (readDocument UserRecord.ofNode text) (UserRecord.ofValue v) ∧
    SameRecord UserAttribute.toValue (readDocument UserAttribute.ofNode text)
      (UserAttribute.ofValue v) := by
  refine ⟨?_, ?_, ?_, ?_⟩
  · exact EventRecord.alike.sameRecord (EventRecord.byTree_ofNode _) ht hd hv _
  · exact AttributeRecord.alike.sameRecord (AttributeRecord.byTree_ofNode _) ht hd hv _
  · exact UserRecord.alike.sameRecord (UserRecord.byTree_ofNode _) ht hd hv _
  · exact UserAttribute.alike.sameRecord (UserAttribute.byTree_ofNode _) ht hd hv _

theorem records_read_alike_skipped :
    let event : Value := .object [("x", .list [.object [("a", .null)]]),
      ("timestamp", .string " 12 "), ("event_id", .bool true)]
    let user : Value := .object [("n", .list [.ofInt 7, .null])]
    let users : Value := .object [("n", .list [.ofInt 7]), ("m", .list [])]
    readDocument EventRecord.ofNode event.text = .ok { eventId := some "true", timestamp := 12 } ∧
      readDocument AttributeRecord.ofNode user.text = .ok ⟨[("n", .list [.ofInt 7, .null])]⟩ ∧
      readDocument UserRecord.ofNode user.text = .ok ⟨[("n", ⟨some "7", 0⟩)]⟩ ∧
      ∀ r, readDocument UserRecord.ofNode users.text ≠ .ok r := by
  intro event user users
  have hseven : (Value.ofInt 7).Exact := ⟨by decide, by decide⟩
  have hevent : event.Exact := ⟨⟨⟨trivial, trivial⟩, trivial⟩, trivial, trivial, trivial⟩
  have huser : user.Exact := ⟨⟨hseven, trivial, trivial⟩, trivial⟩
  have husers : users.Exact := ⟨⟨hseven, trivial⟩, trivial, trivial⟩
  have hvalue {v : Value} (hv : v.Exact) :=
    (Value.readDocument_text (byTree_value maxDepth) hv v).2
  obtain ⟨hevent, -⟩ := records_read_alike (Value.spellsText hevent)
    ⟨by decide, ⟨⟨by decide, trivial, trivial⟩, trivial⟩, trivial, trivial, trivial⟩
    (hvalue hevent rfl)
  obtain ⟨-, hattributes, huser, -⟩ := records_read_alike (Value.spellsText huser)
    ⟨by decide, ⟨trivial, trivial, trivial⟩, trivial⟩ (hvalue huser rfl)
  obtain ⟨-, -, husers, -⟩ := records_read_alike (Value.spellsText husers)
    ⟨by decide, ⟨trivial, trivial⟩, trivial, trivial⟩ (hvalue husers rfl)
  have hread {ρ : Type} {toValue : ρ → Value} {a b : Except Complaint ρ} {r : ρ}
      (h : SameRecord toValue a b) (hb : b = .ok r) : a = .ok r := by
    obtain ⟨r', hr'⟩ := h.accepted.2 ⟨r, hb⟩
    rwa [h.record hr' hb] at hr'
  refine ⟨?_, ?_, ?_, ?_⟩
  · exact hread hevent (toOption_eq_some.1 (by decide +kernel))
  · exact hread hattributes rfl
  · exact hread huser rfl
  · intro r hr
    obtain ⟨r', hr'⟩ := husers.accepted.1 ⟨r, hr⟩
    cases hr'

end ColumnFunctions
