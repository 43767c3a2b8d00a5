import ColumnFunctions.Proofs.Clickstream.NormalForm
import ColumnFunctions.Proofs.Json.Depth

namespace ColumnFunctions

open Json

/-- The entries of a map of values are the members of an object. -/
theorem Json.toOption_readEntries (room : Nat) : ∀ (entries : List (String × Value)) (ms : Members),
    (readEntries (Value.ofNode room) entries ms).toOption =
      (Value.ofMembers room entries ms).toOption
  | _, .close _ | _, .broken _ | _, .bare _ _ _ => rfl
  | entries, .cons key _ node _ rest => by
    simp only [readEntries, Value.ofMembers, toOption_bind, toOption_issue, toOption_part,
      toOption_readEntries room _ rest]

namespace AttributeRecord

/-- A record of attributes is read as a value is, of which only objects are records. -/
theorem toOption_ofNode (room : Nat) (node : Node) :
    (AttributeRecord.ofNode room node).toOption =
      (Value.ofNode room node).toOption.bind fun v ↦ (ofValue v).toOption := by
  rw [AttributeRecord.ofNode, toOption_map]
  cases node with
  | object start members =>
    cases room with
    | zero => rfl
    | succ room =>
      rw [readMap, Value.ofNode, toOption_map, toOption_readEntries]
      cases (Value.ofMembers room [] members).toOption <;> rfl
  | list start elements =>
    cases room with
    | zero => rfl
    | succ room =>
      cases h : (Value.ofElements room elements).toOption <;>
        simp [readMap, Value.ofNode, ofValue, h]
  | null | bool | broken => rfl
  | number value => cases h : value.toOption <;> simp [readMap, Value.ofNode, ofValue, h]
  | string text => cases h : text.toOption <;> simp [readMap, Value.ofNode, ofValue, h]

end AttributeRecord

namespace Clickstream

abbrev attributes (x : Option AttributeRecord) : Value := nullable AttributeRecord.toValue x

theorem toOption_readAttributes {x : Option AttributeRecord} (h : (attributes x).Distinct)
    (room : Nat) :
    (readOption (AttributeRecord.ofNode room) (attributes x).tree.node).toOption =
      if (attributes x).depth ≤ room then some x else none := by
  cases x with
  | none => rfl
  | some r =>
    have hnode := Value.toOption_ofNode_tree r.toValue room h
    have hrecord := AttributeRecord.toOption_ofNode room r.toValue.tree.node
    rw [hnode] at hrecord
    have hread : readOption (AttributeRecord.ofNode room) (attributes (some r)).tree.node =
        (AttributeRecord.ofNode room r.toValue.tree.node).map some := rfl
    rw [hread, toOption_map, hrecord, attributes, nullable]
    split <;> rfl

theorem toOption_readEach_attributes {records : List (Option AttributeRecord)}
    (h : Value.DistinctAll (records.map attributes)) (room i : Nat) :
    (readEach (readOption (AttributeRecord.ofNode room)) i
      (Json.Tree.elements (Value.trees (records.map attributes)))).toOption =
        if Value.depthAll (records.map attributes) ≤ room then some records else none := by
  induction records generalizing i with
  | nil => simp [Value.trees, Json.Tree.elements, readEach, Value.depthAll]
  | cons x records ih =>
    have hx := toOption_readAttributes h.1 room
    have hrest := ih h.2 (i + 1)
    simp only [List.map_cons, Value.trees, Json.Tree.elements, readEach, toOption_bind,
      toOption_part, toOption_pure, hx, hrest, Value.depthAll, Nat.max_le]
    by_cases hle : (attributes x).depth ≤ room
    · by_cases hle' : Value.depthAll (records.map attributes) ≤ room <;> simp [hle, hle']
    · simp [hle]

theorem reencode_attributes {records : List (Option AttributeRecord)}
    (hd : (Value.list (records.map attributes)).Distinct)
    (he : (Value.list (records.map attributes)).Exact) :
    reencode .attribute (Value.list (records.map attributes)).text =
        .ok (Value.list (records.map attributes)).text ↔
      (Value.list (records.map attributes)).depth ≤ maxDepth := by
  have hread : (readRecords AttributeRecord.ofNode maxDepth
      (Value.list (records.map attributes)).tree.node).toOption =
        if (Value.list (records.map attributes)).depth ≤ maxDepth then some (some records)
        else none := by
    have heach := toOption_readEach_attributes hd 126 0
    have hlist : readRecords AttributeRecord.ofNode maxDepth
        (Value.list (records.map attributes)).tree.node =
          (readEach (readOption (AttributeRecord.ofNode 126)) 0
            (Json.Tree.elements (Value.trees (records.map attributes)))).map some := rfl
    rw [hlist, toOption_map, heach, Value.depth, maxDepth]
    simp only [Nat.reduceLeDiff]
    split <;> rfl
  rw [reencode, reencodeAs_eq_ok AttributeRecord.byTree_ofNode]
  constructor
  · intro ⟨t, p, ht, hp, hu⟩
    rw [← (Value.spellsText he).unique ht] at hp
    rw [toOption_eq_some.2 hp] at hread
    by_contra hdeep
    rw [if_neg hdeep] at hread
    cases hread
  · intro hle
    rw [if_pos hle] at hread
    exact ⟨_, some records, Value.spellsText he, toOption_eq_some.1 hread, rfl⟩

theorem exists_records {elements : List Value}
    (h : ∀ v ∈ elements, v = .null ∨ ∃ members, v = .object members) :
    ∃ records : List (Option AttributeRecord), records.map attributes = elements := by
  induction elements with
  | nil => exact ⟨[], rfl⟩
  | cons v elements ih =>
    obtain ⟨records, rfl⟩ := ih fun w hw ↦ h w (.tail _ hw)
    rcases h v List.mem_cons_self with rfl | ⟨members, rfl⟩
    · exact ⟨none :: records, rfl⟩
    · exact ⟨some ⟨members⟩ :: records, rfl⟩

/-- A list of objects and nulls, its numbers whole and no key twice in an object, is written again
as it was, provided that it is nested as deep as may be and no deeper. -/
theorem attributes_lossless (elements : List Value)
    (hk : ∀ v ∈ elements, v = .null ∨ ∃ members, v = .object members)
    (hd : (Value.list elements).Distinct) (he : (Value.list elements).Exact) :
    let u := (Value.list elements).text
    (∀ b, Gzip.decompress b = .ok (Bytes.ofText u) →
      (decode .attribute (some (Base64.encode b)) = .ok (some u) ↔
        (Value.list elements).depth ≤ maxDepth)) ∧
    ∀ members : List Gzip.Member, members ≠ [] →
      members.flatMap Gzip.Member.chunk = Bytes.ofText u →
      (decode .attribute (some (Base64.encode (members.flatMap Gzip.Member.bytes))) = .ok (some u) ↔
        (Value.list elements).depth ≤ maxDepth) := by
  intro u
  obtain ⟨records, rfl⟩ := exists_records hk
  have hdecode : ∀ b, Gzip.decompress b = .ok (Bytes.ofText u) →
      (decode .attribute (some (Base64.encode b)) = .ok (some u) ↔
        (Value.list (records.map attributes)).depth ≤ maxDepth) := by
    intro b hb
    rw [decode_encode hb, joinLines_of_forall (Value.ne_break he)]
    exact reencode_attributes hd he
  refine ⟨hdecode, fun members hne htext ↦ hdecode _ ?_⟩
  rw [Gzip.decompress_members hne, htext]

theorem attributes_lossless_nested :
    let inner : Value := .object [("b", .ofInt (-9223372036854775808)), ("a", .bool true)]
    let elements : List Value := [.object [("\"\n😀", .list [inner, .list [], .null]),
      ("", .ofInt 18446744073709551615)], .null]
    let u := (Value.list elements).text
    (∀ v ∈ elements, v = .null ∨ ∃ members, v = .object members) ∧
      (Value.list elements).Distinct ∧ (Value.list elements).Exact ∧
      (Value.list elements).depth = 4 ∧
      decode .attribute (some (Base64.encode (Gzip.Member.ofBytes (Bytes.ofText u)).bytes)) =
        .ok (some u) := by
  intro inner elements u
  have hk : ∀ v ∈ elements, v = .null ∨ ∃ members, v = .object members := by
    simp [elements]
  have hd : (Value.list elements).Distinct := by
    simp [elements, inner, Value.ofInt, Value.Distinct, Value.DistinctAll, Value.DistinctMembers]
  have he : (Value.list elements).Exact := by
    simp [elements, inner, Value.ofInt, Value.Exact, Value.ExactAll, Value.ExactMembers,
      Number.Exact]
  have hdepth : (Value.list elements).depth = 4 := rfl
  have hgzip := Gzip.decompress_bytes (Gzip.Member.ofBytes (Bytes.ofText u))
  refine ⟨hk, hd, he, hdepth, ((attributes_lossless elements hk hd he).1 _ hgzip).2 ?_⟩
  rw [hdepth]
  decide

end Clickstream

end ColumnFunctions
