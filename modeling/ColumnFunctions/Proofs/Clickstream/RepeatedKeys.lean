import ColumnFunctions.Proofs.Clickstream.Elements
import ColumnFunctions.Proofs.Clickstream.NormalForm
import ColumnFunctions.Proofs.Json.Keys

namespace ColumnFunctions

open Json

def objectText (members : List (String × String)) : String :=
  "\x7b" ++ ",".intercalate (members.map fun (key, text) ↦ (Value.string key).text ++ ":" ++ text)
    ++ "\x7d"

theorem Json.toList_objectText (members : List (String × String)) :
    (objectText members).toList = '\x7b' :: (Value.separated (members.map fun (key, text) ↦
      Quoted.writeChars key ++ ':' :: text.toList) ++ ['\x7d']) := by
  have hmember : ∀ member : String × String,
      ((Value.string member.1).text ++ ":" ++ member.2).toList =
        Quoted.writeChars member.1 ++ ':' :: member.2.toList := by
    intro member
    rw [String.toList_append, String.toList_append, Value.text, String.toList_ofList, Value.chars,
      List.append_assoc]
    rfl
  rw [objectText, String.toList_append, String.toList_append, String.toList_intercalate,
    List.map_map, Value.separated_eq]
  simp only [Function.comp_def, hmember]
  rfl

/-- The text of an object is made of the texts of its values. -/
theorem Json.Value.text_object (members : List (String × Value)) :
    (Value.object members).text = objectText (members.map fun (key, v) ↦ (key, v.text)) := by
  have hchars : memberChars members = (members.map fun (key, v) ↦ (key, v.text)).map
      fun (key, text) ↦ Quoted.writeChars key ++ ':' :: text.toList := by
    induction members with
    | nil => rfl
    | cons member members ih =>
      simp only [memberChars, ih, List.map_cons, Value.text, String.toList_ofList]
  rw [← String.toList_inj, toList_objectText, text, String.toList_ofList, chars, hchars,
    List.cons_append]

namespace Json

section Entries

variable {α β : Type} {Holds : Tree → α → Prop} {ms : List (Option String × Tree)}

theorem Tree.entries_map_iff {f : α → β} {entries : List (String × β)} :
    Tree.Entries (fun t y ↦ ∃ x, Holds t x ∧ f x = y) ms entries ↔ ∃ xs,
      Tree.Entries Holds ms xs ∧ (xs.map fun (key, x) ↦ (key, f x)) = entries := by
  constructor
  · intro h
    induction h with
    | nil => exact ⟨[], .nil, rfl⟩
    | cons h _ ih =>
      obtain ⟨x, hx, rfl⟩ := h
      obtain ⟨xs, hxs, rfl⟩ := ih
      exact ⟨(_, x) :: xs, .cons hx hxs, rfl⟩
  · rintro ⟨xs, hxs, rfl⟩
    exact hxs.map fun t x hx ↦ ⟨x, hx, rfl⟩

end Entries

end Json

namespace Clickstream

/-- What the value of a member is written again as in a record of a shape. -/
inductive Kept : Shape → (room : Nat) → Tree → Value → Prop
  | attribute {room : Nat} {t : Tree} {v : Value} (h : t.Means v) (hd : t.depth ≤ room) :
      Kept .attribute room t v
  | user {room : Nat} {t : Tree} {a : UserAttribute}
      (h : UserAttribute.ofNode room t.node = .ok a) :
      Kept .user room t a.toValue

/-- What an object of any members, or null in its place, is written again as. -/
inductive Rewritten (shape : Shape) (room : Nat) : Tree → Value → Prop
  | null : Rewritten shape room .null .null
  | object {ms : List (Option String × Tree)} {entries members : List (String × Value)}
      (h : Tree.Entries (Kept shape room) ms entries) (hs : Settles entries members) :
      Rewritten shape room (.object ms) (.object members)

theorem kept_attribute_iff {room : Nat} {t : Tree} {v : Value} :
    Kept .attribute room t v ↔ ∃ x, (Value.ofNode room t.node).toOption = some x ∧ x = v := by
  rw [exists_eq_right, Tree.toOption_ofNode]
  constructor
  · rintro ⟨⟩
    exact ⟨‹_›, ‹_›⟩
  · exact fun ⟨h, hd⟩ ↦ .attribute h hd

theorem kept_user_iff {room : Nat} {t : Tree} {v : Value} :
    Kept .user room t v ↔
      ∃ a, (UserAttribute.ofNode room t.node).toOption = some a ∧ a.toValue = v := by
  simp only [toOption_eq_some]
  constructor
  · rintro ⟨⟩
    exact ⟨_, ‹_›, rfl⟩
  · rintro ⟨a, ha, rfl⟩
    exact .user ha

/-- A record is written again if the values of its members are. -/
theorem exists_rewritten {shape : Shape} {room : Nat} {ms : List (Option String × Tree)}
    (h : ∀ m ∈ ms, ∃ key v, m.1 = some key ∧ Kept shape room m.2 v) :
    ∃ members, Rewritten shape room (.object ms) (.object members) := by
  obtain ⟨entries, hentries⟩ := Tree.exists_entries h
  exact ⟨putAll [] entries, .object hentries (settles_iff.2 rfl)⟩

section Reading

variable {α ρ : Type} {shape : Shape} {read : (room : Nat) → Node → Except Complaint α}
  {f : α → Value} {toValue : ρ → Value}

theorem readMap_object {room : Nat} {ms : List (Option String × Tree)}
    {result : List (String × α)} :
    (readMap read (room + 1) (Tree.object ms).node).toOption = some result ↔ ∃ entries,
      Tree.Entries (fun t x ↦ (read room t.node).toOption = some x) ms entries ∧
        Settles entries result := by
  simp only [settles_iff]
  exact Tree.toOption_readEntries

/-- The reader of a map whose values are written one by one. -/
theorem readMap_rewritten (make : List (String × α) → ρ) (toValue : ρ → Value)
    (hkept : ∀ room t v, Kept shape room t v ↔ ∃ x, (read room t.node).toOption = some x ∧ f x = v)
    (hvalue : ∀ entries, toValue (make entries) = .object (entries.map fun (key, x) ↦ (key, f x)))
    {room : Nat} {t : Tree} {v : Value} :
    (readOption (fun n ↦ (readMap read (room + 1) n).map make) t.node).toOption.map
      (nullable toValue) = some v ↔ Rewritten shape room t v := by
  cases t with
  | null =>
    constructor
    · rintro ⟨⟩
      exact .null
    · rintro ⟨⟩
      rfl
  | object ms =>
    have hread : (readOption (fun n ↦ (readMap read (room + 1) n).map make)
        (Tree.object ms).node).toOption.map (nullable toValue) =
          (readMap read (room + 1) (Tree.object ms).node).toOption.map (toValue ∘ make) := by
      simp only [Json.Tree.node, readOption, toOption_map, Option.map_map]
      rfl
    rw [hread, Option.map_eq_some_iff]
    simp only [Function.comp_apply, hvalue, readMap_object]
    constructor
    · rintro ⟨result, ⟨entries, hentries, hsettles⟩, rfl⟩
      refine .object (hentries.map fun t x hx ↦ ?_) (hsettles.map f)
      exact (hkept room t (f x)).2 ⟨x, hx, rfl⟩
    · intro h
      cases h with
      | object hentries hsettles =>
        have hmapped := hentries.imp fun t v hv ↦ (hkept room t v).1 hv
        obtain ⟨xs, hxs, rfl⟩ := Tree.entries_map_iff.1 hmapped
        refine ⟨putAll [] xs, ⟨xs, hxs, settles_iff.2 rfl⟩, ?_⟩
        rw [← putAll_map]
        exact congrArg Value.object (settles_iff.1 hsettles)
  | bool | number | string | list =>
    constructor
    · intro h
      simp [Json.Tree.node, readOption, readMap] at h
    · rintro ⟨⟩

theorem reencodeAs_eq_listText {read : (room : Nat) → Node → Except Complaint ρ}
    (hread : ∀ room, ByTree (read room))
    (hvalue : ∀ t v, (readOption (read 126) t.node).toOption.map (nullable toValue) = some v ↔
      Rewritten shape 125 t v) {text : String} {ts : List Tree}
    (ht : SpellsText (.list ts) text.toList) {u : String} :
    reencodeAs read toValue text = .ok u ↔ ∃ vs, List.Forall₂ (Rewritten shape 125) ts vs ∧
      u = listText (vs.map Value.text) := by
  have hvalues : ∀ vs, List.Forall₂ (Rewritten shape 125) ts vs ↔
      ((ts.mapM fun t ↦ (readOption (read 126) t.node).toOption).map
        (List.map (nullable toValue))) = some vs := by
    intro vs
    simp only [← mapM_option_map, mapM_eq_some, hvalue]
  simp only [reencodeAs_of_spells hread ht, readRecords_list, hvalues, Option.map_eq_some_iff]
  constructor
  · rintro ⟨p, ⟨records, hrecords, rfl⟩, rfl⟩
    exact ⟨_, ⟨records, hrecords, rfl⟩, Value.text_list _⟩
  · rintro ⟨_, ⟨records, hrecords, rfl⟩, rfl⟩
    exact ⟨_, ⟨records, hrecords, rfl⟩, Value.text_list _⟩

theorem exists_readDocument {read : (room : Nat) → Node → Except Complaint ρ}
    (hread : ∀ room, ByTree (read room))
    (hvalue : ∀ t v, (readOption (read 127) t.node).toOption.map (nullable toValue) = some v ↔
      Rewritten shape 126 t v) {text : String} {ms : List (Option String × Tree)}
    (ht : SpellsText (.object ms) text.toList) {v : Value} :
    (∃ r, readDocument read text = .ok r ∧ toValue r = v) ↔ Rewritten shape 126 (.object ms) v := by
  simp only [← hvalue, readDocument_eq_ok_of_spells (hread _) ht, Json.Tree.node, readOption,
    toOption_map, Option.map_map, Option.map_eq_some_iff]
  rfl

end Reading

theorem attribute_rewritten {room : Nat} {t : Tree} {v : Value} :
    (readOption (AttributeRecord.ofNode (room + 1)) t.node).toOption.map
      (nullable AttributeRecord.toValue) = some v ↔ Rewritten .attribute room t v :=
  readMap_rewritten AttributeRecord.mk AttributeRecord.toValue (fun _ _ _ ↦ kept_attribute_iff)
    (fun entries ↦ congrArg Value.object (List.map_id entries).symm)

theorem user_rewritten {room : Nat} {t : Tree} {v : Value} :
    (readOption (UserRecord.ofNode (room + 1)) t.node).toOption.map
      (nullable UserRecord.toValue) = some v ↔ Rewritten .user room t v :=
  readMap_rewritten UserRecord.mk UserRecord.toValue (fun _ _ _ ↦ kept_user_iff) (fun _ ↦ rfl)

/-- A record of attributes, or of a user, has each of its keys written once, where the key came
first, with what its last value is written again as, and so have the objects in an attribute. It is
written just if all its members can be, those among them that others replace. -/
theorem repeated_keys :
    (∀ shape room ms, (∀ m ∈ ms, ∃ key v, m.1 = some key ∧ Kept shape room m.2 v) →
      ∃ members, Rewritten shape room (.object ms) (.object members)) ∧
    (∀ text ms, SpellsText (.object ms) text.toList → ∀ v,
      ((∃ r, readDocument AttributeRecord.ofNode text = .ok r ∧ r.toValue = v) ↔
        Rewritten .attribute 126 (.object ms) v) ∧
      ((∃ r, readDocument UserRecord.ofNode text = .ok r ∧ r.toValue = v) ↔
        Rewritten .user 126 (.object ms) v)) ∧
    (∀ shape text ts, shape ≠ .event → SpellsText (.list ts) text.toList → ∀ u,
      (reencode shape text = .ok u ↔ ∃ vs, List.Forall₂ (Rewritten shape 125) ts vs ∧
        u = listText (vs.map Value.text)) ∧
      ∀ b, Gzip.decompress b = .ok (Bytes.ofText text) →
        (decode shape (some (Base64.encode b)) = .ok (some u) ↔ reencode shape text = .ok u)) ∧
    ∀ members, (Value.object members).text =
      objectText (members.map fun (key, v) ↦ (key, v.text)) := by
  refine ⟨fun _ _ _ ↦ exists_rewritten, ?_, ?_, Value.text_object⟩
  · intro text ms ht v
    exact ⟨exists_readDocument AttributeRecord.byTree_ofNode (fun _ _ ↦ attribute_rewritten) ht,
      exists_readDocument UserRecord.byTree_ofNode (fun _ _ ↦ user_rewritten) ht⟩
  · intro shape text ts hshape ht u
    refine ⟨?_, fun b hb ↦ decode_eq_reencode ht hb⟩
    cases shape with
    | event => exact absurd rfl hshape
    | «attribute» =>
      exact reencodeAs_eq_listText AttributeRecord.byTree_ofNode (fun _ _ ↦ attribute_rewritten) ht
    | user => exact reencodeAs_eq_listText UserRecord.byTree_ofNode (fun _ _ ↦ user_rewritten) ht

theorem repeated_keys_nested :
    let inner : Value := .object [("x", .ofInt 1), ("y", .bool true), ("x", .null)]
    let attributes : Value := .object [("b", .ofInt 1), ("a", inner), ("b", .bool false)]
    let escaped := "\x7b\"b\":1,\"\\u0062\":null\x7d"
    let user : Value := .object
      [("n", .object [("value", .ofInt 1)]), ("m", .list [.null, .null]), ("n", .list [.null])]
    reencode .attribute (Value.list [attributes, .null]).text =
        .ok "[\x7b\"b\":false,\"a\":\x7b\"x\":null,\"y\":true\x7d\x7d,null]" ∧
      (∃ r, readDocument AttributeRecord.ofNode escaped = .ok r ∧
        r.toValue = .object [("b", .null)]) ∧
      ∃ r, readDocument UserRecord.ofNode user.text = .ok r ∧
        r.toValue = .object [("n", (UserAttribute.mk none 0).toValue),
          ("m", (UserAttribute.mk none 0).toValue)] := by
  intro inner attributes escaped user
  obtain ⟨-, hdocument, hpayload, -⟩ := repeated_keys
  have hone : (Value.ofInt 1).Exact := ⟨by decide, by decide⟩
  have hexact : (Value.list [attributes, .null]).Exact :=
    ⟨⟨hone, ⟨hone, trivial, trivial, trivial⟩, trivial, trivial⟩, trivial, trivial⟩
  have huser_exact : user.Exact :=
    ⟨⟨hone, trivial⟩, ⟨trivial, trivial, trivial⟩, ⟨trivial, trivial⟩, trivial⟩
  refine ⟨?_, ?_, ?_⟩
  · refine ((hpayload .attribute _ _ nofun (Value.spellsText hexact) _).1).2
      ⟨[.object [("b", .bool false), ("a", .object [("x", .null), ("y", .bool true)])], .null],
        ?_, by decide +kernel⟩
    have hinner : inner.tree.Means (.object [("x", .null), ("y", .bool true)]) :=
      .object (.cons (.number _) (.cons (.bool true) (.cons .null .nil))) (settles_iff.2 rfl)
    have hdepth : inner.tree.depth ≤ 125 := by decide
    refine .cons (.object (.cons (.attribute (.number _) (Nat.zero_le _)) (.cons
      (.attribute hinner hdepth) (.cons (.attribute (.bool false) (Nat.zero_le _)) .nil)))
      (settles_iff.2 rfl)) (.cons .null .nil)
  · have hkey : Quoted.Spells (some "b") ['"', '\\', 'u', '0', '0', '6', '2', '"'] :=
      .mk (.cons (.unit (n := 98) rfl) .nil)
    have hmembers := SpellsMembers.cons (.first blanks_nil) (Quoted.writeChars_spells "b")
      blanks_nil blanks_nil (Value.spells (.ofInt 1) hone) (.cons (.next blanks_nil blanks_nil) hkey
        blanks_nil blanks_nil .null (.close blanks_nil))
    have hspells : SpellsText (.object [(some "b", (Value.ofInt 1).tree), (some "b", .null)])
        escaped.toList := by
      have htext := SpellsText.mk blanks_nil blanks_nil (.object hmembers)
      have hchars : escaped.toList = '\x7b' :: (Quoted.writeChars "b" ++ ':' ::
          ((Value.ofInt 1).chars ++ ',' :: '"' :: '\\' :: 'u' :: '0' :: '0' :: '6' :: '2' :: '"' ::
            ':' :: 'n' :: 'u' :: 'l' :: 'l' :: ['\x7d'])) := by
        decide +kernel
      rw [hchars]
      exact htext
    refine ((hdocument _ _ hspells _).1).2 (.object (.cons (.attribute (.number _) (Nat.zero_le _))
      (.cons (.attribute .null (Nat.zero_le _)) .nil)) (settles_iff.2 rfl))
  · have hlist : UserAttribute.ofNode 126 (Tree.list [.null]).node = .ok ⟨none, 0⟩ := rfl
    have hlists : UserAttribute.ofNode 126 (Tree.list [.null, .null]).node = .ok ⟨none, 0⟩ := rfl
    have hobject : UserAttribute.ofNode 126
        (Tree.object [(some "value", (Value.ofInt 1).tree)]).node = .ok ⟨some "1", 0⟩ :=
      toOption_eq_some.1 (by decide +kernel)
    exact ((hdocument _ _ (Value.spellsText huser_exact) _).2).2 (.object
      (.cons (.user hobject) (.cons (.user hlists) (.cons (.user hlist) .nil))) (settles_iff.2 rfl))

end Clickstream

end ColumnFunctions
