import ColumnFunctions.Proofs.Clickstream.Elements
import ColumnFunctions.Proofs.Record.Layout

namespace ColumnFunctions

open Json

/-- Only the members with the given names matter to a reader of objects, in whatever order they
stand, and none of the names may come twice. -/
structure OnlyNamed {α : Type} (read : (room : ℕ) → Node → Except Complaint α)
    (names : List String) : Prop where
  anywhere : ∀ {room n n' ms ms'}, n.tree? = some (.object ms) → n'.tree? = some (.object ms') →
    Extends names ms ms' → ∀ x, read room n' = .ok x ↔ read room n = .ok x
  document : ∀ {text text' ms ms'}, SpellsText (.object ms) text.toList →
    SpellsText (.object ms') text'.toList → Extends names ms ms' →
      ∀ x, readDocument read text' = .ok x ↔ readDocument read text = .ok x
  repeated : ∀ {room n ms name}, n.tree? = some (.object ms) → name ∈ names →
    2 ≤ (ms.map Prod.fst).count (some name) → ∀ x, read room n ≠ .ok x
  repeated_document : ∀ {text ms name}, SpellsText (.object ms) text.toList → name ∈ names →
    2 ≤ (ms.map Prod.fst).count (some name) → ∀ x, readDocument read text ≠ .ok x

section Reading

variable {α : Type} {read : (room : ℕ) → Node → Except Complaint α}

theorem Rows.onlyNamed {toValue : α → Value} {layout : Layout} {needed : Bool}
    {view : α → List Value} (h : Rows read toValue layout needed view) :
    OnlyNamed read layout.names where
  anywhere hn hn' he x := by
    rw [eq_ok_of_tree? (h.byTree _) hn, eq_ok_of_tree? (h.byTree _) hn', h.read_extends he]
  document ht ht' he x := by
    rw [readDocument_eq_ok_of_spells (h.byTree _) ht,
      readDocument_eq_ok_of_spells (h.byTree _) ht', h.read_extends he]
  repeated hn hname hcount x := by
    rw [ne_eq, eq_ok_of_tree? (h.byTree _) hn, h.read_repeated hname hcount]
    simp
  repeated_document ht hname hcount x := by
    rw [ne_eq, readDocument_eq_ok_of_spells (h.byTree _) ht, h.read_repeated hname hcount]
    simp

end Reading

/-- The members of an object in another order, and among them others under other names. -/
inductive Rearranged (names : List String) : Tree → Tree → Prop
  | same (t : Tree) : Rearranged names t t
  | object {ms ms' : List (Option String × Tree)} (h : Extends names ms ms') :
      Rearranged names (.object ms) (.object ms')

inductive RearrangedWithin (names : List String) : Tree → Tree → Prop
  | same (t : Tree) : RearrangedWithin names t t
  | object {ms ms' : List (Option String × Tree)}
      (h : List.Forall₂ (fun m m' ↦ m.1 = m'.1 ∧ Rearranged names m.2 m'.2) ms ms') :
      RearrangedWithin names (.object ms) (.object ms')

section Readers

variable {α : Type} {read : (room : ℕ) → Node → Except Complaint α} {toValue : α → Value}
  {layout : Layout} {needed : Bool} {view : α → List Value}
  (h : Rows read toValue layout needed view) {t t' : Tree}

include h

theorem Rearranged.read_eq (ht : Rearranged layout.names t t') (room : ℕ) :
    (read room t'.node).toOption = (read room t.node).toOption := by
  cases ht with
  | same => rfl
  | object he => exact h.read_extends he room

theorem Rearranged.readOption_eq (ht : Rearranged layout.names t t') (room : ℕ) :
    (readOption (read room) t'.node).toOption = (readOption (read room) t.node).toOption := by
  cases ht with
  | same => rfl
  | object he =>
    have hread := h.read_extends he room
    simp only [Json.Tree.node, readOption, toOption_map] at hread ⊢
    rw [hread]

theorem readEntries_rearranged {ms ms' : List (Option String × Tree)}
    (hms : List.Forall₂ (fun m m' ↦ m.1 = m'.1 ∧ Rearranged layout.names m.2 m'.2) ms ms')
    (room : ℕ) (entries : List (String × α)) :
    (readEntries (read room) entries (Tree.members ms')).toOption =
      (readEntries (read room) entries (Tree.members ms)).toOption := by
  induction hms generalizing entries with
  | nil => rfl
  | @cons m m' ms ms' hm _ ih =>
    obtain ⟨key, t⟩ := m
    obtain ⟨key', t'⟩ := m'
    obtain ⟨rfl, ht⟩ : key = key' ∧ Rearranged layout.names t t' := hm
    simp only [Tree.members, readEntries, toOption_bind, toOption_issue, toOption_part,
      ht.read_eq h, ih]

end Readers

/-- What it takes for an object without repeated names to be an attribute. -/
structure UserAttribute.Accepted (ms : List (Option String × Tree)) : Prop where
  present : AnyNamed UserAttribute.layout.names ms
  value : ∀ t, (some "value", t) ∈ ms → ∃ s, Scalar.ofTree? t = some s
  set_timestamp : ∀ t, (some "set_timestamp", t) ∈ ms →
    ∃ s, Scalar.ofTree? t = some s ∧ ∀ s', s = some s' → ∃ n, s'.toInt64 = .ok n

theorem UserAttribute.exists_read {room : ℕ} {ms : List (Option String × Tree)}
    (hl : Legible UserAttribute.layout.names [] ms) :
    (∃ a, (UserAttribute.ofNode (room + 1) (Tree.object ms).node).toOption = some a) ↔
      UserAttribute.Accepted ms := by
  have hvalue : (ms.map Prod.fst).count (some "value") ≤ 1 := hl.2 _ (by decide)
  have htime : (ms.map Prod.fst).count (some "set_timestamp") ≤ 1 := hl.2 _ (by decide)
  rw [UserAttribute.rows.exists_read, and_iff_right hl]
  simp only [layout, Layout.columns, List.map_cons, List.map_nil, List.forall_mem_cons]
  rw [exists_fill hvalue, exists_fill htime]
  simp only [Kind.exists_enter_text, Kind.exists_enter_integer, Width.exists_read?_long]
  constructor
  · rintro ⟨hnamed, hv, ht, -⟩
    exact ⟨hnamed trivial, hv, ht⟩
  · rintro ⟨hnamed, hv, ht⟩
    refine ⟨fun _ ↦ hnamed, hv, ht, fun c hc ↦ ?_⟩
    cases hc

namespace Clickstream

theorem mapM_congr {α β : Type} {f : α → Option β} {xs ys : List α}
    (h : List.Forall₂ (fun x y ↦ f y = f x) xs ys) : ys.mapM f = xs.mapM f := by
  induction h with
  | nil => rfl
  | cons hxy _ ih => rw [List.mapM_cons, List.mapM_cons, hxy, ih]

theorem reencodeAs_congr {α : Type} {read : (room : ℕ) → Node → Except Complaint α}
    {toValue : α → Value} (htree : ∀ room, ByTree (read room)) {text text' : String}
    {ts ts' : List Tree} (ht : SpellsText (.list ts) text.toList)
    (ht' : SpellsText (.list ts') text'.toList)
    (hs : List.Forall₂ (fun t t' ↦ (readOption (read 126) t'.node).toOption =
      (readOption (read 126) t.node).toOption) ts ts') (u : String) :
    reencodeAs read toValue text' = .ok u ↔ reencodeAs read toValue text = .ok u := by
  rw [reencodeAs_of_spells htree ht, reencodeAs_of_spells htree ht', readRecords_list,
    readRecords_list, mapM_congr hs]

theorem reencode_event_rearranged {text text' : String} {ts ts' : List Tree}
    (ht : SpellsText (.list ts) text.toList) (ht' : SpellsText (.list ts') text'.toList)
    (hs : List.Forall₂ (Rearranged EventRecord.layout.names) ts ts') (u : String) :
    reencode .event text' = .ok u ↔ reencode .event text = .ok u :=
  reencodeAs_congr EventRecord.byTree_ofNode ht ht'
    (hs.imp fun _ _ h ↦ h.readOption_eq EventRecord.rows 126) u

theorem reencode_user_rearranged {text text' : String} {ts ts' : List Tree}
    (ht : SpellsText (.list ts) text.toList) (ht' : SpellsText (.list ts') text'.toList)
    (hs : List.Forall₂ (RearrangedWithin UserAttribute.layout.names) ts ts') (u : String) :
    reencode .user text' = .ok u ↔ reencode .user text = .ok u := by
  refine reencodeAs_congr UserRecord.byTree_ofNode ht ht' (hs.imp fun t t' h ↦ ?_) u
  cases h with
  | same => rfl
  | object hms =>
    have hread := readEntries_rearranged UserAttribute.rows hms 125 []
    simp only [readOption, Json.Tree.node, UserRecord.ofNode, readMap, toOption_map, hread]

/-- An event, and an attribute of a user, is what the members under the names of its fields make of
it, wherever it stands: other members and the order of all of them change neither the record nor
that there is none. All members of an event are written, in order, and an attribute has at least one
of its two. -/
theorem only_modeled_members :
    OnlyNamed EventRecord.ofNode EventRecord.layout.names ∧
    OnlyNamed UserAttribute.ofNode UserAttribute.layout.names ∧
    (∀ text text' ts ts', SpellsText (.list ts) text.toList → SpellsText (.list ts') text'.toList →
      List.Forall₂ (Rearranged EventRecord.layout.names) ts ts' →
        ∀ u, reencode .event text' = .ok u ↔ reencode .event text = .ok u) ∧
    (∀ text text' ts ts', SpellsText (.list ts) text.toList → SpellsText (.list ts') text'.toList →
      List.Forall₂ (RearrangedWithin UserAttribute.layout.names) ts ts' →
        ∀ u, reencode .user text' = .ok u ↔ reencode .user text = .ok u) ∧
    (∀ r : EventRecord, ∃ values : List Value,
      r.toValue = .object (EventRecord.layout.names.zip values) ∧
      List.Forall₂ (fun field v ↦ field.2.Holds v) EventRecord.layout values) ∧
    ∀ ms : List (Option String × Tree), (∀ m ∈ ms, m.1 ≠ none) →
      (∀ name ∈ UserAttribute.layout.names, (ms.map Prod.fst).count (some name) ≤ 1) →
      (∀ room n, n.tree? = some (.object ms) →
        ((∃ a, UserAttribute.ofNode (room + 1) n = .ok a) ↔ UserAttribute.Accepted ms)) ∧
      ∀ text, SpellsText (.object ms) text.toList →
        ((∃ a, readDocument UserAttribute.ofNode text = .ok a) ↔ UserAttribute.Accepted ms) := by
  refine ⟨EventRecord.rows.onlyNamed, UserAttribute.rows.onlyNamed, ?_, ?_, ?_, ?_⟩
  · exact fun _ _ _ _ ↦ reencode_event_rearranged
  · exact fun _ _ _ _ ↦ reencode_user_rearranged
  · exact fun r ↦ ⟨r.values, EventRecord.rows.toValue_eq r, EventRecord.rows.holds r⟩
  · intro ms hkeys hcount
    have hl : Legible UserAttribute.layout.names [] ms := ⟨hkeys, hcount⟩
    constructor
    · intro room n hn
      simp only [eq_ok_of_tree? (UserAttribute.byTree_ofNode _) hn, UserAttribute.exists_read hl]
    · intro text ht
      simp only [readDocument_eq_ok_of_spells (UserAttribute.byTree_ofNode _) ht]
      exact @UserAttribute.exists_read 126 ms hl

theorem only_modeled_members_turned :
    let event : Value := .object [("event_id", .ofInt 7), ("timestamp", .string " 1 ")]
    let event' : Value :=
      .object [("timestamp", .string " 1 "), ("x", .list [.null]), ("event_id", .ofInt 7)]
    let user : Value := .object [("value", .ofInt 1), ("set_timestamp", .null)]
    let user' : Value :=
      .object [("set_timestamp", .null), ("x", .list [.null]), ("value", .ofInt 1)]
    let twice : Value := .object [("value", .null), ("value", .null)]
    let events := fun v : Value ↦ (Value.list [v]).text
    let users := fun v : Value ↦ (Value.list [.object [("a", v)]]).text
    let u := "[\x7b\"a\":\x7b\"value\":\"1\",\"set_timestamp\":0\x7d\x7d]"
    readDocument EventRecord.ofNode event'.text =
        .ok { eventId := some "7", timestamp := 1 } ∧
      readDocument UserAttribute.ofNode user'.text = .ok ⟨some "1", 0⟩ ∧
      (∀ u, reencode .event (events event') = .ok u ↔ reencode .event (events event) = .ok u) ∧
      reencode .user (users user') = .ok u ∧
      (∀ a, readDocument UserAttribute.ofNode twice.text ≠ .ok a) ∧
      ∃ a, readDocument UserAttribute.ofNode user.text = .ok a := by
  intro event event' user user' twice events users u
  obtain ⟨hevent, huser, hevents, husers, -, haccepted⟩ := only_modeled_members
  have hturned : ∀ (names : List String) (m m' : Option String × Tree), "x" ∉ names →
      Extends names [m, m'] [m', (some "x", .list [.null]), m] := by
    intro names m m' hx
    refine ⟨[(some "x", .list [.null])], by simpa using hx, ?_⟩
    exact @List.perm_append_comm _ [m', (some "x", .list [.null])] [m]
  have hone : (Value.ofInt 1).Exact := ⟨by decide, by decide⟩
  have hseven : (Value.ofInt 7).Exact := ⟨by decide, by decide⟩
  have hevent_exact : event.Exact := ⟨hseven, trivial, trivial⟩
  have hevent_exact' : event'.Exact := ⟨trivial, ⟨trivial, trivial⟩, hseven, trivial⟩
  have huser_exact : user.Exact := ⟨hone, trivial, trivial⟩
  have huser_exact' : user'.Exact := ⟨trivial, ⟨trivial, trivial⟩, hone, trivial⟩
  have htwice_exact : twice.Exact := ⟨trivial, trivial, trivial⟩
  have hextends := hturned EventRecord.layout.names (some "event_id", (Value.ofInt 7).tree)
    (some "timestamp", .string (some " 1 ")) (by decide)
  have hextends' := hturned UserAttribute.layout.names (some "value", (Value.ofInt 1).tree)
    (some "set_timestamp", .null) (by decide)
  refine ⟨?_, ?_, ?_, ?_, ?_, ?_⟩
  · refine (hevent.document (Value.spellsText hevent_exact) (Value.spellsText hevent_exact')
      hextends _).2 (toOption_eq_some.1 ?_)
    decide +kernel
  · refine (huser.document (Value.spellsText huser_exact) (Value.spellsText huser_exact')
      hextends' _).2 (toOption_eq_some.1 ?_)
    decide +kernel
  · exact hevents _ _ [event.tree] [event'.tree]
      (Value.spellsText (v := .list [event]) ⟨hevent_exact, trivial⟩)
      (Value.spellsText (v := .list [event']) ⟨hevent_exact', trivial⟩)
      (.cons (.object hextends) .nil)
  · refine (husers _ _ [.object [(some "a", user.tree)]] [.object [(some "a", user'.tree)]]
      (Value.spellsText (v := .list [.object [("a", user)]]) ⟨⟨huser_exact, trivial⟩, trivial⟩)
      (Value.spellsText (v := .list [.object [("a", user')]]) ⟨⟨huser_exact', trivial⟩, trivial⟩)
      (.cons (.object (.cons ⟨rfl, .object hextends'⟩ .nil)) .nil) u).2 (toOption_eq_some.1 ?_)
    decide +kernel
  · have hvalue : "value" ∈ UserAttribute.layout.names := by decide
    exact huser.repeated_document (Value.spellsText htwice_exact) hvalue (by decide)
  · obtain ⟨-, hdocument⟩ := haccepted [(some "value", (Value.ofInt 1).tree),
      (some "set_timestamp", .null)] (by simp) (by decide)
    refine (hdocument _ (Value.spellsText huser_exact)).2 ⟨⟨"value", by decide, by decide⟩, ?_, ?_⟩
    · intro t ht
      obtain rfl : t = (Value.ofInt 1).tree := by simpa using ht
      exact ⟨some (.integer 1), rfl⟩
    · intro t ht
      obtain rfl : t = .null := by simpa using ht
      exact ⟨none, rfl, fun _ h ↦ nomatch h⟩

end Clickstream

end ColumnFunctions
