import ColumnFunctions.Proofs.Clickstream.Elements
import ColumnFunctions.Proofs.Record.Layout

namespace ColumnFunctions

open Json

def Json.Tree.IsScalar (t : Tree) : Prop := ∃ s, Scalar.ofTree? t = some s

/-- The forms of a record whose fields hold scalars, with or without `lists` of them in order. -/
inductive Rows.Form (names : List String) (needed lists : Bool) : Tree → Prop
  | object {ms : List (Option String × Tree)} (hn : needed → AnyNamed names ms)
      (hs : ∀ name ∈ names, ∀ t, (some name, t) ∈ ms → t.IsScalar) :
      Form names needed lists (.object ms)
  | list {ts : List Tree} (h : lists) (hn : needed → ts ≠ []) (hl : ts.length ≤ names.length)
      (hs : ∀ t ∈ ts, t.IsScalar) : Form names needed lists (.list ts)

namespace Rows

theorem form_false_iff {names : List String} {needed : Bool} {t : Tree} :
    Form names needed false t ↔ Form names needed true t ∧ ∀ ts, t ≠ .list ts := by
  constructor
  · intro h
    cases h with
    | object hn hs => exact ⟨.object hn hs, fun _ ↦ Tree.noConfusion⟩
    | list h => cases h
  · rintro ⟨h, hne⟩
    cases h with
    | object hn hs => exact .object hn hs
    | list => exact absurd rfl (hne _)

theorem exists_mem_positional {names : List String} {ts : List Tree}
    (hl : ts.length ≤ names.length) {t : Tree} (ht : t ∈ ts) :
    ∃ name ∈ names, (some name, t) ∈ positional names ts := by
  obtain ⟨i, hi, rfl⟩ := List.mem_iff_getElem.1 ht
  have hname : i < names.length := Nat.lt_of_lt_of_le hi hl
  refine ⟨names[i], List.getElem_mem hname, List.mem_iff_getElem.2 ⟨i, ?_, ?_⟩⟩
  · simp [positional, hname, hi]
  · simp [positional]

variable {α : Type} {read : (room : ℕ) → Node → Except Complaint α} {toValue : α → Value}
  {layout : Layout} {needed : Bool} {view : α → List Value}
  (h : Rows read toValue layout needed view) {room : ℕ} {x : α}

include h

theorem form_of_object {ms : List (Option String × Tree)}
    (hx : (read room (Tree.object ms).node).toOption = some x) :
    (needed → AnyNamed layout.names ms) ∧
      ∀ name ∈ layout.names, ∀ t, (some name, t) ∈ ms → t.IsScalar := by
  cases room with
  | zero =>
    rw [h.closed] at hx
    cases hx
  | succ room =>
    obtain ⟨hl, hn, hfill⟩ := h.exists_read.1 ⟨x, hx⟩
    refine ⟨hn, fun name hname t ht ↦ ?_⟩
    obtain ⟨⟨_, kind⟩, hfield, rfl⟩ := List.mem_map.1 hname
    have hcolumn := hfill (kind.column _) (List.mem_map.2 ⟨_, hfield, rfl⟩)
    obtain ⟨v, hv⟩ := (exists_fill (hl.2 _ hname)).1 hcolumn t ht
    obtain ⟨s, hs, -⟩ := Option.bind_eq_some_iff.1 hv
    exact ⟨s, hs⟩

/-- Whatever is read as a record has one of the forms. -/
theorem form_of_read {t : Tree} (hx : (read room t.node).toOption = some x) :
    Form layout.names needed true t := by
  cases t with
  | object ms =>
    obtain ⟨hn, hs⟩ := h.form_of_object hx
    exact .object hn hs
  | list ts =>
    rw [h.list] at hx
    split at hx
    · next hl =>
      -- A list has the form of the object that it is read as.
      obtain ⟨hn, hs⟩ := h.form_of_object hx
      have hl : ts.length ≤ layout.names.length := by rwa [Layout.names, List.length_map]
      refine .list rfl (fun hneeded hnil ↦ ?_) hl fun t ht ↦ ?_
      · obtain ⟨name, -, hname⟩ := hn hneeded
        rw [hnil, positional, List.zip_nil_right] at hname
        cases hname
      · obtain ⟨name, hname, hmem⟩ := exists_mem_positional hl ht
        exact hs name hname t hmem
    · cases hx
  | null | bool | number | string =>
    rw [h.other room _ (fun _ ↦ Tree.noConfusion) fun _ ↦ Tree.noConfusion] at hx
    cases hx

end Rows

section Readers

variable {α : Type}

theorem eq_null_of_readOption {read : Node → Except Complaint α} {t : Tree} {x : Option α}
    (hx : (readOption read t.node).toOption = some x) :
    t = .null ∨ ∃ y, (read t.node).toOption = some y := by
  cases t with
  | null => exact .inl rfl
  | bool | number | string | list | object =>
    simp only [Json.Tree.node, readOption, toOption_map, Option.map_eq_some_iff] at hx ⊢
    obtain ⟨y, hy, -⟩ := hx
    exact .inr ⟨y, hy⟩

theorem exists_of_readEntries {read : Node → Except Complaint α}
    {ms : List (Option String × Tree)} {entries result : List (String × α)}
    (h : (readEntries read entries (Tree.members ms)).toOption = some result) :
    ∀ m ∈ ms, ∃ x, (read m.2.node).toOption = some x := by
  induction ms generalizing entries with
  | nil => exact fun _ hm ↦ nomatch hm
  | cons m ms ih =>
    obtain ⟨key, t⟩ := m
    simp only [Tree.members, readEntries, toOption_bind, toOption_issue, toOption_part,
      Option.bind_eq_some_iff] at h
    obtain ⟨k, -, x, hx, hrest⟩ := h
    exact List.forall_mem_cons.2 ⟨⟨x, hx⟩, ih hrest⟩

theorem exists_of_readMap {read : (room : ℕ) → Node → Except Complaint α} {room : ℕ} {t : Tree}
    {entries : List (String × α)} (h : (readMap read room t.node).toOption = some entries) :
    ∃ ms, t = .object ms ∧ ∀ m ∈ ms, ∃ room x, (read room m.2.node).toOption = some x := by
  cases t with
  | object ms =>
    cases room with
    | zero => cases h
    | succ room => exact ⟨ms, rfl, fun m hm ↦ ⟨room, exists_of_readEntries h m hm⟩⟩
  | null | bool | number | string | list => cases h

end Readers

namespace Clickstream

def RecordForm (lists : Bool) : Shape → Tree → Prop
  | .event, t => Rows.Form EventRecord.layout.names false lists t
  | .attribute, t => ∃ ms, t = .object ms
  | .user, t =>
    ∃ ms, t = .object ms ∧ ∀ m ∈ ms, Rows.Form UserAttribute.layout.names true lists m.2

def PayloadForm (lists : Bool) (shape : Shape) (t : Tree) : Prop :=
  t = .null ∨ ∃ ts, t = .list ts ∧ ∀ e ∈ ts, e = .null ∨ RecordForm lists shape e

/-- No list stands for a record with fields. -/
def RecordListless : Shape → Tree → Prop
  | .event, t => ∀ ts, t ≠ .list ts
  | .attribute, _ => True
  | .user, t => ∀ ms, t = .object ms → ∀ m ∈ ms, ∀ ts, m.2 ≠ .list ts

def Listless (shape : Shape) (t : Tree) : Prop :=
  ∀ ts, t = .list ts → ∀ e ∈ ts, RecordListless shape e

theorem recordForm_false_iff {shape : Shape} {t : Tree} :
    RecordForm false shape t ↔ RecordForm true shape t ∧ RecordListless shape t := by
  cases shape
  · exact Rows.form_false_iff
  · exact (and_iff_left trivial).symm
  · simp only [RecordForm, RecordListless, Rows.form_false_iff]
    constructor
    · rintro ⟨ms, rfl, h⟩
      refine ⟨⟨ms, rfl, fun m hm ↦ (h m hm).1⟩, fun ms' hms m hm ↦ ?_⟩
      cases hms
      exact (h m hm).2
    · rintro ⟨⟨ms, rfl, h⟩, hne⟩
      exact ⟨ms, rfl, fun m hm ↦ ⟨h m hm, hne ms rfl m hm⟩⟩

theorem recordListless_null (shape : Shape) : RecordListless shape .null := by
  cases shape
  · exact fun _ ↦ Tree.noConfusion
  · trivial
  · exact fun _ ↦ Tree.noConfusion

theorem PayloadForm.listless {shape : Shape} {t : Tree} (h : PayloadForm false shape t) :
    Listless shape t := by
  rintro ts rfl e he
  rcases h with hnull | ⟨_, ⟨⟩, hall⟩
  · cases hnull
  · rcases hall e he with rfl | hform
    · exact recordListless_null shape
    · exact (recordForm_false_iff.1 hform).2

theorem payloadForm_false_iff {shape : Shape} {t : Tree} (h : PayloadForm true shape t) :
    PayloadForm false shape t ↔ Listless shape t := by
  rcases h with rfl | ⟨ts, rfl, h⟩
  · exact iff_of_true (.inl rfl) fun _ ↦ Tree.noConfusion
  · refine ⟨PayloadForm.listless, fun hlistless ↦ ?_⟩
    refine .inr ⟨ts, rfl, fun e he ↦ (h e he).imp_right fun hform ↦ ?_⟩
    exact recordForm_false_iff.2 ⟨hform, hlistless ts rfl e he⟩

theorem payloadForm_of_readRecords {α : Type} {read : (room : ℕ) → Node → Except Complaint α}
    {shape : Shape} (h : ∀ {t x}, (read 126 t.node).toOption = some x → RecordForm true shape t)
    {t : Tree} {p : Payload α} (hp : readRecords read maxDepth t.node = .ok p) :
    PayloadForm true shape t := by
  rw [← toOption_eq_some] at hp
  cases t with
  | null => exact .inl rfl
  | list ts =>
    rw [readRecords_list] at hp
    obtain ⟨records, hrecords, -⟩ := Option.map_eq_some_iff.1 hp
    refine .inr ⟨ts, rfl, fun e he ↦ ?_⟩
    obtain ⟨x, hx⟩ := exists_mapM_eq_some.1 ⟨records, hrecords⟩ e he
    exact (eq_null_of_readOption hx).imp_right fun ⟨_, hy⟩ ↦ h hy
  | bool | number | string | object => cases hp

theorem payloadForm_of_reencode {shape : Shape} {text u : String}
    (h : reencode shape text = .ok u) :
    ∃ t, SpellsText t text.toList ∧ PayloadForm true shape t := by
  cases shape
  · obtain ⟨t, p, ht, hp, -⟩ := (reencodeAs_eq_ok EventRecord.byTree_ofNode).1 h
    refine ⟨t, ht, payloadForm_of_readRecords (fun hx ↦ ?_) hp⟩
    exact EventRecord.rows.form_of_read hx
  · obtain ⟨t, p, ht, hp, -⟩ := (reencodeAs_eq_ok AttributeRecord.byTree_ofNode).1 h
    refine ⟨t, ht, payloadForm_of_readRecords (fun hx ↦ ?_) hp⟩
    rw [AttributeRecord.ofNode, toOption_map, Option.map_eq_some_iff] at hx
    obtain ⟨entries, hentries, -⟩ := hx
    obtain ⟨ms, rfl, -⟩ := exists_of_readMap hentries
    exact ⟨ms, rfl⟩
  · obtain ⟨t, p, ht, hp, -⟩ := (reencodeAs_eq_ok UserRecord.byTree_ofNode).1 h
    refine ⟨t, ht, payloadForm_of_readRecords (fun hx ↦ ?_) hp⟩
    rw [UserRecord.ofNode, toOption_map, Option.map_eq_some_iff] at hx
    obtain ⟨entries, hentries, -⟩ := hx
    obtain ⟨ms, rfl, hms⟩ := exists_of_readMap hentries
    refine ⟨ms, rfl, fun m hm ↦ ?_⟩
    obtain ⟨room, x, hx⟩ := hms m hm
    exact UserAttribute.rows.form_of_read hx

/-- What is written again is null, or a list of nulls and records, each an object with scalars for
its fields, unless a list of scalars stands for an event or for an attribute of a user. A text of
any other form is malformed. -/
theorem payload_form (shape : Shape) (text : String) :
    (∀ u, reencode shape text = .ok u → ∃ t, SpellsText t text.toList ∧
      PayloadForm true shape t ∧ (PayloadForm false shape t ↔ Listless shape t)) ∧
    ∀ t, SpellsText t text.toList →
      ¬ PayloadForm true shape t ∨ (Listless shape t ∧ ¬ PayloadForm false shape t) →
      ∀ b, Gzip.decompress b = .ok (Bytes.ofText text) →
        ∃ detail, decode shape (some (Base64.encode b)) =
          .error ⟨.malformedCompressedData, detail⟩ := by
  constructor
  · intro u hu
    obtain ⟨t, ht, hform⟩ := payloadForm_of_reencode hu
    exact ⟨t, ht, hform, payloadForm_false_iff hform⟩
  · intro t ht hother b hb
    refine kind_of_decode hb fun u hu ↦ ?_
    obtain ⟨t', ht', hform⟩ := payloadForm_of_reencode ((decode_eq_reencode ht hb).1 hu)
    obtain rfl := ht.unique ht'
    rcases hother with hother | ⟨hlistless, hother⟩
    · exact hother hform
    · exact hother ((payloadForm_false_iff hform).2 hlistless)

theorem payload_form_number :
    let text := (Value.list [.null, .ofInt 7]).text
    let gzip := (Gzip.Member.ofBytes (Bytes.ofText text)).bytes
    ∃ detail, decode .event (some (Base64.encode gzip)) =
      .error ⟨.malformedCompressedData, detail⟩ := by
  intro text gzip
  have hspells : SpellsText (Value.list [.null, .ofInt 7]).tree text.toList :=
    Value.spellsText ⟨trivial, ⟨by decide, by decide⟩, trivial⟩
  refine (payload_form .event text).2 _ hspells (.inl ?_) gzip
    (Gzip.decompress_bytes (Gzip.Member.ofBytes (Bytes.ofText text)))
  rintro (hnull | ⟨ts, hts, hall⟩)
  · cases hnull
  · cases hts
    rcases hall (Value.ofInt 7).tree (by simp [Value.trees]) with h | h <;> cases h

/-- An empty list is an event without any field, and a list of null an attribute without a value,
though neither is an object. -/
theorem payload_form_lists :
    let gzip := fun text ↦ (Gzip.Member.ofBytes (Bytes.ofText text)).bytes
    let user := "[\x7b\"n\":[null]\x7d]"
    SpellsText (.list [.list []]) "[[]]".toList ∧
      ¬ PayloadForm false .event (.list [.list []]) ∧
      decode .event (some (Base64.encode (gzip "[[]]"))) =
        .ok (some (Value.list [({} : EventRecord).toValue]).text) ∧
      SpellsText (.list [.object [(some "n", .list [.null])]]) user.toList ∧
      ¬ PayloadForm false .user (.list [.object [(some "n", .list [.null])]]) ∧
      decode .user (some (Base64.encode (gzip user))) =
        .ok (some "[\x7b\"n\":\x7b\"value\":null,\"set_timestamp\":0\x7d\x7d]") := by
  intro gzip user
  have hgzip : ∀ text, Gzip.decompress (gzip text) = .ok (Bytes.ofText text) :=
    fun text ↦ Gzip.decompress_bytes (Gzip.Member.ofBytes (Bytes.ofText text))
  have hevents : (Value.list [.list []]).text = "[[]]" := by decide +kernel
  have husers : (Value.list [.object [("n", .list [.null])]]).text = user := by decide +kernel
  refine ⟨?_, ?_, (decode_encode (hgzip _)).2 (toOption_eq_some.1 (by decide +kernel)), ?_, ?_,
    (decode_encode (hgzip _)).2 (toOption_eq_some.1 (by decide +kernel))⟩
  · rw [← hevents]
    exact Value.spellsText (v := .list [.list []]) ⟨trivial, trivial⟩
  · exact fun hform ↦ hform.listless _ rfl (.list []) List.mem_cons_self [] rfl
  · rw [← husers]
    exact Value.spellsText (v := .list [.object [("n", .list [.null])]])
      ⟨⟨⟨trivial, trivial⟩, trivial⟩, trivial⟩
  · exact fun hform ↦
      hform.listless _ rfl _ List.mem_cons_self _ rfl _ List.mem_cons_self [.null] rfl

end Clickstream

end ColumnFunctions
