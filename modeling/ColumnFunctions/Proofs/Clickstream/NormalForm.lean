import ColumnFunctions.Proofs.Clickstream.Payload
import ColumnFunctions.Proofs.Record.Written

namespace ColumnFunctions.Clickstream

open Json

section Writing

variable {α : Type}

/-- What is written for the record is an object, from which the record is read. -/
structure Restores (read : (room : Nat) → Node → Except Complaint α) (toValue : α → Value) (x : α) :
    Prop where
  object : ∃ members, toValue x = .object members
  exact : (toValue x).Exact
  read_node : ∀ room, read (room + 2) (toValue x).tree.node = .ok x

def payloadValue (toValue : α → Value) (p : Payload α) : Value :=
  nullable (fun records ↦ .list (records.map (nullable toValue))) p

variable {read : Nat → Node → Except Complaint α} {toValue : α → Value}

theorem readOption_nullable {x : Option α} (h : ∀ y ∈ x, Restores read toValue y) (room : Nat) :
    readOption (read (room + 2)) (nullable toValue x).tree.node = .ok x := by
  cases x with
  | none => rfl
  | some y =>
    obtain ⟨⟨members, hobject⟩, -, hread⟩ := h y rfl
    have hy := hread room
    rw [nullable, hobject] at *
    rw [Value.tree, Json.Tree.node] at *
    rw [readOption, hy]
    · rfl
    · intro stop h
      cases h

theorem readRecords_payload {p : Payload α}
    (h : ∀ records ∈ p, ∀ x, some x ∈ records → Restores read toValue x) :
    readRecords read maxDepth (payloadValue toValue p).tree.node = .ok p := by
  cases p with
  | none => rfl
  | some records =>
    have hlist : readList (fun room ↦ readOption (read room)) maxDepth
        (payloadValue toValue (some records)).tree.node = .ok records :=
      readList_written fun x hx ↦
        readOption_nullable (fun y hy ↦ h records rfl y (hy ▸ hx)) 124
    rw [readRecords, payloadValue, nullable, Value.tree, Json.Tree.node, readOption]
    · rw [payloadValue, nullable, Value.tree, Json.Tree.node] at hlist
      rw [hlist]
      rfl
    · intro stop h
      cases h

theorem exact_payload {p : Payload α}
    (h : ∀ records ∈ p, ∀ x, some x ∈ records → Restores read toValue x) :
    (payloadValue toValue p).Exact := by
  cases p with
  | none => trivial
  | some records =>
    rw [payloadValue, nullable, Value.Exact, Value.exactAll_iff, List.forall_mem_map]
    intro x hx
    cases x with
    | none => trivial
    | some y => exact (h records rfl y hx).exact

/-- A payload whose records are restored is read again as it was written, which is in one line. -/
theorem reencodeAs_writePayload (htree : ∀ room, ByTree (read room)) {p : Payload α}
    (h : ∀ records ∈ p, ∀ x, some x ∈ records → Restores read toValue x) :
    (∀ c ∈ (writePayload toValue p).toList, c ≠ '\r' ∧ c ≠ '\n') ∧
      reencodeAs read toValue (writePayload toValue p) = .ok (writePayload toValue p) := by
  have hexact := exact_payload h
  constructor
  · exact Value.ne_break hexact
  · exact (reencodeAs_eq_ok htree).2 ⟨_, p, Value.spellsText hexact, readRecords_payload h, rfl⟩

theorem exists_of_readEach {β : Type} {read : Node → Except Complaint β} :
    ∀ {i : Nat} {es : Elements} {xs : List β}, readEach read i es = .ok xs →
      ∀ x ∈ xs, ∃ n, read n = .ok x
  | _, .close _, _, h, _, hx => by
    cases h
    cases hx
  | _, .broken _, _, h, _, _ => nomatch h
  | _, .cons _ n _ es, _, h, x, hx => by
    obtain ⟨y, hy, h⟩ := bind_eq_ok.1 h
    obtain ⟨ys, hys, h⟩ := bind_eq_ok.1 h
    cases h
    rcases List.mem_cons.1 hx with rfl | hx
    · refine ⟨n, ?_⟩
      rw [← toOption_eq_some, ← toOption_part, hy, toOption_ok]
    · exact exists_of_readEach hys x hx

theorem exists_of_readOption {β : Type} {read : Node → Except Complaint β} {n : Node} {x : β}
    (h : readOption read n = .ok (some x)) : read n = .ok x := by
  have hmap : ∀ {r : Except Complaint β}, r.map some = .ok (some x) → r = .ok x := by
    intro r hr
    cases r with
    | error c => cases hr
    | ok y =>
      cases hr
      rfl
  cases n with
  | null => cases h
  | bool | number | string | list | object | broken => exact hmap h

theorem exists_of_readRecords {room : Nat} {n : Node} {records : List (Option α)}
    (h : readRecords read room n = .ok (some records)) {x : α} (hx : some x ∈ records) :
    ∃ room n, read room n = .ok x := by
  have hlist := exists_of_readOption h
  cases n with
  | list start es =>
    cases room with
    | zero => cases hlist
    | succ room =>
      obtain ⟨n, hn⟩ := exists_of_readEach hlist _ hx
      exact ⟨room, n, exists_of_readOption hn⟩
  | null | bool | number | string | object | broken => cases hlist

/-- If every record that is read is restored, whatever is written is written again as it is. -/
theorem reencodeAs_reencodeAs (htree : ∀ room, ByTree (read room))
    (h : ∀ room n x, read room n = .ok x → Restores read toValue x) {text u : String}
    (hu : reencodeAs read toValue text = .ok u) :
    (∀ c ∈ u.toList, c ≠ '\r' ∧ c ≠ '\n') ∧ reencodeAs read toValue u = .ok u := by
  obtain ⟨t, p, -, hr, rfl⟩ := (reencodeAs_eq_ok htree).1 hu
  refine reencodeAs_writePayload htree fun records hrecords x hx ↦ ?_
  obtain rfl : p = some records := hrecords
  obtain ⟨room, n, hn⟩ := exists_of_readRecords hr hx
  exact h room n x hn

end Writing

theorem restores_event (r : EventRecord) : Restores EventRecord.ofNode EventRecord.toValue r :=
  ⟨⟨_, rfl⟩, r.exact_toValue, fun room ↦ EventRecord.ofNode_toValue (room + 1) r⟩

theorem restores_user {r : UserRecord} (h : (r.attributes.map Prod.fst).Nodup) :
    Restores UserRecord.ofNode UserRecord.toValue r :=
  ⟨⟨_, rfl⟩, r.exact_toValue, UserRecord.ofNode_toValue h⟩

theorem reencode_reencode {shape : Shape} (hs : shape ≠ .attribute) {text u : String}
    (h : reencode shape text = .ok u) :
    (∀ c ∈ u.toList, c ≠ '\r' ∧ c ≠ '\n') ∧ reencode shape u = .ok u := by
  cases shape
  · exact reencodeAs_reencodeAs EventRecord.byTree_ofNode (fun _ _ r _ ↦ restores_event r) h
  · exact absurd rfl hs
  · exact reencodeAs_reencodeAs UserRecord.byTree_ofNode
      (fun _ _ _ hn ↦ restores_user (UserRecord.nodup_of_ofNode hn)) h

theorem joinLines_of_forall {s : String} (h : ∀ c ∈ s.toList, c ≠ '\r' ∧ c ≠ '\n') :
    joinLines s = s := by
  have hfilter : s.toList.filter (fun c ↦ ¬ isLineBreak c) = s.toList := by
    refine List.filter_eq_self.2 fun c hc ↦ ?_
    simp [isLineBreak, h c hc]
  rw [joinLines, hfilter, String.ofList_toList]

theorem exists_of_decode {shape : Shape} {input u : String}
    (h : decode shape (some input) = .ok (some u)) : ∃ text, reencode shape text = .ok u := by
  obtain ⟨text, -, h⟩ := bind_eq_ok.1 h
  refine ⟨text, ?_⟩
  cases hr : reencode shape text with
  | error c =>
    rw [hr] at h
    cases h
  | ok json =>
    rw [hr] at h
    cases h
    rfl

/-- Records of events and of users are read as they were written, names of attributes in their
order; and what is decoded from a payload of them is decoded again from a gzip stream of it. -/
theorem normal_form :
    (∀ r : EventRecord, readDocument EventRecord.ofNode r.toValue.text = .ok r) ∧
    (∀ r : UserRecord, (r.attributes.map Prod.fst).Nodup →
      readDocument UserRecord.ofNode r.toValue.text = .ok r) ∧
    ∀ shape, shape ≠ .attribute → ∀ input u, decode shape (some input) = .ok (some u) →
      (∀ c ∈ u.toList, c ≠ '\r' ∧ c ≠ '\n') ∧
      (∀ b, Gzip.decompress b = .ok (Bytes.ofText u) →
        decode shape (some (Base64.encode b)) = .ok (some u)) ∧
      ∀ members : List Gzip.Member, members ≠ [] →
        members.flatMap Gzip.Member.chunk = Bytes.ofText u →
        decode shape (some (Base64.encode (members.flatMap Gzip.Member.bytes))) = .ok (some u) := by
  refine ⟨?_, ?_, ?_⟩
  · intro r
    rw [Value.readDocument_text (EventRecord.byTree_ofNode maxDepth) r.exact_toValue]
    exact EventRecord.ofNode_toValue 126 r
  · intro r hn
    rw [Value.readDocument_text (UserRecord.byTree_ofNode maxDepth) r.exact_toValue]
    exact UserRecord.ofNode_toValue hn 125
  · intro shape hs input u h
    obtain ⟨text, htext⟩ := exists_of_decode h
    obtain ⟨hline, hu⟩ := reencode_reencode hs htext
    refine ⟨hline, decode_gzip ?_⟩
    rw [joinLines_of_forall hline]
    exact hu

theorem normal_form_extremes :
    let event : EventRecord :=
      { eventId := some "\"\\\x01\n😀", timestamp := Int64.minValue, zoneOffset := Int32.maxValue }
    let user : UserRecord := ⟨[("b", ⟨some "\r", Int64.maxValue⟩), ("a", ⟨none, -1⟩)]⟩
    let text := "[\x7b\"b\":\x7b\"x\":[],\"value\":true\x7d," ++
      "\"a\":\x7b\"set_timestamp\":\" 7 \"\x7d\x7d,\n null]"
    let u := "[\x7b\"b\":\x7b\"value\":\"true\",\"set_timestamp\":0\x7d," ++
      "\"a\":\x7b\"value\":null,\"set_timestamp\":7\x7d\x7d,null]"
    let gzip := fun text ↦ (Gzip.Member.ofBytes (Bytes.ofText text)).bytes
    readDocument EventRecord.ofNode event.toValue.text = .ok event ∧
      (user.attributes.map Prod.fst).Nodup ∧
      readDocument UserRecord.ofNode user.toValue.text = .ok user ∧
      Shape.user ≠ .attribute ∧
      decode .user (some (Base64.encode (gzip text))) = .ok (some u) ∧
      decode .user (some (Base64.encode (gzip u))) = .ok (some u) := by
  intro event user text u gzip
  obtain ⟨hevents, husers, hpayloads⟩ := normal_form
  have hnames : (user.attributes.map Prod.fst).Nodup := by decide
  have hgzip : ∀ text, Gzip.decompress (gzip text) = .ok (Bytes.ofText text) :=
    fun text ↦ Gzip.decompress_bytes (Gzip.Member.ofBytes (Bytes.ofText text))
  have hdecode : decode .user (some (Base64.encode (gzip text))) = .ok (some u) :=
    (decode_encode (hgzip text)).2 (toOption_eq_some.1 (by decide +kernel))
  obtain ⟨-, hagain, -⟩ := hpayloads .user (by decide) _ u hdecode
  exact ⟨hevents event, hnames, husers user hnames, by decide, hdecode, hagain _ (hgzip u)⟩

end ColumnFunctions.Clickstream
