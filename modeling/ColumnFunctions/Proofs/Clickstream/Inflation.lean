import ColumnFunctions.Clickstream
import ColumnFunctions.Proofs.Base64
import ColumnFunctions.Proofs.Gzip

namespace ColumnFunctions.Clickstream

def lines : List Char → List (List Char)
  | [] => [[]]
  | '\r' :: '\n' :: rest => [] :: lines rest
  | c :: rest =>
    if isLineBreak c then [] :: lines rest
    else match lines rest with
      | [] => [[c]]
      | line :: more => (c :: line) :: more

theorem flatten_lines (cs : List Char) :
    (lines cs).flatten = cs.filter fun c ↦ c ≠ '\r' ∧ c ≠ '\n' := by
  fun_induction lines cs with
  | case1 => rfl
  | case2 rest ih => simp [ih]
  | case3 c rest _ hc ih =>
    have hdrop : ¬ (c ≠ '\r' ∧ c ≠ '\n') := by
      simpa [isLineBreak, ← not_or] using hc
    rw [List.flatten_cons, List.nil_append, ih, List.filter_cons_of_neg (by simpa using hdrop)]
  | case4 c rest _ hc hnil ih =>
    have hkeep : c ≠ '\r' ∧ c ≠ '\n' := by
      simpa [isLineBreak, not_or] using hc
    rw [hnil] at ih
    rw [List.filter_cons_of_pos (by simpa using hkeep), ← ih]
    rfl
  | case5 c rest _ hc line more hline ih =>
    have hkeep : c ≠ '\r' ∧ c ≠ '\n' := by
      simpa [isLineBreak, not_or] using hc
    rw [hline] at ih
    rw [List.filter_cons_of_pos (by simpa using hkeep), ← ih]
    rfl

theorem toList_joinLines (s : String) : (joinLines s).toList = (lines s.toList).flatten := by
  rw [flatten_lines, joinLines, String.toList_ofList]
  refine List.filter_congr fun c _ ↦ ?_
  simp [isLineBreak, not_or]

theorem inflateText_encode (b : Bytes) :
    inflateText (Base64.encode b) =
      (inflateBytes b).mapError fun e ↦ .malformed ("invalid gzip stream: " ++ e.message) := by
  simp only [inflateText, Base64.decode_encode]

theorem inflateBytes_eq_ok {b : Bytes} {result : String} :
    inflateBytes b = .ok result ↔
      ∃ text, Gzip.decompress b = .ok (Bytes.ofText text) ∧ result = joinLines text := by
  constructor
  · intro h
    simp only [inflateBytes] at h
    split at h
    · cases h
    next octets hd =>
    split at h
    · next text ht =>
      cases h
      exact ⟨text, by rw [hd, Bytes.ofText_of_toText? ht], rfl⟩
    · cases h
  · rintro ⟨text, hd, rfl⟩
    simp only [inflateBytes, hd, Bytes.toText?_ofText]

theorem inflateText_encode_eq_ok {b : Bytes} {result : String} :
    inflateText (Base64.encode b) = .ok result ↔
      ∃ text, Gzip.decompress b = .ok (Bytes.ofText text) ∧ result = joinLines text := by
  rw [inflateText_encode, ← inflateBytes_eq_ok]
  cases inflateBytes b with
  | error e => exact ⟨fun h ↦ (nomatch h), fun h ↦ (nomatch h)⟩
  | ok text =>
    constructor
    · intro h
      cases h
      rfl
    · intro h
      cases h
      rfl

theorem inflateText_encode_error {b : Bytes}
    (h : ∀ result, inflateText (Base64.encode b) ≠ .ok result) :
    ∃ detail, inflateText (Base64.encode b) = .error ⟨.malformedCompressedData, detail⟩ := by
  rw [inflateText_encode] at h ⊢
  cases hb : inflateBytes b with
  | ok result => exact absurd (by rw [hb]; rfl) (h result)
  | error e => exact ⟨_, rfl⟩

/-- A payload is the text of its members if it ends with one of them. Cut anywhere else, or with
another checksum or length in one member, it is refused. -/
theorem inflateText_members (members : List Gzip.Member) :
    (∀ (p : Bytes) (result : String), p <+: members.flatMap Gzip.Member.bytes →
      (inflateText (Base64.encode p) = .ok result ↔
        ∃ j text, 0 < j ∧ j ≤ members.length ∧
          p = (members.take j).flatMap Gzip.Member.bytes ∧
          Bytes.ofText text = (members.take j).flatMap Gzip.Member.chunk ∧
          result.toList = (lines text.toList).flatten)) ∧
    (∀ cs : List Char, (lines cs).flatten = cs.filter fun c ↦ c ≠ '\r' ∧ c ≠ '\n') ∧
    (∀ p : Bytes, p <+: members.flatMap Gzip.Member.bytes →
      (∀ result, inflateText (Base64.encode p) ≠ .ok result) →
      ∃ detail, inflateText (Base64.encode p) = .error ⟨.malformedCompressedData, detail⟩) ∧
    (∀ (before after : List Gzip.Member) (m : Gzip.Member) (checksum size : Bytes),
      members = before ++ m :: after → checksum.length = 4 → size.length = 4 →
      checksum ≠ m.checksum ∨ size ≠ m.size →
      ∃ detail, inflateText (Base64.encode (before.flatMap Gzip.Member.bytes ++
        (m.framed checksum size ++ after.flatMap Gzip.Member.bytes))) =
          .error ⟨.malformedCompressedData, detail⟩) := by
  refine ⟨?_, flatten_lines, fun p _ ↦ inflateText_encode_error, ?_⟩
  · intro p result hp
    rw [inflateText_encode_eq_ok]
    constructor
    · rintro ⟨text, hd, rfl⟩
      obtain ⟨j, hpos, hle, hbytes, htext⟩ := (Gzip.decompress_beginning members hp).1 hd
      exact ⟨j, text, hpos, hle, hbytes, htext, toList_joinLines text⟩
    · rintro ⟨j, text, hpos, hle, hbytes, htext, hresult⟩
      refine ⟨text, (Gzip.decompress_beginning members hp).2 ⟨j, hpos, hle, hbytes, htext⟩, ?_⟩
      rw [← String.toList_inj, hresult, toList_joinLines]
  · intro before after m checksum size _ hc hs hne
    refine inflateText_encode_error fun result h ↦ ?_
    obtain ⟨text, hd, -⟩ := inflateText_encode_eq_ok.1 h
    rw [Gzip.decompress_of_damaged before m hc hs hne] at hd
    cases hd

theorem inflateText_members_split :
    let first := Gzip.Member.ofBytes [0xC3]
    let second := Gzip.Member.ofBytes [0xA9, 13, 10, 98]
    let members := [first, second]
    inflateText (Base64.encode (members.flatMap Gzip.Member.bytes)) = .ok "éb" ∧
    [0x1F] <+: members.flatMap Gzip.Member.bytes ∧
    (∃ detail, inflateText (Base64.encode [0x1F]) = .error ⟨.malformedCompressedData, detail⟩) ∧
    [0, 0, 0, 0] ≠ first.checksum ∧
    ∃ detail, inflateText (Base64.encode (first.framed [0, 0, 0, 0] first.size ++
      second.bytes)) = .error ⟨.malformedCompressedData, detail⟩ := by
  intro first second members
  obtain ⟨hwhole, -, hcut, hdamaged⟩ := inflateText_members members
  have hprefix : [0x1F] <+: members.flatMap Gzip.Member.bytes := by
    have hheader : [0x1F] <+: first.header := by decide
    simp only [members, List.flatMap_cons, Gzip.Member.bytes, Gzip.Member.framed,
      List.append_assoc]
    exact hheader.trans (List.prefix_append _ _)
  have hne : [0, 0, 0, 0] ≠ first.checksum := by decide +kernel
  refine ⟨?_, hprefix, hcut _ hprefix ?_, hne, ?_⟩
  · refine (hwhole _ _ (List.prefix_refl _)).2 ⟨2, "é\r\nb", by decide, Nat.le_refl 2, ?_, ?_, ?_⟩
    · rw [List.take_of_length_le (Nat.le_refl 2)]
    · decide +kernel
    · decide +kernel
  · intro result h
    obtain ⟨j, -, hpos, -, hbytes, -⟩ := (hwhole _ _ hprefix).1 h
    obtain ⟨j, rfl⟩ := Nat.exists_eq_succ_of_ne_zero (Nat.ne_of_gt hpos)
    have hlen := congrArg List.length hbytes
    have := first.length_header
    simp only [members, Nat.succ_eq_add_one, List.take_succ_cons, List.flatMap_cons,
      Gzip.Member.bytes, Gzip.Member.framed, List.length_append, List.length_singleton] at hlen
    omega
  · have h := hdamaged [] [second] first [0, 0, 0, 0] first.size rfl rfl first.length_size
      (.inl hne)
    rw [List.flatMap_nil, List.nil_append, List.flatMap_cons, List.flatMap_nil,
      List.append_nil] at h
    exact h

end ColumnFunctions.Clickstream
