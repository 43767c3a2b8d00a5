import ColumnFunctions.Proofs.Clickstream.Payload

namespace ColumnFunctions.Json

section Filter

variable {keep : Char → Bool}

theorem filter_bound (hk : ∀ c : Char, 32 ≤ c.toNat → keep c) {cs : List Char}
    (h : ∀ c ∈ cs, 32 ≤ c.toNat) : cs.filter keep = cs :=
  List.filter_eq_self.2 fun c hc ↦ hk c (h c hc)

theorem Blanks.filter {b : List Char} (hb : Blanks b) : Blanks (b.filter keep) :=
  fun c hc ↦ hb c (List.mem_filter.1 hc).1

theorem Lead.filter (hk : ∀ c : Char, 32 ≤ c.toNat → keep c) {first : Bool} {lead : List Char}
    (h : Lead first lead) : Lead first (lead.filter keep) := by
  cases h with
  | first hb => exact .first hb.filter
  | next hb hb' =>
    rw [List.filter_append, List.filter_cons_of_pos (hk ',' (by decide))]
    exact .next hb.filter hb'.filter

mutual

theorem Spells.filter (hk : ∀ c : Char, 32 ≤ c.toNat → keep c) {t : Tree} {cs : List Char}
    (h : Spells t cs) : Spells t (cs.filter keep) := by
  cases h with
  | null =>
    rw [filter_bound hk (by simp)]
    exact .null
  | isTrue =>
    rw [filter_bound hk (by simp)]
    exact .isTrue
  | isFalse =>
    rw [filter_bound hk (by simp)]
    exact .isFalse
  | number h =>
    rw [filter_bound hk h.bound]
    exact .number h
  | string h =>
    rw [filter_bound hk h.bound]
    exact .string h
  | list h =>
    rw [List.filter_cons_of_pos (hk '[' (by decide))]
    exact .list (h.filter hk)
  | object h =>
    rw [List.filter_cons_of_pos (hk '\x7b' (by decide))]
    exact .object (h.filter hk)

theorem SpellsElements.filter (hk : ∀ c : Char, 32 ≤ c.toNat → keep c) {first : Bool}
    {ts : List Tree} {cs : List Char} (h : SpellsElements first ts cs) :
    SpellsElements first ts (cs.filter keep) := by
  cases h with
  | close hb =>
    rw [List.filter_append, List.filter_cons_of_pos (hk ']' (by decide)), List.filter_nil]
    exact .close hb.filter
  | cons hl h hs =>
    rw [List.filter_append, List.filter_append]
    exact .cons (hl.filter hk) (h.filter hk) (hs.filter hk)

theorem SpellsMembers.filter (hk : ∀ c : Char, 32 ≤ c.toNat → keep c) {first : Bool}
    {ms : List (Option String × Tree)} {cs : List Char} (h : SpellsMembers first ms cs) :
    SpellsMembers first ms (cs.filter keep) := by
  cases h with
  | close hb =>
    rw [List.filter_append, List.filter_cons_of_pos (hk '\x7d' (by decide)), List.filter_nil]
    exact .close hb.filter
  | cons hl hkey hb hb' h hs =>
    simp only [List.filter_append, List.filter_cons_of_pos (hk ':' (by decide)),
      filter_bound hk hkey.bound]
    exact .cons (hl.filter hk) hkey hb.filter hb'.filter (h.filter hk) (hs.filter hk)

end

theorem SpellsText.filter (hk : ∀ c : Char, 32 ≤ c.toNat → keep c) {t : Tree} {cs : List Char}
    (h : SpellsText t cs) : SpellsText t (cs.filter keep) := by
  obtain ⟨hb, hb', h⟩ := h
  rw [List.filter_append, List.filter_append]
  exact .mk hb.filter hb'.filter (h.filter hk)

end Filter

end ColumnFunctions.Json

namespace ColumnFunctions.Clickstream

open Json

theorem spellsText_joinLines {t : Tree} {text : String} (h : SpellsText t text.toList) :
    SpellsText t (joinLines text).toList := by
  rw [joinLines, String.toList_ofList]
  refine h.filter fun c hc ↦ ?_
  have hr : c ≠ '\r' := by
    rintro rfl
    exact absurd hc (by decide)
  have hn : c ≠ '\n' := by
    rintro rfl
    exact absurd hc (by decide)
  simp [isLineBreak, hr, hn]

/-- A payload that can be read with its line breaks is read the same without them, and so is every
gzip stream of it. -/
theorem reencode_joinLines (shape : Shape) (text u : String) (h : reencode shape text = .ok u) :
    (joinLines text).toList = text.toList.filter (fun c ↦ c ≠ '\r' ∧ c ≠ '\n') ∧
    reencode shape (joinLines text) = .ok u ∧
    (∀ b, Gzip.decompress b = .ok (Bytes.ofText text) →
      decode shape (some (Base64.encode b)) = .ok (some u)) ∧
    ∀ members : List Gzip.Member, members ≠ [] →
      members.flatMap Gzip.Member.chunk = Bytes.ofText text →
      decode shape (some (Base64.encode (members.flatMap Gzip.Member.bytes))) = .ok (some u) := by
  have hjoined : reencode shape (joinLines text) = .ok u :=
    reencode_of_spells (fun _ ↦ spellsText_joinLines) h
  have hlines : (joinLines text).toList = text.toList.filter (fun c ↦ c ≠ '\r' ∧ c ≠ '\n') := by
    rw [toList_joinLines, flatten_lines]
  exact ⟨hlines, hjoined, decode_gzip hjoined⟩

theorem reencode_joinLines_nested :
    let text := "\n[\x7b\"a\":\r\x7b\"value\":\n1, \"x\" :[\n2\r]\x7d\x7d,\r\nnull]\r"
    let u := "[\x7b\"a\":\x7b\"value\":\"1\",\"set_timestamp\":0\x7d\x7d,null]"
    let gzip := (Gzip.Member.ofBytes (Bytes.ofText text)).bytes
    reencode .user text = .ok u ∧ reencode .user (joinLines text) = .ok u ∧
      decode .user (some (Base64.encode gzip)) = .ok (some u) := by
  intro text u gzip
  have h : reencode .user text = .ok u := toOption_eq_some.1 (by decide +kernel)
  obtain ⟨-, hjoined, hdecode, -⟩ := reencode_joinLines .user text u h
  exact ⟨h, hjoined, hdecode _ (Gzip.decompress_bytes (Gzip.Member.ofBytes (Bytes.ofText text)))⟩

end ColumnFunctions.Clickstream
