import ColumnFunctions.Proofs.Deflate.Reading

namespace ColumnFunctions.Deflate

variable {data : Array UInt8}

theorem commonLength_le (data : Array UInt8) (i j limit : Nat) :
    commonLength data i j limit ≤ limit := by
  fun_induction commonLength data i j limit <;> omega

/-- The octets that were counted are there, and equal those at the earlier place. -/
theorem getElem?_commonLength {i j limit k : Nat} (hk : k < commonLength data i j limit) :
    i + k < data.size ∧ data[j + k]? = data[i + k]? := by
  fun_induction commonLength data i j limit generalizing k with
  | case1 => omega
  | case2 i j limit hi hj he ih =>
    cases k with
    | zero => exact ⟨hi, by simp [hi, hj, he]⟩
    | succ k =>
      obtain ⟨h₁, h₂⟩ := ih (k := k) (by omega)
      rw [Nat.add_right_comm] at h₁ h₂
      rw [Nat.add_right_comm i] at h₂
      exact ⟨by omega, h₂⟩
  | case3 | case4 | case5 => omega

/-- A copy of octets that equal the next ones puts these behind what comes before them. -/
theorem copyBack_extract {place distance length : Nat} (h₁ : 1 ≤ distance) (hd : distance ≤ place)
    (hs : place + length ≤ data.size)
    (h : ∀ k < length, data[place - distance + k]? = data[place + k]?) :
    copyBack (data.extract 0 place) distance length = data.extract 0 (place + length) := by
  induction length generalizing place with
  | zero => rfl
  | succ length ih =>
    -- The octet copied is the text's next one, so the copy goes on behind a longer prefix, also
    -- where it overlaps itself.
    have hp : place < data.size := by omega
    have hsize : (data.extract 0 place).size = place := by simp; omega
    have hnext : (data.extract 0 place)[place - distance]? = some data[place] := by
      have he := h 0 (Nat.zero_lt_succ _)
      simp only [Nat.add_zero] at he
      rw [Array.getElem?_extract, if_pos (by omega), Nat.zero_add, he, Array.getElem?_eq_getElem hp]
    simp only [copyBack, hsize, if_pos hd, hnext, Option.getD_some,
      ← Array.extract_succ_right (Nat.zero_lt_succ _) hp]
    rw [ih (by omega) (by omega) fun k hk ↦ ?_, Nat.add_right_comm, Nat.add_assoc]
    simpa [show place + 1 - distance + k = place - distance + (k + 1) by omega,
      Nat.add_right_comm, Nat.add_assoc] using h (k + 1) (by omega)

def Match.Fits (data : Array UInt8) (place : Nat) (m : Match) : Prop :=
  m.length = 0 ∨ ∃ earlier, earlier < place ∧ place - earlier ≤ window ∧
    m = ⟨commonLength data place earlier maxCopy, place - earlier⟩

theorem search_fits {links : Array (Option Nat)} {place : Nat} {best : Match} {tries : Nat}
    {earlier : Option Nat} (hb : best.Fits data place) :
    (search data links place best tries earlier).Fits data place := by
  have hbetter {best : Match} {earlier : Nat} (hb : best.Fits data place)
      (he : ¬ (place ≤ earlier ∨ window < place - earlier)) :
      Match.Fits data place (if best.length < commonLength data place earlier maxCopy then
        ⟨commonLength data place earlier maxCopy, place - earlier⟩ else best) := by
    split
    · exact .inr ⟨earlier, by omega, by omega, rfl⟩
    · exact hb
  fun_induction search data links place best tries earlier with
  | case1 => exact hb
  | case2 => exact hb
  | case3 => exact hb
  | case4 _ _ _ he => exact hbetter hb he
  | case5 _ _ _ he _ _ _ ih => exact ih (hbetter hb he)

theorem longestMatch_fits (data : Array UInt8) (links : Array (Option Nat)) (place : Nat) :
    (longestMatch data links place).Fits data place :=
  search_fits (.inl rfl)

theorem Match.Fits.of_minCopy_le {place : Nat} {m : Match} (h : m.Fits data place)
    (hm : minCopy ≤ m.length) :
    (Token.copy m.length m.distance).Codable ∧ m.distance ≤ place ∧ place + m.length ≤ data.size ∧
      ∀ k < m.length, data[place - m.distance + k]? = data[place + k]? := by
  simp only [minCopy] at hm
  rcases h with h | ⟨earlier, he, hw, rfl⟩
  · omega
  · dsimp only at hm ⊢
    refine ⟨⟨hm, commonLength_le _ _ _ _, by omega, hw⟩, Nat.sub_le _ _, ?_, fun k hk ↦ ?_⟩
    · have hpos : 0 < commonLength data place earlier maxCopy := by omega
      have hlast := (getElem?_commonLength (Nat.sub_lt hpos Nat.zero_lt_one)).1
      omega
    · rw [Nat.sub_sub_self (Nat.le_of_lt he)]
      exact (getElem?_commonLength hk).2

theorem codable_tokensFrom {links : Array (Option Nat)} {place : Nat} :
    ∀ token ∈ tokensFrom data links place, token.Codable := by
  fun_induction tokensFrom data links place with
  | case1 place h here _ ih =>
    simpa only [List.forall_mem_cons] using ⟨trivial, ih⟩
  | case2 place h here hc ih =>
    simp only [not_or, Nat.not_lt] at hc
    simpa only [List.forall_mem_cons] using
      ⟨((longestMatch_fits data links place).of_minCopy_le hc.1).1, ih⟩
  | case3 => simp

/-- From any place on, the tokens put the rest of the text behind what comes before. -/
theorem foldl_tokensFrom (links : Array (Option Nat)) {place : Nat} (hp : place ≤ data.size) :
    (tokensFrom data links place).foldl Token.expand (data.extract 0 place) = data := by
  fun_induction tokensFrom data links place with
  | case1 place h here _ ih =>
    rw [List.foldl_cons, Token.expand, ← Array.extract_succ_right (Nat.zero_lt_succ _) h]
    exact ih h
  | case2 place h here hc ih =>
    simp only [not_or, Nat.not_lt] at hc
    obtain ⟨⟨_, _, hd, _⟩, hle, hend, heq⟩ :=
      (longestMatch_fits data links place).of_minCopy_le hc.1
    rw [List.foldl_cons, Token.expand, copyBack_extract hd hle hend heq]
    exact ih hend
  | case3 place h =>
    rw [List.foldl_nil, Nat.le_antisymm hp (Nat.not_lt.1 h), Array.extract_size]

theorem codable_tokens (b : Bytes) : ∀ token ∈ tokens b, token.Codable := codable_tokensFrom

theorem expand_tokens (b : Bytes) : expand (tokens b) = b := by
  have h := foldl_tokensFrom (links b.toArray) (Nat.zero_le b.toArray.size)
  rw [Array.extract_zero] at h
  rw [expand, tokens, h]

end ColumnFunctions.Deflate
