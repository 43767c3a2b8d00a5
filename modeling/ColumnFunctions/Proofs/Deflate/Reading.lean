import ColumnFunctions.Deflate.Inflate
import ColumnFunctions.Proofs.Deflate.Bits

namespace ColumnFunctions.Deflate

namespace BitSource

def bits (s : BitSource) : List Bool := s.held ++ bitsOf s.rest

/-- The unread bits are given ones, and the octet begun is not a whole one. -/
structure Holds (s : BitSource) (bits : List Bool) : Prop where
  bits_eq : s.bits = bits
  held_lt : s.held.length < 8

theorem holds_ofBytes (b : Bytes) : (ofBytes b).Holds (bitsOf b) := ⟨rfl, Nat.zero_lt_succ _⟩

variable {s : BitSource} {more : List Bool}

theorem Holds.next {b : Bool} (h : s.Holds (b :: more)) :
    ∃ t, s.next = .ok (b, t) ∧ t.Holds more := by
  obtain ⟨held, rest⟩ := s
  obtain ⟨hb, hl⟩ := h
  cases held with
  | cons c held =>
    simp only [bits, List.cons_append, List.cons.injEq, List.length_cons] at hb hl
    exact ⟨⟨held, rest⟩, by simp only [BitSource.next, hb.1], hb.2, by dsimp only; omega⟩
  | nil =>
    cases rest with
    | nil => simp [bits] at hb
    | cons c rest =>
      have hc : octetBits c = [c.toNat.testBit 0, c.toNat.testBit 1, c.toNat.testBit 2,
        c.toNat.testBit 3, c.toNat.testBit 4, c.toNat.testBit 5, c.toNat.testBit 6,
        c.toNat.testBit 7] := rfl
      simp only [bits, List.nil_append, bitsOf_cons, hc, List.cons_append, List.cons.injEq] at hb
      obtain ⟨rfl, rfl⟩ := hb
      exact ⟨_, rfl, rfl, Nat.lt_add_one 7⟩

theorem Holds.number {count n : Nat} (h : s.Holds (numberBits count n ++ more))
    (hn : n < 2 ^ count) : ∃ t, s.number count = .ok (n, t) ∧ t.Holds more := by
  induction count generalizing s n with
  | zero =>
    obtain rfl : n = 0 := by simpa using hn
    exact ⟨s, rfl, h⟩
  | succ count ih =>
    rw [numberBits_succ, List.cons_append] at h
    rw [Nat.pow_succ] at hn
    obtain ⟨t, ht, h⟩ := h.next
    obtain ⟨u, hu, h⟩ := ih h (by omega)
    refine ⟨u, ?_, h⟩
    simp only [BitSource.number, ht, hu, bind, Except.bind, pure, Except.pure,
      toNat_testBit_zero_add]

end BitSource

namespace Code

def follow : Code → List Bool → Option Nat
  | .leaf symbol, [] => some symbol
  | .fork zero one, b :: word => ((fork zero one).branch b).follow word
  | _, _ => none

variable {s : BitSource} {more : List Bool}

theorem walk_of_follow {c : Code} {word : List Bool} {symbol : Nat}
    (hc : c.follow word = some symbol) (h : s.Holds (word ++ more)) :
    ∃ t, c.walk s = .ok (symbol, t) ∧ t.Holds more := by
  induction word generalizing c s with
  | nil =>
    cases c with
    | leaf symbol' => cases hc; exact ⟨s, rfl, h⟩
    | missing | fork => cases hc
  | cons b word ih =>
    cases c with
    | missing | leaf => cases hc
    | fork zero one =>
      obtain ⟨t, ht, h⟩ := h.next
      obtain ⟨u, hu, h⟩ := ih hc h
      refine ⟨u, ?_, h⟩
      cases b <;> simpa only [walk, ht, branch] using hu

theorem read_of_follow {c : Code} {word : List Bool} {symbol : Nat} (hw : word ≠ [])
    (hc : c.follow word = some symbol) (h : s.Holds (word ++ more)) :
    ∃ t, c.read s = .ok (symbol, t) ∧ t.Holds more := by
  cases word with
  | nil => exact absurd rfl hw
  | cons b word =>
    cases c with
    | missing | leaf => cases hc
    | fork zero one =>
      obtain ⟨t, ht, h⟩ := h.next
      obtain ⟨u, hu, h⟩ := walk_of_follow (c := (fork zero one).branch b) hc h
      exact ⟨u, by simpa only [read, ht] using hu, h⟩

end Code

theorem follow_fixedWord : ∀ symbol < 288, fixedCode.follow (fixedWord symbol) = some symbol := by
  decide +kernel

theorem follow_fixedDistanceWord :
    ∀ symbol < 32, fixedDistanceCode.follow (fixedDistanceWord symbol) = some symbol := by
  decide +kernel

def Gapless (bound : Nat) : List Range → Prop
  | [] => False
  | [r] => bound < r.base + 2 ^ r.extra
  | r :: q :: ranges => q.base ≤ r.base + 2 ^ r.extra ∧ Gapless bound (q :: ranges)

structure Places (ranges : List Range) (value : Nat) (found : Nat × Range) : Prop where
  getElem?_eq : ranges[found.1]? = some found.2
  base_le : found.2.base ≤ value
  lt_end : value < found.2.base + 2 ^ found.2.extra

/-- The search for the last range that begins at or before a value, when `last` is the range looked
at last, and the one found so far is `last` itself or holds the value. -/
theorem foldl_places {all : List Range} {value bound : Nat} (hv : value ≤ bound) {last : Range}
    {ranges : List Range} {k : Nat} {best : Nat × Range}
    (hall : ∀ i, (last :: ranges)[i]? = all[k + i]?) (hg : Gapless bound (last :: ranges))
    (hbest : all[best.1]? = some best.2) (hbase : best.2.base ≤ value)
    (hlast : best.2 = last ∨ value < best.2.base + 2 ^ best.2.extra) :
    Places all value ((ranges.zipIdx (k + 1)).foldl
      (fun best (r, i) ↦ if r.base ≤ value then (i, r) else best) best) := by
  induction ranges generalizing last k best with
  | nil =>
    refine ⟨hbest, hbase, ?_⟩
    rcases hlast with rfl | h
    · simp only [Gapless] at hg
      exact Nat.lt_of_le_of_lt hv hg
    · exact h
  | cons q ranges ih =>
    have hall' : ∀ i, (q :: ranges)[i]? = all[k + 1 + i]? := fun i ↦ by
      simpa [Nat.add_right_comm, Nat.add_assoc] using hall (i + 1)
    simp only [List.zipIdx_cons, List.foldl_cons]
    by_cases hq : q.base ≤ value
    · rw [if_pos hq]
      exact ih hall' hg.2 (by simpa using (hall' 0).symm) hq (.inl rfl)
    · rw [if_neg hq]
      refine ih hall' hg.2 hbest hbase (.inr ?_)
      rcases hlast with rfl | h
      · have := hg.1
        omega
      · exact h

theorem rangeOf_places {first : Range} {ranges : List Range} {value bound : Nat}
    (hg : Gapless bound (first :: ranges)) (hf : first.base ≤ value) (hv : value ≤ bound) :
    Places (first :: ranges) value (rangeOf (first :: ranges) value) := by
  simp only [rangeOf, List.zipIdx_cons, List.foldl_cons, if_pos hf]
  exact foldl_places hv (fun i ↦ by rw [Nat.zero_add]) hg rfl hf (.inl rfl)

theorem rangeOf_lengthRanges {length : Nat} (h₁ : minCopy ≤ length) (h₂ : length ≤ maxCopy) :
    Places lengthRanges length (rangeOf lengthRanges length) :=
  rangeOf_places (by simp [Gapless, maxCopy]) h₁ h₂

theorem rangeOf_distanceRanges {distance : Nat} (h₁ : 1 ≤ distance) (h₂ : distance ≤ window) :
    Places distanceRanges distance (rangeOf distanceRanges distance) :=
  rangeOf_places (by simp [Gapless, window]) h₁ h₂

variable {s : BitSource} {more : List Bool}

theorem Range.read_of_places {ranges : List Range} {value : Nat} {found : Nat × Range}
    (hf : Places ranges value found)
    (h : s.Holds (numberBits found.2.extra (value - found.2.base) ++ more)) :
    ∃ t, Range.read ranges found.1 s = .ok (value, t) ∧ t.Holds more := by
  have hlt := hf.lt_end
  have hle := hf.base_le
  obtain ⟨t, ht, h⟩ := h.number (by omega)
  refine ⟨t, ?_, h⟩
  simp only [Range.read, hf.getElem?_eq, ht, Nat.add_sub_cancel' hle]

theorem seven_le_length_fixedWord (symbol : Nat) : 7 ≤ (fixedWord symbol).length := by
  simp only [fixedWord, Code.word]
  repeat' split
  all_goals simp

theorem length_fixedWord_pos (symbol : Nat) : 0 < (fixedWord symbol).length :=
  Nat.lt_of_lt_of_le (by decide) (seven_le_length_fixedWord symbol)

theorem Token.seven_le_length_bits (token : Token) : 7 ≤ token.bits.length := by
  cases token with
  | literal octet => exact seven_le_length_fixedWord _
  | copy length distance =>
    have h := seven_le_length_fixedWord (257 + (rangeOf lengthRanges length).1)
    simp only [Token.bits, List.length_append]
    omega

def Token.Codable : Token → Prop
  | .literal _ => True
  | .copy length distance =>
    minCopy ≤ length ∧ length ≤ maxCopy ∧ 1 ≤ distance ∧ distance ≤ window

theorem readToken_of_bits {token : Token} (hc : token.Codable) (h : s.Holds (token.bits ++ more)) :
    ∃ t, readToken fixedCode fixedDistanceCode s = .ok (some token, t) ∧ t.Holds more := by
  cases token with
  | literal octet =>
    have hlt : octet.toNat < 256 := octet.toNat_lt
    obtain ⟨t, ht, h⟩ := Code.read_of_follow (List.ne_nil_of_length_pos (length_fixedWord_pos _))
      (follow_fixedWord octet.toNat (by omega)) h
    refine ⟨t, ?_, h⟩
    simp only [readToken, ht, bind, Except.bind, endOfBlock, if_pos hlt, pure, Except.pure,
      UInt8.ofNat_toNat]
  | copy length distance =>
    obtain ⟨h₁, h₂, h₃, h₄⟩ := hc
    have hl := rangeOf_lengthRanges h₁ h₂
    have hd := rangeOf_distanceRanges h₃ h₄
    simp only [Token.bits, List.append_assoc] at h
    generalize rangeOf lengthRanges length = l at hl h
    generalize rangeOf distanceRanges distance = d at hd h
    have hi : l.1 < 29 := (List.getElem?_eq_some_iff.1 hl.getElem?_eq).1
    have hj : d.1 < 30 := (List.getElem?_eq_some_iff.1 hd.getElem?_eq).1
    obtain ⟨t, ht, h⟩ := Code.read_of_follow (List.ne_nil_of_length_pos (length_fixedWord_pos _))
      (follow_fixedWord (257 + l.1) (by omega)) h
    obtain ⟨u, hu, h⟩ := Range.read_of_places hl h
    obtain ⟨v, hv, h⟩ := Code.read_of_follow (c := fixedDistanceCode)
      (List.ne_nil_of_length_pos (by simp [fixedDistanceWord, Code.word]))
      (follow_fixedDistanceWord d.1 (by omega)) h
    obtain ⟨w, hw, h⟩ := Range.read_of_places hd h
    refine ⟨w, ?_, h⟩
    have hcopy : readCopy fixedDistanceCode (257 + l.1) t = .ok (length, distance, w) := by
      simp only [readCopy, Nat.add_sub_cancel_left, hu, hv, hw, bind, Except.bind, pure,
        Except.pure]
    have hlt : ¬ 257 + l.1 < endOfBlock := by simp only [endOfBlock]; omega
    have hne : ¬ 257 + l.1 = endOfBlock := by simp only [endOfBlock]; omega
    simp only [readToken, ht, bind, Except.bind, if_neg hlt, if_neg hne, hcopy, pure, Except.pure]

theorem readToken_of_end (h : s.Holds (fixedWord endOfBlock ++ more)) :
    ∃ t, readToken fixedCode fixedDistanceCode s = .ok (none, t) ∧ t.Holds more := by
  obtain ⟨t, ht, h⟩ := Code.read_of_follow (List.ne_nil_of_length_pos (length_fixedWord_pos _))
    (follow_fixedWord endOfBlock (by decide)) h
  refine ⟨t, ?_, h⟩
  simp only [readToken, ht, bind, Except.bind, Nat.lt_irrefl, if_false, if_true, pure, Except.pure]

theorem readTokens_of_none {literals distances : Code} {out : Array UInt8} {t : BitSource}
    (h : readToken literals distances s = .ok (none, t)) :
    readTokens literals distances out s = .ok (out, t) := by
  rw [readTokens]
  split <;> simp_all

theorem readTokens_of_some {literals distances : Code} {out : Array UInt8} {token : Token}
    {t : BitSource} (h : readToken literals distances s = .ok (some token, t)) :
    readTokens literals distances out s = readTokens literals distances (token.expand out) t := by
  rw [readTokens]
  split <;> simp_all

/-- A block of tokens is read as what the tokens stand for. -/
theorem readTokens_of_bits {tokens : List Token} (hc : ∀ token ∈ tokens, token.Codable)
    (out : Array UInt8)
    (h : s.Holds (tokens.flatMap Token.bits ++ (fixedWord endOfBlock ++ more))) :
    ∃ t, readTokens fixedCode fixedDistanceCode out s = .ok (tokens.foldl Token.expand out, t) ∧
      t.Holds more := by
  induction tokens generalizing s out with
  | nil =>
    obtain ⟨t, ht, h⟩ := readToken_of_end h
    exact ⟨t, readTokens_of_none ht, h⟩
  | cons token tokens ih =>
    rw [List.flatMap_cons, List.append_assoc] at h
    obtain ⟨t, ht, h⟩ := readToken_of_bits (hc token List.mem_cons_self) h
    obtain ⟨u, hu, h⟩ := ih (fun x hx ↦ hc x (List.mem_cons_of_mem _ hx)) (token.expand out) h
    exact ⟨u, by rw [readTokens_of_some ht, hu, List.foldl_cons], h⟩

end ColumnFunctions.Deflate
