import ColumnFunctions.Proofs.Deflate.Continuation
import ColumnFunctions.Proofs.Deflate.RoundTrip

namespace ColumnFunctions

namespace Deflate

theorem numberBits_add {m a : ℕ} (n b : ℕ) (ha : a < 2 ^ m) :
    numberBits (m + n) (a + 2 ^ m * b) = numberBits m a ++ numberBits n b := by
  induction m generalizing a with
  | zero =>
    obtain rfl : a = 0 := by simpa using ha
    rw [Nat.zero_add, Nat.zero_add, Nat.pow_zero, Nat.one_mul]
    rfl
  | succ m ih =>
    rw [Nat.pow_succ] at ha ⊢
    have hbit : (a + 2 ^ m * 2 * b).testBit 0 = a.testBit 0 := by
      rw [Nat.testBit_zero, Nat.testBit_zero, Nat.mul_right_comm, Nat.add_mul_mod_self_right]
    have hhalf : (a + 2 ^ m * 2 * b) / 2 = a / 2 + 2 ^ m * b := by
      rw [Nat.mul_right_comm, Nat.add_mul_div_right _ _ (by decide)]
    rw [Nat.add_right_comm, numberBits_succ, numberBits_succ, hbit, hhalf, ih (by omega),
      List.cons_append]

namespace BitSource

theorem Holds.eq_ofBytes {s : BitSource} {rest : Bytes} (h : s.Holds (bitsOf rest)) :
    s = ofBytes rest := by
  have hempty : s.Holds ([] ++ bitsOf rest) := h
  have hrest : s.rest = rest := hempty.rest_eq (by decide)
  obtain ⟨held, rest'⟩ := s
  obtain rfl : rest' = rest := hrest
  have hheld : held = [] := List.append_left_eq_self.1 h.bits_eq
  rw [hheld, ofBytes]

theorem number_sixteen (low high : UInt8) (rest : Bytes) :
    (ofBytes (low :: high :: rest)).number 16 =
      .ok (low.toNat + 256 * high.toNat, ofBytes rest) := by
  have hlow := low.toNat_lt
  have hhigh := high.toNat_lt
  have h := holds_ofBytes (low :: high :: rest)
  rw [bitsOf_cons, bitsOf_cons, ← List.append_assoc, octetBits, octetBits,
    ← numberBits_add 8 _ hlow] at h
  obtain ⟨t, ht, h⟩ := h.number (by omega)
  rw [h.eq_ofBytes] at ht
  exact ht

end BitSource

/-- A stored block is refused unless its count is there and agrees with its complement. -/
theorem readStored_of_mismatch {out : Array UInt8} {s : BitSource}
    (h : ∀ a b c d rest, s.rest = a :: b :: c :: d :: rest →
      a.toNat + 256 * b.toNat + (c.toNat + 256 * d.toNat) ≠ 0xFFFF) :
    ∃ e, readStored out s = .error e := by
  cases hr : readStored out s with
  | error e => exact ⟨e, rfl⟩
  | ok r =>
    obtain ⟨⟨count, s₁⟩, hcount, hr⟩ := bind_eq_ok.1 hr
    obtain ⟨⟨check, s₂⟩, hcheck, hr⟩ := bind_eq_ok.1 hr
    have hlen : 4 ≤ s.rest.length := by
      have h₁ := BitSource.size_number hcount
      have h₂ := BitSource.size_number hcheck
      simp only [BitSource.size, BitSource.align, List.length_nil] at h₁ h₂
      omega
    obtain ⟨a, b, c, d, rest, hrest⟩ : ∃ a b c d rest, s.rest = a :: b :: c :: d :: rest := by
      rcases hshort : s.rest with _ | ⟨a, _ | ⟨b, _ | ⟨c, _ | ⟨d, rest⟩⟩⟩⟩
      case cons.cons.cons.cons => exact ⟨a, b, c, d, rest, rfl⟩
      all_goals simp [hshort] at hlen
    have halign : s.align = .ofBytes (a :: b :: c :: d :: rest) := by
      rw [BitSource.align, hrest, BitSource.ofBytes]
    rw [halign, BitSource.number_sixteen] at hcount
    cases hcount
    rw [BitSource.number_sixteen] at hcheck
    cases hcheck
    dsimp only at hr
    rw [if_neg (h a b c d rest hrest)] at hr
    cases hr

theorem inflate_nil : inflate [] = .error .truncated := by
  rw [inflate, readBlocks_eq]
  rfl

end Deflate

namespace Zlib

open Deflate

theorem octetBits_of_method {method : UInt8} (h : method.toNat % 16 = 8) :
    octetBits method = false :: (numberBits 2 0 ++ true :: numberBits 4 (method.toNat / 16)) := by
  have hsum : method.toNat = 8 + 2 ^ 4 * (method.toNat / 16) := by omega
  rw [octetBits, hsum, numberBits_add 4 _ (by decide), ← hsum]
  rfl

/-- What begins like a header begins, without it, with a stored block that is not the last. -/
theorem inflate_of_method {method : UInt8} {rest : Bytes} (hm : method.toNat % 16 = 8)
    (h : ∀ a b c d more, rest = a :: b :: c :: d :: more →
      a.toNat + 256 * b.toNat + (c.toNat + 256 * d.toNat) ≠ 0xFFFF) :
    ∃ e, inflate (method :: rest) = .error e := by
  have hs := BitSource.holds_ofBytes (method :: rest)
  rw [bitsOf_cons, octetBits_of_method hm, List.cons_append, List.append_assoc,
    List.cons_append] at hs
  obtain ⟨s, hnext, hs⟩ := hs.next
  obtain ⟨t, hkind, hs⟩ := hs.number (by decide)
  rw [← List.cons_append] at hs
  have hrest : t.rest = rest := hs.rest_eq (by simp)
  obtain ⟨e, he⟩ : ∃ e, readStored #[] t = .error e := readStored_of_mismatch (by rwa [hrest])
  refine ⟨e, ?_⟩
  have hblocks : readBlocks #[] (.ofBytes (method :: rest)) = .error e := by
    rw [readBlocks_eq, hnext]
    simp only [bind, Except.bind, hkind, readBlock, he]
  rw [inflate, hblocks]

theorem exists_cons_of_hasHeader {b : Bytes} (h : hasHeader b) :
    ∃ method flags rest, b = method :: flags :: rest := by
  rcases b with _ | ⟨method, _ | ⟨flags, rest⟩⟩
  · cases h
  · cases h
  · exact ⟨method, flags, rest, rfl⟩

theorem hasHeader_of_head {b : Bytes} (h : (bitsOf b).head? = some true) : hasHeader b = false := by
  match b with
  | [] | [_] => rfl
  | method :: flags :: rest =>
    have hm : method.toNat % 16 ≠ 8 := by
      intro hm
      rw [bitsOf_cons, octetBits_of_method hm] at h
      cases h
    simp [hasHeader, hm]

/-- A framed stream breaks off wherever it is cut, be it in its checksum. -/
theorem decompress_of_cut {p more text rest : Bytes}
    (h : inflate ((p ++ more).drop 2) = .ok (text, rest)) (hlt : rest.length < more.length + 4) :
    decompress p = .error .truncated := by
  by_cases hp : p.length < 2
  · have hnil : p.drop 2 = [] := List.drop_eq_nil_of_le (by omega)
    rw [decompress, hnil, inflate_nil]
  rw [List.drop_append_of_le_length (by omega)] at h
  cases hi : inflate (p.drop 2) with
  | error e =>
    rcases (steady_inflate (p.drop 2)).longer more with ht | ht
    · rw [decompress, ht]
    · have he : inflate (p.drop 2 ++ more) = .error e := by
        rw [hi] at ht
        exact ht
      rw [h] at he
      cases he
  | ok r =>
    obtain ⟨text', left⟩ := r
    rw [inflate_append hi more, Except.ok.injEq, Prod.mk.injEq] at h
    have hshort : left.length < 4 := by
      rw [← h.2, List.length_append] at hlt
      omega
    rw [decompress, hi]
    exact if_pos hshort

theorem decompress_of_checksum {b text checksum rest : Bytes}
    (h : inflate (b.drop 2) = .ok (text, checksum ++ rest)) (hl : checksum.length = 4) :
    decompress b =
      if checksum = Bytes.bigEndian 4 (Adler32.ofBytes text) then .ok text
      else .error .corrupt := by
  have hlen : ¬ (checksum ++ rest).length < 4 := by
    rw [List.length_append, hl]
    omega
  rw [decompress, h]
  dsimp only
  rw [if_neg hlen, List.take_left' hl]

end Zlib

end ColumnFunctions
