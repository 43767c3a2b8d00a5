import ColumnFunctions.Zlib
import ColumnFunctions.Proofs.Deflate.Division

namespace ColumnFunctions

namespace Deflate

theorem BitSource.Holds.rest_eq {s : BitSource} {pad : List Bool} {rest : Bytes}
    (h : s.Holds (pad ++ bitsOf rest)) (hp : pad.length < 8) : s.rest = rest := by
  obtain ⟨hb, hl⟩ := h
  have hlen := congrArg List.length hb
  simp only [bits, List.length_append, length_bitsOf] at hlen
  exact bitsOf_injective (List.append_inj_right hb (by omega))

theorem readBlocks_of_final {out out' : Array UInt8} {s t u v : BitSource} {kind : Nat}
    (hf : s.next = .ok (true, t)) (hk : t.number 2 = .ok (kind, u))
    (hb : readBlock kind out u = .ok (out', v)) : readBlocks out s = .ok (out', v) := by
  rw [readBlocks]
  split
  · next he => rw [hf] at he; cases he
  · next he =>
    rw [hf] at he
    cases he
    split
    · next he => rw [hk] at he; cases he
    · next he =>
      rw [hk] at he
      cases he
      split
      · next he => rw [hb] at he; cases he
      · next he => rw [hb] at he; cases he; rfl

theorem bitsOf_deflate (b : Bytes) : ∃ n < 8, bitsOf (deflate b) =
    true :: (numberBits 2 1 ++ ((tokens b).flatMap Token.bits ++
      (fixedWord endOfBlock ++ List.replicate n false))) := by
  refine ⟨(8 - (blockBits (tokens b)).length % 8) % 8, Nat.mod_lt _ (by decide), ?_⟩
  rw [deflate, bitsOf_pack]
  simp only [blockBits, List.cons_append, List.append_assoc]

/-- A text is got back from its stream, and what follows the stream is left. -/
theorem inflate_deflate (b rest : Bytes) : inflate (deflate b ++ rest) = .ok (b, rest) := by
  obtain ⟨n, hn, hbits⟩ := bitsOf_deflate b
  have h := BitSource.holds_ofBytes (deflate b ++ rest)
  simp only [bitsOf_append, hbits, List.cons_append, List.append_assoc] at h
  obtain ⟨s, hs, h⟩ := h.next
  obtain ⟨t, ht, h⟩ := h.number (by decide)
  obtain ⟨u, hu, h⟩ := readTokens_of_bits (codable_tokens b) #[] h
  have hrest : u.rest = rest := h.rest_eq (by rw [List.length_replicate]; exact hn)
  have hout : ((tokens b).foldl Token.expand #[]).toList = b := expand_tokens b
  rw [inflate, readBlocks_of_final hs ht hu]
  simp only [hout, hrest]

theorem inflate_deflate_nil (b : Bytes) : inflate (deflate b) = .ok (b, []) := by
  have h := inflate_deflate b []
  rwa [List.append_nil] at h

end Deflate

namespace Zlib

theorem hasHeader_compress (b rest : Bytes) : hasHeader (compress b ++ rest) = true := rfl

theorem decompress_compress (b rest : Bytes) : decompress (compress b ++ rest) = .ok b := by
  have hdrop : (compress b ++ rest).drop 2 =
      Deflate.deflate b ++ (Bytes.bigEndian 4 (Adler32.ofBytes b) ++ rest) := by
    simp only [compress, header, List.append_assoc, List.cons_append, List.nil_append, List.drop]
  have hlen := Bytes.length_bigEndian 4 (Adler32.ofBytes b)
  rw [decompress, hdrop, Deflate.inflate_deflate]
  simp [List.take_left' hlen]

end Zlib

end ColumnFunctions
