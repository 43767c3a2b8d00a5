import ColumnFunctions.Proofs.Compression
import ColumnFunctions.Proofs.Zlib

namespace ColumnFunctions

namespace Deflate

theorem deflate_nil : deflate [] = [0x03, 0x00] := by decide +kernel

/-- The stream of a text of at least one octet has a token, and with it at least 17 bits. -/
theorem three_le_length_deflate {b : Bytes} (h : b ≠ []) : 3 ≤ (deflate b).length := by
  obtain ⟨n, -, hbits⟩ := bitsOf_deflate b
  have hlen := congrArg List.length hbits
  obtain ⟨token, more, htokens⟩ : ∃ token more, tokens b = token :: more := by
    refine List.exists_cons_of_ne_nil fun hnil ↦ h ?_
    rw [← expand_tokens b, hnil]
    rfl
  have htoken := token.seven_le_length_bits
  have hend := seven_le_length_fixedWord endOfBlock
  rw [htokens, List.flatMap_cons] at hlen
  simp only [length_bitsOf, List.length_cons, List.length_append, length_numberBits] at hlen
  omega

theorem hasHeader_deflate (b rest : Bytes) : Zlib.hasHeader (deflate b ++ rest) = false := by
  obtain ⟨n, -, hbits⟩ := bitsOf_deflate b
  refine Zlib.hasHeader_of_head ?_
  rw [bitsOf_append, hbits]
  rfl

end Deflate

open Deflate

theorem decompressBytes_deflate (b rest : Bytes) : decompressBytes (deflate b ++ rest) = .ok b := by
  rw [decompressBytes, if_neg (by rw [hasHeader_deflate]; decide), inflateBare, inflate_deflate]
  rfl

theorem decompress_encode_of_ok {b : Bytes} {s : String}
    (h : decompressBytes b = .ok (Bytes.ofText s)) :
    decompress (some (Base64.encode b)) = .ok (some s) := by
  simp only [decompress, Base64.decode_encode, h, Bytes.toText?_ofText]

theorem decompress_encode_of_error {b : Bytes} {e : Interruption}
    (h : decompressBytes b = .error e) :
    decompress (some (Base64.encode b)) = .error (.malformed e.detail) := by
  simp only [decompress, Base64.decode_encode, h]

/-- What is compressed is a header, a stream and the checksum of the text. The stream alone does not
begin like a header, and both the stream and the whole are read as the text, whatever follows. -/
theorem framing_optional (s : String) :
    ∃ c z header stream checksum, compress (some s) = some c ∧ Base64.decode c = .ok z ∧
      z = header ++ (stream ++ checksum) ∧
      header.length = 2 ∧ Zlib.hasHeader header = true ∧
      inflate stream = .ok (Bytes.ofText s, []) ∧
      checksum = Bytes.bigEndian 4 (Adler32.ofBytes (Bytes.ofText s)) ∧
      ∀ rest : Bytes, Zlib.hasHeader (stream ++ rest) = false ∧
        decompress (some (Base64.encode (stream ++ rest))) = .ok (some s) ∧
        decompress (some (Base64.encode (z ++ rest))) = .ok (some s) := by
  refine ⟨_, Zlib.compress (Bytes.ofText s), Zlib.header, deflate (Bytes.ofText s), _, rfl,
    Base64.decode_encode _, List.append_assoc _ _ _, rfl, rfl, inflate_deflate_nil _, rfl,
    fun rest ↦ ⟨?_, ?_, ?_⟩⟩
  · exact hasHeader_deflate _ rest
  · exact decompress_encode_of_ok (decompressBytes_deflate _ rest)
  · exact decompress_encode_of_ok (decompressBytes_compress _ rest)

/-- Behind the header that is written, the octets complete the count of a stored block and its
complement. -/
def LooksStored (b : Bytes) : Prop := b[3]? = some 0x63 ∧ b[4]? = b[2]?.map (255 - ·)

theorem LooksStored.append {p : Bytes} (h : LooksStored p) (more : Bytes) :
    LooksStored (p ++ more) := by
  obtain ⟨h₃, h₄⟩ := h
  obtain ⟨hlen, -⟩ := List.getElem?_eq_some_iff.1 h₃
  have h₂ : p[2]? = some p[2] := List.getElem?_eq_getElem (by omega)
  rw [h₂] at h₄
  obtain ⟨hlen, -⟩ := List.getElem?_eq_some_iff.1 h₄
  refine ⟨?_, ?_⟩
  · rw [List.getElem?_append_left (by omega), h₃]
  · rw [List.getElem?_append_left hlen, List.getElem?_append_left (by omega), h₄, h₂]

theorem inflateBare_of_header {b : Bytes} (h : ¬ LooksStored (Zlib.header ++ b)) :
    ∃ e, inflateBare (Zlib.header ++ b) = .error e := by
  obtain ⟨e, he⟩ : ∃ e, inflate (0x78 :: 0x9C :: b) = .error e := by
    refine Zlib.inflate_of_method (by decide) ?_
    intro flags low low' high' rest hb hsum
    refine h ?_
    cases hb
    have h₁ := low.toNat_lt
    have h₂ := low'.toNat_lt
    have h₃ := high'.toNat_lt
    have hflags : (0x9C : UInt8).toNat = 156 := rfl
    rw [hflags] at hsum
    have hlow : low' = 0x63 := UInt8.toNat_inj.1 (by
      have h63 : (0x63 : UInt8).toNat = 99 := rfl
      omega)
    have hhigh : high' = 255 - low := UInt8.toNat_inj.1 (by
      have h255 : (255 : UInt8).toNat = 255 := rfl
      rw [UInt8.toNat_sub_of_le _ _ (UInt8.le_iff_toNat_le.2 (by omega)), h255]
      omega)
    rw [hlow, hhigh]
    exact ⟨rfl, rfl⟩
  have hcons : Zlib.header ++ b = 0x78 :: 0x9C :: b := rfl
  rw [hcons, inflateBare, he]
  exact ⟨e, rfl⟩

/-- What has the header is reported as a framed stream, also after it was tried as a bare one. -/
theorem decompressBytes_of_error {b : Bytes} {e : Interruption}
    (h : Zlib.decompress (Zlib.header ++ b) = .error e)
    (hb : ¬ LooksStored (Zlib.header ++ b)) :
    decompressBytes (Zlib.header ++ b) = .error e := by
  obtain ⟨e', he'⟩ := inflateBare_of_header hb
  have hheader : Zlib.hasHeader (Zlib.header ++ b) = true := rfl
  rw [decompressBytes, if_pos hheader, h, he']
  rfl

section Framed

variable {stream text checksum : Bytes}

/-- The beginnings of a framed stream are truncated, also those that are too short to have the
header. -/
theorem decompressBytes_of_cut {p more : Bytes} (hi : inflate stream = .ok (text, []))
    (hl : checksum.length = 4) (h : ¬ LooksStored (Zlib.header ++ (stream ++ checksum)))
    (hp : p ++ more = Zlib.header ++ (stream ++ checksum)) (hm : more ≠ []) :
    decompressBytes p = .error .truncated := by
  match p with
  | [] =>
    have hempty : decompressBytes [] = inflateBare [] := rfl
    rw [hempty, inflateBare, inflate_nil]
    rfl
  | [method] =>
    obtain ⟨rfl, -⟩ := List.cons.inj hp
    have hone : inflate [0x78] = .error .truncated := by
      rw [inflate, readBlocks_eq]
      rfl
    have hbare : decompressBytes [0x78] = inflateBare [0x78] := rfl
    rw [hbare, inflateBare, hone]
    rfl
  | method :: flags :: q =>
    obtain ⟨rfl, hp'⟩ := List.cons.inj hp
    obtain ⟨rfl, hq⟩ := List.cons.inj hp'
    have hinflate : inflate ((0x78 :: 0x9C :: q ++ more).drop 2) = .ok (text, checksum) := by
      rw [hp]
      exact inflate_append hi checksum
    have hpos := List.length_pos_iff.2 hm
    refine decompressBytes_of_error (b := q) ?_ fun hs ↦ h ?_
    · exact Zlib.decompress_of_cut hinflate (by omega)
    · rw [← hp]
      exact hs.append more

theorem decompressBytes_of_checksum (hi : inflate stream = .ok (text, []))
    (hl : checksum.length = 4) (h : ¬ LooksStored (Zlib.header ++ (stream ++ checksum)))
    (hne : checksum ≠ Bytes.bigEndian 4 (Adler32.ofBytes text)) :
    decompressBytes (Zlib.header ++ (stream ++ checksum)) = .error .corrupt := by
  refine decompressBytes_of_error ?_ h
  have hinflate : inflate ((Zlib.header ++ (stream ++ checksum)).drop 2) =
      .ok (text, checksum ++ []) := by
    rw [List.append_nil]
    exact inflate_append hi checksum
  rw [Zlib.decompress_of_checksum hinflate hl, if_neg hne]

/-- The octets of a checksum do not make a compressed text look like a stored block. -/
theorem LooksStored.of_deflate {rest : Bytes}
    (h : LooksStored (Zlib.header ++ (deflate text ++ rest))) (rest' : Bytes) :
    LooksStored (Zlib.header ++ (deflate text ++ rest')) := by
  rw [← List.append_assoc] at h ⊢
  by_cases ht : text = []
  · -- The octets behind this stream come after one that does not count as it would have to.
    subst ht
    rw [deflate_nil] at h
    have hzero : (Zlib.header ++ [0x03, 0x00] ++ rest)[3]? = some 0x00 := rfl
    rw [LooksStored, hzero] at h
    exact absurd h.1 (by decide)
  · -- The octets that count all belong to the stream.
    have hlen := three_le_length_deflate ht
    have heq : ∀ i < 5, (Zlib.header ++ deflate text ++ rest)[i]? =
        (Zlib.header ++ deflate text ++ rest')[i]? := by
      intro i hi
      have hfront : i < (Zlib.header ++ deflate text).length := by
        rw [List.length_append, Zlib.header, List.length_cons, List.length_singleton]
        omega
      rw [List.getElem?_append_left hfront, List.getElem?_append_left hfront]
    rwa [LooksStored, heq 2 (by decide), heq 3 (by decide), heq 4 (by decide)] at h

end Framed

/-- A compressed text that is cut anywhere is truncated, and one with another checksum is corrupt,
unless it happens to count like a stored block when it is read without its header. -/
theorem damage_reported (s : String) :
    ∃ c z, compress (some s) = some c ∧ Base64.decode c = .ok z ∧
      (¬ (z[3]? = some 0x63 ∧ z[4]? = z[2]?.map (255 - ·)) →
        (∀ p, p <+: z → p ≠ z → decompress (some (Base64.encode p)) =
          .error ⟨.malformedCompressedData, "input is truncated"⟩) ∧
        ∀ front checksum checksum', z = front ++ checksum → checksum.length = 4 →
          checksum'.length = 4 → checksum' ≠ checksum →
          decompress (some (Base64.encode (front ++ checksum'))) = .error
            ⟨.malformedCompressedData, "invalid deflate stream: deflate decompression error"⟩) := by
  have hinflate := inflate_deflate_nil (Bytes.ofText s)
  refine ⟨_, Zlib.compress (Bytes.ofText s), rfl, Base64.decode_encode _, fun h ↦ ?_⟩
  rw [Zlib.compress, List.append_assoc] at h ⊢
  refine ⟨?_, ?_⟩
  · rintro p ⟨more, hp⟩ hne
    have hm : more ≠ [] := by
      rintro rfl
      rw [List.append_nil] at hp
      exact hne hp
    exact decompress_encode_of_error
      (decompressBytes_of_cut hinflate (Bytes.length_bigEndian 4 _) h hp hm)
  · intro front checksum checksum' hz hl hl' hne
    rw [← List.append_assoc] at hz
    obtain ⟨rfl, rfl⟩ := List.append_inj' hz (by rw [hl, Bytes.length_bigEndian])
    rw [List.append_assoc]
    exact decompress_encode_of_error
      (decompressBytes_of_checksum hinflate hl' (fun hs ↦ h (hs.of_deflate _)) hne)

theorem damage_reported_short :
    let z : Bytes := [0x78, 0x9C, 0x4B, 0x04, 0x00, 0x00, 0x62, 0x00, 0x62]
    compress (some "a") = some (Base64.encode z) ∧
      ¬ (z[3]? = some 0x63 ∧ z[4]? = z[2]?.map (255 - ·)) ∧
      [0x78] <+: z ∧ [0x78] ≠ z ∧
      decompress (some (Base64.encode [0x78])) =
        .error ⟨.malformedCompressedData, "input is truncated"⟩ ∧
      decompress (some (Base64.encode (z.take 5 ++ [0x00, 0x62, 0x00, 0x63]))) = .error
        ⟨.malformedCompressedData, "invalid deflate stream: deflate decompression error"⟩ := by
  intro z
  have hz : Zlib.compress (Bytes.ofText "a") = z := by decide +kernel
  have hc : compress (some "a") = some (Base64.encode z) := by rw [← hz, compress]
  have hcount : ¬ (z[3]? = some 0x63 ∧ z[4]? = z[2]?.map (255 - ·)) := by decide
  obtain ⟨c, z', hc', hz', h⟩ := damage_reported "a"
  obtain rfl : Base64.encode z = c := Option.some.inj (hc.symm.trans hc')
  obtain rfl : z = z' := Except.ok.inj ((Base64.decode_encode z).symm.trans hz')
  obtain ⟨hcut, hchecksum⟩ := h hcount
  have hprefix : [0x78] <+: z := by decide
  have hne : [0x78] ≠ z := by decide
  exact ⟨hc, hcount, hprefix, hne, hcut _ hprefix hne,
    hchecksum (z.take 5) [0x00, 0x62, 0x00, 0x62] _ rfl rfl rfl (by decide)⟩

end ColumnFunctions
