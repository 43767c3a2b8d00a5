import ColumnFunctions.Compression
import ColumnFunctions.Proofs.Base64
import ColumnFunctions.Proofs.Deflate.RoundTrip

namespace ColumnFunctions

theorem decompressBytes_compress (b rest : Bytes) :
    decompressBytes (Zlib.compress b ++ rest) = .ok b := by
  rw [decompressBytes, if_pos (Zlib.hasHeader_compress b rest), Zlib.decompress_compress]

/-- Every text can be compressed, and decompressing the result gives the text back. -/
theorem compression_lossless (s : String) :
    ∃ c, compress (some s) = some c ∧ decompress (some c) = .ok (some s) := by
  have h := decompressBytes_compress (Bytes.ofText s) []
  rw [List.append_nil] at h
  refine ⟨Base64.encode (Zlib.compress (Bytes.ofText s)), rfl, ?_⟩
  simp only [decompress, Base64.decode_encode, h, Bytes.toText?_ofText]

end ColumnFunctions
