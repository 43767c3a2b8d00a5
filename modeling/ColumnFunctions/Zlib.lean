import ColumnFunctions.Checksum.Adler32
import ColumnFunctions.Deflate.FixedBlock
import ColumnFunctions.Deflate.Inflate

namespace ColumnFunctions.Zlib

open Deflate

def header : Bytes := [0x78, 0x9C]

/-- The octets begin as a header does: method 8, a window of at most 32 KiB, no preset dictionary,
and a multiple of 31. -/
def hasHeader : Bytes → Bool
  | method :: flags :: _ =>
    method.toNat % 16 = 8 ∧ method.toNat / 16 ≤ 7 ∧ flags.toNat.testBit 5 = false ∧
      (method.toNat * 256 + flags.toNat) % 31 = 0
  | _ => false

def compress (b : Bytes) : Bytes :=
  header ++ deflate b ++ Bytes.bigEndian 4 (Adler32.ofBytes b)

def decompress (b : Bytes) : Except Interruption Bytes :=
  match inflate (b.drop 2) with
  | .error e => .error e
  | .ok (text, rest) =>
    if rest.length < 4 then .error .truncated
    else if rest.take 4 = Bytes.bigEndian 4 (Adler32.ofBytes text) then .ok text
    else .error .corrupt

end ColumnFunctions.Zlib
