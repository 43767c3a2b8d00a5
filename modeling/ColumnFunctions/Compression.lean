import ColumnFunctions.Base64
import ColumnFunctions.Failure
import ColumnFunctions.Zlib

namespace ColumnFunctions

open Deflate

def compress : Option String → Option String
  | none => none
  | some s => some (Base64.encode (Zlib.compress (Bytes.ofText s)))

def inflateBare (b : Bytes) : Except Interruption Bytes := (inflate b).map (·.1)

/-- The text of a stream with or without framing. A bare stream may begin like a framed one, so a
stream that fails as framed is tried as bare; if that fails too, the first failure counts. -/
def decompressBytes (b : Bytes) : Except Interruption Bytes :=
  if Zlib.hasHeader b then
    match Zlib.decompress b with
    | .ok text => .ok text
    | .error e => (inflateBare b).mapError fun _ ↦ e
  else inflateBare b

def Deflate.Interruption.detail : Interruption → String
  | .truncated => "input is truncated"
  | .corrupt => "invalid deflate stream: deflate decompression error"

def decompress : Option String → Except Failure (Option String)
  | none => .ok none
  | some s =>
    match Base64.decode s with
    | .error e => .error (.malformed ("invalid Base64: " ++ e.message))
    | .ok b =>
      match decompressBytes b with
      | .error e => .error (.malformed e.detail)
      | .ok text =>
        match Bytes.toText? text with
        | some t => .ok (some t)
        | none => .error (.malformed "decompressed bytes are not valid UTF-8")

end ColumnFunctions
