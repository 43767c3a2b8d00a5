import ColumnFunctions.Bytes

namespace ColumnFunctions.Deflate

inductive Token where
  | literal (octet : UInt8)
  | copy (length distance : Nat)
  deriving DecidableEq, Repr

/-- Puts `length` octets behind `out`, each the octet `distance` before it. A copy may reach into
what it is writing, and what lies before the beginning reads as zero. -/
def copyBack (out : Array UInt8) (distance : Nat) : (length : Nat) → Array UInt8
  | 0 => out
  | length + 1 =>
    let octet := if distance ≤ out.size then out[out.size - distance]?.getD 0 else 0
    copyBack (out.push octet) distance length

def Token.expand (out : Array UInt8) : Token → Array UInt8
  | .literal octet => out.push octet
  | .copy length distance => copyBack out distance length

def expand (tokens : List Token) : Bytes :=
  (tokens.foldl Token.expand #[]).toList

end ColumnFunctions.Deflate
