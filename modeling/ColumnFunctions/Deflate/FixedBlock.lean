import ColumnFunctions.Deflate.Alphabet
import ColumnFunctions.Deflate.Matching

namespace ColumnFunctions.Deflate

def numberBits (count n : Nat) : List Bool := (List.range count).map n.testBit

def fixedWord (symbol : Nat) : List Bool :=
  if symbol < 144 then Code.word 8 (48 + symbol)
  else if symbol < 256 then Code.word 9 (256 + symbol)
  else if symbol < 280 then Code.word 7 (symbol - 256)
  else Code.word 8 (symbol - 88)

def fixedDistanceWord (symbol : Nat) : List Bool := Code.word 5 symbol

def Token.bits : Token → List Bool
  | .literal octet => fixedWord octet.toNat
  | .copy length distance =>
    let (i, lengths) := rangeOf lengthRanges length
    let (j, distances) := rangeOf distanceRanges distance
    fixedWord (257 + i) ++ numberBits lengths.extra (length - lengths.base) ++
      fixedDistanceWord j ++ numberBits distances.extra (distance - distances.base)

def octetOfBits (bits : List Bool) : UInt8 :=
  UInt8.ofNat (bits.foldr (fun b n ↦ b.toNat + 2 * n) 0)

def pack : List Bool → Bytes
  | [] => []
  | b :: bits => octetOfBits (b :: bits.take 7) :: pack (bits.drop 7)
termination_by bits => bits.length
decreasing_by simp only [List.length_drop, List.length_cons]; omega

def blockBits (tokens : List Token) : List Bool :=
  true :: numberBits 2 1 ++ tokens.flatMap Token.bits ++ fixedWord endOfBlock

def deflate (b : Bytes) : Bytes := pack (blockBits (tokens b))

end ColumnFunctions.Deflate
