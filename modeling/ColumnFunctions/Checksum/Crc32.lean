import ColumnFunctions.Bytes

namespace ColumnFunctions.Crc32

/-- One bit of the division by the polynomial. -/
def shift (r : UInt32) : UInt32 :=
  if r &&& 1 = 1 then (r >>> 1) ^^^ 0xEDB88320 else r >>> 1

def add (r : UInt32) (b : UInt8) : UInt32 :=
  Nat.repeat shift 8 (r ^^^ b.toUInt32)

def ofBytes (b : Bytes) : UInt32 := b.foldl add 0xFFFFFFFF ^^^ 0xFFFFFFFF

end ColumnFunctions.Crc32
