import ColumnFunctions.Bytes

namespace ColumnFunctions

structure Adler32 where
  low : Nat
  high : Nat

namespace Adler32

def modulus : Nat := 65521

def start : Adler32 := ⟨1, 0⟩

def add (s : Adler32) (b : UInt8) : Adler32 :=
  let low := (s.low + b.toNat) % modulus
  ⟨low, (s.high + low) % modulus⟩

def value (s : Adler32) : Nat := s.high * 65536 + s.low

def ofBytes (b : Bytes) : Nat := (b.foldl add start).value

end Adler32

end ColumnFunctions
