import ColumnFunctions.Bytes

namespace ColumnFunctions

abbrev Block := BitVec 128

namespace Block

def ofBytes (b : Bytes) : Block :=
  BitVec.ofNat 128 ((List.range 16).foldl (fun n i ↦ n * 256 + (b.getD i 0).toNat) 0)

def toBytes (x : Block) : Bytes := Bytes.bigEndian 16 x.toNat

@[simp] theorem length_toBytes (x : Block) : x.toBytes.length = 16 := by simp [toBytes]

/-- The blocks of octets in order, the last one filled up with zeros. -/
def split : Bytes → List Block
  | [] => []
  | c :: rest => ofBytes (c :: rest) :: split (rest.drop 15)
termination_by b => b.length
decreasing_by simp only [List.length_drop, List.length_cons]; omega

end Block

end ColumnFunctions
