import ColumnFunctions.Aead.Block

namespace ColumnFunctions.Gcm

abbrev Nonce := { b : Bytes // b.length = 12 }

def tagLength : Nat := 16

def maxText : Nat := 1 <<< 36

/-- The field's polynomial without its leading term; the first bit is the constant term. -/
def reduction : Block := 0xE1000000000000000000000000000000

def timesX (v : Block) : Block :=
  if v.getLsbD 0 then (v >>> 1) ^^^ reduction else v >>> 1

/-- Adds the multiples of `v` that the bits of `x` from number `128 - count` on call for. -/
def mulFrom (x : Block) : (count : Nat) → (v sum : Block) → Block
  | 0, _, sum => sum
  | count + 1, v, sum =>
    mulFrom x count (timesX v) (if x.getLsbD count then sum ^^^ v else sum)

def mul (x y : Block) : Block := mulFrom x 128 y 0

def hash (h : Block) (blocks : List Block) : Block :=
  blocks.foldl (fun sum x ↦ mul (sum ^^^ x) h) 0

/-- The blocks that are hashed: the text, and its length in bits. -/
def hashed (text : Bytes) : List Block :=
  Block.split text ++ [BitVec.ofNat 128 (8 * text.length)]

def increment (counter : Block) : Block :=
  let low := counter.toNat % UInt32.size
  BitVec.ofNat 128 (counter.toNat - low + (low + 1) % UInt32.size)

/-- The first counter block. The tag is masked with it, and the text begins with the next. -/
def firstCounter (nonce : Nonce) : Block := Block.ofBytes (nonce.val ++ [0, 0, 0, 1])

def addStream (cipher : Block → Block) (counter : Block) : Bytes → Bytes
  | [] => []
  | c :: rest =>
    List.zipWith (· ^^^ ·) (c :: rest.take 15) (cipher counter).toBytes ++
      addStream cipher (increment counter) (rest.drop 15)
termination_by b => b.length
decreasing_by simp only [List.length_drop, List.length_cons]; omega

def tag (cipher : Block → Block) (nonce : Nonce) (text : Bytes) : Bytes :=
  (hash (cipher 0) (hashed text) ^^^ cipher (firstCounter nonce)).toBytes

def encrypt (cipher : Block → Block) (nonce : Nonce) (text : Bytes) : Bytes :=
  let encrypted := addStream cipher (increment (firstCounter nonce)) text
  encrypted ++ tag cipher nonce encrypted

def decrypt? (cipher : Block → Block) (nonce : Nonce) (sealed : Bytes) : Option Bytes :=
  let encrypted := sealed.take (sealed.length - tagLength)
  if sealed.drop (sealed.length - tagLength) = tag cipher nonce encrypted then
    some (addStream cipher (increment (firstCounter nonce)) encrypted)
  else none

end ColumnFunctions.Gcm
