import ColumnFunctions.Checksum.Crc32
import ColumnFunctions.Deflate.Inflate

namespace ColumnFunctions.Gzip

open Deflate

inductive Failure where
  | endOfInput
  | invalidHeader
  | fieldTooLong
  | wrongChecksum
  | corruptStream
  | incompleteStream
  | notText
  deriving DecidableEq, Repr

def Failure.message : Failure → String
  | .endOfInput => "unexpected end of file"
  | .invalidHeader => "invalid gzip header"
  | .fieldTooLong => "gzip header field too long"
  | .wrongChecksum => "corrupt gzip stream does not have a matching checksum"
  | .corruptStream => "corrupt deflate stream"
  | .incompleteStream => "incomplete deflate stream"
  | .notText => "stream did not contain valid UTF-8"

def take (n : Nat) (b : Bytes) : Except Failure (Bytes × Bytes) :=
  if n ≤ b.length then .ok (b.take n, b.drop n) else .error .endOfInput

def littleEndian (b : Bytes) : Nat := b.foldr (fun c n ↦ c.toNat + 256 * n) 0

def maxField : Nat := 65535

def skipField : (room : Nat) → Bytes → Except Failure Bytes
  | _, [] => .error .endOfInput
  | room, c :: rest =>
    if c = 0 then .ok rest
    else match room with
      | 0 => .error .fieldTooLong
      | room + 1 => skipField room rest

def skipExtra (b : Bytes) : Except Failure Bytes := do
  let (count, b) ← take 2 b
  let (_, b) ← take (littleEndian count) b
  return b

def checkHeader (header b : Bytes) : Except Failure Bytes := do
  let (sum, b) ← take 2 b
  if littleEndian sum = (Crc32.ofBytes header).toNat % 65536 then return b else throw .wrongChecksum

/-- What follows a part of the header that is there if its flag is set. -/
def optional (flag : Bool) (skip : Bytes → Except Failure Bytes) (b : Bytes) :
    Except Failure Bytes :=
  if flag then skip b else .ok b

def skipHeader (b : Bytes) : Except Failure Bytes := do
  let (start, rest) ← take 10 b
  let flags := (start.getD 3 0).toNat
  if start.take 3 ≠ [0x1F, 0x8B, 8] ∨ 32 ≤ flags then throw .invalidHeader
  let rest ← optional (flags.testBit 2) skipExtra rest
  let rest ← optional (flags.testBit 3) (skipField maxField) rest
  let rest ← optional (flags.testBit 4) (skipField maxField) rest
  optional (flags.testBit 1) (checkHeader (b.take (b.length - rest.length))) rest

def inflateMember (b : Bytes) : Except Failure (Bytes × Bytes) :=
  match inflate b with
  | .ok r => .ok r
  | .error .truncated => .error .incompleteStream
  | .error .corrupt => .error .corruptStream

def readMember (b : Bytes) : Except Failure (Bytes × Bytes) := do
  let b ← skipHeader b
  let (text, b) ← inflateMember b
  let (trailer, b) ← take 8 b
  let check := littleEndian (trailer.take 4) = (Crc32.ofBytes text).toNat ∧
    littleEndian (trailer.drop 4) = text.length % UInt32.size
  if check then return (text, b) else throw .wrongChecksum

theorem length_take {n : Nat} {b first rest : Bytes} (h : take n b = .ok (first, rest)) :
    rest.length + n = b.length := by
  simp only [take] at h
  split at h
  · cases h
    simp only [List.length_drop]
    omega
  · cases h

theorem length_skipField_le {room : Nat} {b rest : Bytes} (h : skipField room b = .ok rest) :
    rest.length ≤ b.length := by
  fun_induction skipField room b with
  | case1 => cases h
  | case2 => cases h; simp
  | case3 => cases h
  | case4 _ _ _ _ ih =>
    have := ih h
    simp only [List.length_cons]
    omega

theorem length_skipExtra_le {b rest : Bytes} (h : skipExtra b = .ok rest) :
    rest.length ≤ b.length := by
  obtain ⟨⟨_, b₁⟩, h₁, h⟩ := bind_eq_ok.1 h
  obtain ⟨⟨_, b₂⟩, h₂, h⟩ := bind_eq_ok.1 h
  cases h
  have := length_take h₁
  have := length_take h₂
  omega

theorem length_checkHeader_le {header b rest : Bytes} (h : checkHeader header b = .ok rest) :
    rest.length ≤ b.length := by
  obtain ⟨⟨_, b₁⟩, h₁, h⟩ := bind_eq_ok.1 h
  have := length_take h₁
  dsimp only at h
  split at h
  · cases h
    omega
  · cases h

theorem length_optional_le {flag : Bool} {b rest : Bytes} {skip : Bytes → Except Failure Bytes}
    (hs : ∀ {rest}, skip b = .ok rest → rest.length ≤ b.length)
    (h : optional flag skip b = .ok rest) : rest.length ≤ b.length := by
  simp only [optional] at h
  split at h
  · exact hs h
  · cases h
    exact Nat.le_refl _

theorem length_skipHeader_lt {b rest : Bytes} (h : skipHeader b = .ok rest) :
    rest.length < b.length := by
  obtain ⟨⟨start, b₁⟩, h₁, h⟩ := bind_eq_ok.1 h
  have := length_take h₁
  dsimp only at h
  split at h
  · cases h
  obtain ⟨b₂, h₂, h⟩ := bind_eq_ok.1 h
  have := length_optional_le length_skipExtra_le h₂
  obtain ⟨b₃, h₃, h⟩ := bind_eq_ok.1 h
  have := length_optional_le length_skipField_le h₃
  obtain ⟨b₄, h₄, h⟩ := bind_eq_ok.1 h
  have := length_optional_le length_skipField_le h₄
  have := length_optional_le length_checkHeader_le h
  omega

theorem length_readMember_lt {b text rest : Bytes} (h : readMember b = .ok (text, rest)) :
    rest.length < b.length := by
  obtain ⟨b₁, h₁, h⟩ := bind_eq_ok.1 h
  have := length_skipHeader_lt h₁
  obtain ⟨⟨_, b₂⟩, h₂, h⟩ := bind_eq_ok.1 h
  have : b₂.length ≤ b₁.length := by
    simp only [inflateMember] at h₂
    split at h₂
    · next hi =>
      cases h₂
      exact length_inflate_le hi
    · cases h₂
    · cases h₂
  obtain ⟨⟨_, b₃⟩, h₃, h⟩ := bind_eq_ok.1 h
  have := length_take h₃
  dsimp only at h
  split at h
  · cases h
    omega
  · cases h

/-- The text of all members. There is at least one. -/
def decompress (b : Bytes) : Except Failure Bytes :=
  match _h : readMember b with
  | .error e => .error e
  | .ok (text, []) => .ok text
  | .ok (text, c :: rest) =>
    match decompress (c :: rest) with
    | .error e => .error e
    | .ok more => .ok (text ++ more)
termination_by b.length
decreasing_by exact length_readMember_lt _h

end ColumnFunctions.Gzip
