import ColumnFunctions.Deflate.Alphabet
import ColumnFunctions.Deflate.Token

namespace ColumnFunctions.Deflate

def readCopy (distances : Code) (symbol : Nat) (s : BitSource) :
    Except Interruption (Nat × Nat × BitSource) := do
  let (length, s) ← Range.read lengthRanges (symbol - 257) s
  let (index, s) ← distances.read s
  let (distance, s) ← Range.read distanceRanges index s
  return (length, distance, s)

theorem size_readCopy_le {distances : Code} {symbol length distance : Nat} {s t : BitSource}
    (h : readCopy distances symbol s = .ok (length, distance, t)) : t.size ≤ s.size := by
  obtain ⟨⟨_, s₁⟩, hl, h⟩ := bind_eq_ok.1 h
  obtain ⟨⟨_, s₂⟩, hi, h⟩ := bind_eq_ok.1 h
  obtain ⟨⟨_, s₃⟩, hd, h⟩ := bind_eq_ok.1 h
  cases h
  have h₁ := Range.size_read_le hl
  have h₂ := Code.size_read_lt hi
  have h₃ := Range.size_read_le hd
  omega

def readToken (literals distances : Code) (s : BitSource) :
    Except Interruption (Option Token × BitSource) := do
  let (symbol, s) ← literals.read s
  if symbol < endOfBlock then return (some (.literal (UInt8.ofNat symbol)), s)
  else if symbol = endOfBlock then return (none, s)
  else
    let (length, distance, s) ← readCopy distances symbol s
    return (some (.copy length distance), s)

theorem size_readToken_lt {literals distances : Code} {token : Option Token} {s t : BitSource}
    (h : readToken literals distances s = .ok (token, t)) : t.size < s.size := by
  obtain ⟨⟨symbol, s₁⟩, hs, h⟩ := bind_eq_ok.1 h
  have h₁ := Code.size_read_lt hs
  dsimp only at h
  split at h
  · cases h; exact h₁
  · split at h
    · cases h; exact h₁
    · obtain ⟨⟨_, _, s₂⟩, hc, h⟩ := bind_eq_ok.1 h
      cases h
      have h₂ := size_readCopy_le hc
      dsimp only
      omega

def readTokens (literals distances : Code) (out : Array UInt8) (s : BitSource) :
    Except Interruption (Array UInt8 × BitSource) :=
  match _h : readToken literals distances s with
  | .error e => .error e
  | .ok (none, t) => .ok (out, t)
  | .ok (some token, t) => readTokens literals distances (token.expand out) t
termination_by s.size
decreasing_by exact size_readToken_lt _h

/-- A block of plain octets, put behind `out`: padding, the count, its complement, the octets. -/
def readStored (out : Array UInt8) (s : BitSource) :
    Except Interruption (Array UInt8 × BitSource) := do
  let (count, s) ← s.align.number 16
  let (check, s) ← s.number 16
  if count + check = 0xFFFF then
    let (out, rest) ← BitSource.copy out count s.rest
    return (out, .ofBytes rest)
  else throw .corrupt

def readLengthCode (count : Nat) (s : BitSource) : Except Interruption (List Nat × BitSource) :=
  go (lengthCodeOrder.take count) (List.replicate 19 0) s
where
  go : List Nat → List Nat → BitSource → Except Interruption (List Nat × BitSource)
    | [], lengths, s => .ok (lengths, s)
    | i :: order, lengths, s => do
      let (n, s) ← s.number 3
      go order (lengths.set i n) s

/-- What one symbol of the code for word lengths adds: a length, or a length or zero repeated. -/
def readLengths (code : Code) (lengths : List Nat) (s : BitSource) :
    Except Interruption (List Nat × BitSource) := do
  let (symbol, s) ← code.read s
  if symbol < 16 then return ([symbol], s)
  else if symbol = 16 then
    match lengths.getLast? with
    | none => throw .corrupt
    | some last =>
      let (n, s) ← s.number 2
      return (List.replicate (3 + n) last, s)
  else if symbol = 17 then
    let (n, s) ← s.number 3
    return (List.replicate (3 + n) 0, s)
  else
    let (n, s) ← s.number 7
    return (List.replicate (11 + n) 0, s)

theorem size_readLengths_lt {code : Code} {lengths more : List Nat} {s t : BitSource}
    (h : readLengths code lengths s = .ok (more, t)) : t.size < s.size := by
  obtain ⟨⟨symbol, s₁⟩, hs, h⟩ := bind_eq_ok.1 h
  have h₁ := Code.size_read_lt hs
  dsimp only at h
  split at h
  · cases h; exact h₁
  · split at h
    · split at h
      · cases h
      · obtain ⟨⟨_, s₂⟩, hn, h⟩ := bind_eq_ok.1 h
        cases h
        have h₂ := BitSource.size_number hn
        dsimp only
        omega
    · split at h
      all_goals
        obtain ⟨⟨_, s₂⟩, hn, h⟩ := bind_eq_ok.1 h
        cases h
        have h₂ := BitSource.size_number hn
        dsimp only
        omega

def readAllLengths (code : Code) (count : Nat) (lengths : List Nat) (s : BitSource) :
    Except Interruption (List Nat × BitSource) :=
  if lengths.length < count then
    match _h : readLengths code lengths s with
    | .error e => .error e
    | .ok (more, t) => readAllLengths code count (lengths ++ more) t
  else if lengths.length = count then .ok (lengths, s)
  else .error .corrupt
termination_by s.size
decreasing_by exact size_readLengths_lt _h

/-- The code of a block, refused if its words do not fill the space of words as they must. -/
def codeOf (lengths : List Nat) : Except Interruption Code :=
  if Code.isComplete lengths || Code.isDegenerate lengths then .ok (.ofLengths lengths)
  else .error .corrupt

def readCodes (s : BitSource) : Except Interruption (Code × Code × BitSource) := do
  let (literals, s) ← s.number 5
  let (distances, s) ← s.number 5
  let (count, s) ← s.number 4
  if 286 < literals + 257 ∨ 30 < distances + 1 then throw .corrupt
  let (lengths, s) ← readLengthCode (count + 4) s
  if ¬ Code.isComplete lengths then throw .corrupt
  let (all, s) ← readAllLengths (.ofLengths lengths) (literals + 257 + (distances + 1)) [] s
  let distanceCode ← codeOf (all.drop (literals + 257))
  let literalCode ← codeOf (all.take (literals + 257))
  return (literalCode, distanceCode, s)

def readBlock (kind : Nat) (out : Array UInt8) (s : BitSource) :
    Except Interruption (Array UInt8 × BitSource) :=
  match kind with
  | 0 => readStored out s
  | 1 => readTokens fixedCode fixedDistanceCode out s
  | 2 => do
    let (literals, distances, s) ← readCodes s
    readTokens literals distances out s
  | _ => .error .corrupt

theorem size_readTokens_le {literals distances : Code} {out out' : Array UInt8} {s t : BitSource}
    (h : readTokens literals distances out s = .ok (out', t)) : t.size ≤ s.size := by
  fun_induction readTokens literals distances out s with
  | case1 => cases h
  | case2 out s t' hs =>
    cases h
    exact Nat.le_of_lt (size_readToken_lt hs)
  | case3 out s token t' hs ih =>
    have h₁ := size_readToken_lt hs
    have h₂ := ih h
    omega

theorem size_readStored_le {out out' : Array UInt8} {s t : BitSource}
    (h : readStored out s = .ok (out', t)) : t.size ≤ s.size := by
  obtain ⟨⟨count, s₁⟩, hc, h⟩ := bind_eq_ok.1 h
  obtain ⟨⟨check, s₂⟩, hk, h⟩ := bind_eq_ok.1 h
  dsimp only at h
  split at h
  · obtain ⟨⟨_, rest⟩, ho, h⟩ := bind_eq_ok.1 h
    cases h
    have h₁ := BitSource.size_align_le s
    have h₂ := BitSource.size_number hc
    have h₃ := BitSource.size_number hk
    have h₄ := BitSource.length_copy ho
    simp only [BitSource.size, BitSource.ofBytes, List.length_nil] at *
    omega
  · cases h

theorem size_readLengthCode_go_le {order lengths lengths' : List Nat} {s t : BitSource}
    (h : readLengthCode.go order lengths s = .ok (lengths', t)) : t.size ≤ s.size := by
  induction order generalizing lengths s with
  | nil => cases h; exact Nat.le_refl _
  | cons i order ih =>
    obtain ⟨⟨_, s₁⟩, hn, h⟩ := bind_eq_ok.1 h
    have h₁ := BitSource.size_number hn
    have h₂ := ih h
    omega

theorem size_readAllLengths_le {code : Code} {count : Nat} {lengths lengths' : List Nat}
    {s t : BitSource} (h : readAllLengths code count lengths s = .ok (lengths', t)) :
    t.size ≤ s.size := by
  fun_induction readAllLengths code count lengths s with
  | case1 => cases h
  | case2 lengths s _ more t' hs ih =>
    have h₁ := size_readLengths_lt hs
    have h₂ := ih h
    omega
  | case3 => cases h; exact Nat.le_refl _
  | case4 => cases h

theorem size_readCodes_le {s t : BitSource} {literals distances : Code}
    (h : readCodes s = .ok (literals, distances, t)) : t.size ≤ s.size := by
  obtain ⟨⟨_, s₁⟩, h₁, h⟩ := bind_eq_ok.1 h
  obtain ⟨⟨_, s₂⟩, h₂, h⟩ := bind_eq_ok.1 h
  obtain ⟨⟨_, s₃⟩, h₃, h⟩ := bind_eq_ok.1 h
  dsimp only at h
  split at h
  · cases h
  obtain ⟨⟨_, s₄⟩, h₄, h⟩ := bind_eq_ok.1 h
  dsimp only at h
  split at h
  · cases h
  obtain ⟨⟨_, s₅⟩, h₅, h⟩ := bind_eq_ok.1 h
  obtain ⟨_, _, h⟩ := bind_eq_ok.1 h
  obtain ⟨_, _, h⟩ := bind_eq_ok.1 h
  cases h
  have h₁ := BitSource.size_number h₁
  have h₂ := BitSource.size_number h₂
  have h₃ := BitSource.size_number h₃
  have h₄ := size_readLengthCode_go_le h₄
  have h₅ := size_readAllLengths_le h₅
  dsimp only
  omega

theorem size_readBlock_le {kind : Nat} {out out' : Array UInt8} {s t : BitSource}
    (h : readBlock kind out s = .ok (out', t)) : t.size ≤ s.size := by
  unfold readBlock at h
  split at h
  · exact size_readStored_le h
  · exact size_readTokens_le h
  · obtain ⟨⟨_, _, s₁⟩, hc, h⟩ := bind_eq_ok.1 h
    have h₁ := size_readCodes_le hc
    have h₂ := size_readTokens_le h
    omega
  · cases h

def readBlocks (out : Array UInt8) (s : BitSource) :
    Except Interruption (Array UInt8 × BitSource) :=
  match _hf : s.next with
  | .error e => .error e
  | .ok (final, s₁) =>
    match _hk : s₁.number 2 with
    | .error e => .error e
    | .ok (kind, s₂) =>
      match _hb : readBlock kind out s₂ with
      | .error e => .error e
      | .ok (out, s₃) => if final then .ok (out, s₃) else readBlocks out s₃
termination_by s.size
decreasing_by
  have h₁ := BitSource.size_next _hf
  have h₂ := BitSource.size_number _hk
  have h₃ := size_readBlock_le _hb
  omega

theorem size_readBlocks_le {out out' : Array UInt8} {s t : BitSource}
    (h : readBlocks out s = .ok (out', t)) : t.size ≤ s.size := by
  fun_induction readBlocks out s with
  | case1 | case2 | case3 => cases h
  | case4 _ _ _ _ _ hk _ _ hb hf =>
    cases h
    have h₁ := BitSource.size_next hf
    have h₂ := BitSource.size_number hk
    have h₃ := size_readBlock_le hb
    omega
  | case5 _ _ _ _ hf _ _ hk _ _ hb _ ih =>
    have h₁ := BitSource.size_next hf
    have h₂ := BitSource.size_number hk
    have h₃ := size_readBlock_le hb
    have h₄ := ih h
    omega

/-- The text of a stream, and the octets after its last block. A fault is reported at the first bit
that no continuation could mend. -/
def inflate (b : Bytes) : Except Interruption (Bytes × Bytes) :=
  match readBlocks #[] (.ofBytes b) with
  | .error e => .error e
  | .ok (out, s) => .ok (out.toList, s.rest)

theorem length_inflate_le {b text rest : Bytes} (h : inflate b = .ok (text, rest)) :
    rest.length ≤ b.length := by
  simp only [inflate] at h
  split at h
  · cases h
  · next hs =>
    cases h
    have := size_readBlocks_le hs
    simp only [BitSource.size, BitSource.ofBytes, List.length_nil] at this
    omega

end ColumnFunctions.Deflate
