import ColumnFunctions.Json.Cursor

namespace ColumnFunctions.Json.Quoted

def hexDigit (n : Nat) : Char := Nat.digitChar n

def escaped (c : Char) : List Char :=
  if c = '"' then ['\\', '"']
  else if c = '\\' then ['\\', '\\']
  else if c = '\x08' then ['\\', 'b']
  else if c = '\x0c' then ['\\', 'f']
  else if c = '\n' then ['\\', 'n']
  else if c = '\r' then ['\\', 'r']
  else if c = '\t' then ['\\', 't']
  else if c.toNat < 32 then
    ['\\', 'u', '0', '0', hexDigit (c.toNat / 16), hexDigit (c.toNat % 16)]
  else [c]

def writeChars (s : String) : List Char := '"' :: s.toList.flatMap escaped ++ ['"']

def unescaped? (c : Char) : Option Char :=
  if c = '"' ∨ c = '\\' ∨ c = '/' then some c
  else if c = 'b' then some '\x08'
  else if c = 'f' then some '\x0c'
  else if c = 'n' then some '\n'
  else if c = 'r' then some '\r'
  else if c = 't' then some '\t'
  else none

def hexValue? (c : Char) : Option Nat :=
  let n := c.toNat
  if 48 ≤ n ∧ n ≤ 57 then some (n - 48)
  else if 65 ≤ n ∧ n ≤ 70 then some (n - 55)
  else if 97 ≤ n ∧ n ≤ 102 then some (n - 87)
  else none

def unit? (a b c d : Char) : Option Nat := do
  let a ← hexValue? a
  let b ← hexValue? b
  let c ← hexValue? c
  let d ← hexValue? d
  return ((a * 16 + b) * 16 + c) * 16 + d

def isHigh (n : Nat) : Bool := 0xD800 ≤ n ∧ n ≤ 0xDBFF

def isLow (n : Nat) : Bool := 0xDC00 ≤ n ∧ n ≤ 0xDFFF

def ofPair (high low : Nat) : Char :=
  Char.ofNat (0x10000 + (high - 0xD800) * 0x400 + (low - 0xDC00))

/-- What has been read: the characters, last first, or what is wrong with them as a text; and a
high surrogate that waits for its partner. -/
structure Draft where
  text : Except Issue (List Char)
  high : Option Nat

namespace Draft

def empty : Draft := ⟨.ok [], none⟩

def spoil (d : Draft) (cause : Cause) (offset : Nat) : Draft :=
  match d.text with
  | .ok _ => ⟨.error ⟨cause, offset⟩, none⟩
  | .error i => ⟨.error i, none⟩

def add (d : Draft) (c : Char) (offset : Nat) : Draft :=
  match d.high with
  | some _ => d.spoil .escapeCutShort offset
  | none => ⟨d.text.map (c :: ·), none⟩

def addUnit (d : Draft) (n offset : Nat) : Draft :=
  match d.high with
  | some high =>
    if isLow n then ⟨d.text.map (ofPair high n :: ·), none⟩ else d.spoil .loneSurrogate offset
  | none =>
    if isHigh n then ⟨d.text, some n⟩
    else if isLow n then d.spoil .loneSurrogate offset
    else ⟨d.text.map (Char.ofNat n :: ·), none⟩

def close (d : Draft) (offset : Nat) : Except Issue String :=
  match d.high with
  | some _ => (d.spoil .escapeCutShort offset).text.map fun cs ↦ String.ofList cs.reverse
  | none => d.text.map fun cs ↦ String.ofList cs.reverse

/-- The string breaks off. A reader who wants the text may have seen something else before. -/
def breakOff (d : Draft) (wanted skipped : Issue) : Fault :=
  let first := match d.text with
    | .ok _ => wanted
    | .error i => i
  ⟨first, skipped, first⟩

def causeOr (d : Draft) (cause : Cause) : Cause :=
  match d.high with
  | some _ => .escapeCutShort
  | none => cause

end Draft

def byteLength (cs : List Char) : Nat := (cs.map Char.utf8Size).foldr (· + ·) 0

def badUnit (d : Draft) (offset : Nat) (rest : List Char) : Fault :=
  let n := byteLength (rest.take 4)
  let i : Issue := if n < 4 then ⟨.endInString, offset + n⟩ else ⟨.invalidEscape, offset + 4⟩
  d.breakOff i i

def readFrom (d : Draft) (offset : Nat) :
    List Char → Except Fault (Except Issue String × Cursor)
  | [] => .error (d.breakOff ⟨.endInString, offset⟩ ⟨.endInString, offset⟩)
  | '"' :: rest => .ok (d.close (offset + 1), ⟨rest, offset + 1⟩)
  | ['\\'] => .error (d.breakOff ⟨.endInString, offset + 1⟩ ⟨.endInString, offset + 1⟩)
  | '\\' :: 'u' :: a :: b :: c :: e :: rest =>
    match unit? a b c e with
    | some n => readFrom (d.addUnit n (offset + 6)) (offset + 6) rest
    | none => .error (badUnit d (offset + 2) (a :: b :: c :: e :: rest))
  | '\\' :: 'u' :: rest => .error (badUnit d (offset + 2) rest)
  | '\\' :: c :: rest =>
    match unescaped? c with
    | some x => readFrom (d.add x (offset + 2)) (offset + 2) rest
    | none =>
      .error (d.breakOff ⟨d.causeOr .invalidEscape, offset + 2⟩ ⟨.invalidEscape, offset + 2⟩)
  | c :: rest =>
    if c.toNat < 32 then
      .error (d.breakOff ⟨d.causeOr .controlCharacter, offset + 1⟩ ⟨.controlCharacter, offset⟩)
    else readFrom (d.add c (offset + 1)) (offset + c.utf8Size) rest

def read (c : Cursor) : Except Fault (Except Issue String × Cursor) :=
  readFrom .empty c.offset c.rest

end ColumnFunctions.Json.Quoted
