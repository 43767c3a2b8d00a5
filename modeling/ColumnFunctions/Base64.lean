import ColumnFunctions.Bytes

namespace ColumnFunctions.Base64

/-- Why a text is no Base64. Offsets count bytes of the text. -/
inductive Error where
  | invalidSymbol (symbol : UInt8) (offset : Nat)
  | invalidLastSymbol (symbol : UInt8) (offset : Nat)
  | invalidPadding
  | invalidLength (length : Nat)
  deriving DecidableEq, Repr

def Error.message : Error → String
  | .invalidSymbol b n => "Invalid symbol " ++ toString b.toNat ++ ", offset " ++ toString n ++ "."
  | .invalidLastSymbol b n =>
    "Invalid last symbol " ++ toString b.toNat ++ ", offset " ++ toString n ++ "."
  | .invalidPadding => "Invalid padding"
  | .invalidLength n => "Invalid input length: " ++ toString n

def symbol (v : Nat) : Char :=
  if v < 26 then Char.ofNat (65 + v)
  else if v < 52 then Char.ofNat (71 + v)
  else if v < 62 then Char.ofNat (v - 4)
  else if v = 62 then '+'
  else '/'

def value? (b : UInt8) : Option Nat :=
  let n := b.toNat
  if 65 ≤ n ∧ n ≤ 90 then some (n - 65)
  else if 97 ≤ n ∧ n ≤ 122 then some (n - 71)
  else if 48 ≤ n ∧ n ≤ 57 then some (n + 4)
  else if n = 43 then some 62
  else if n = 47 then some 63
  else none

def pad : UInt8 := 61

def encodeChars : Bytes → List Char
  | a :: b :: c :: rest =>
    symbol (a.toNat / 4) :: symbol (a.toNat % 4 * 16 + b.toNat / 16) ::
      symbol (b.toNat % 16 * 4 + c.toNat / 64) :: symbol (c.toNat % 64) :: encodeChars rest
  | [a, b] =>
    [symbol (a.toNat / 4), symbol (a.toNat % 4 * 16 + b.toNat / 16), symbol (b.toNat % 16 * 4), '=']
  | [a] => [symbol (a.toNat / 4), symbol (a.toNat % 4 * 16), '=', '=']
  | [] => []

def encode (b : Bytes) : String := String.ofList (encodeChars b)

def octets (v w x y : Nat) : Bytes :=
  [UInt8.ofNat (v * 4 + w / 16), UInt8.ofNat (w % 16 * 16 + x / 4), UInt8.ofNat (x % 4 * 64 + y)]

/-- The value of a symbol in a group that others follow, where padding is out of place too. -/
def inner (offset : Nat) (b : UInt8) : Except Error Nat :=
  match value? b with
  | some v => .ok v
  | none => .error (.invalidSymbol b offset)

structure Tail where
  symbols : List (UInt8 × Nat)
  padding : Nat

def Tail.scan (offset i : Nat) (t : Tail) : Bytes → Except Error Tail
  | [] => .ok t
  | b :: rest =>
    if b = pad then
      if i < 2 then .error (.invalidSymbol b (offset + i))
      else scan offset (i + 1) { t with padding := t.padding + 1 } rest
    else if 0 < t.padding then .error (.invalidSymbol pad (offset + i - t.padding))
    else match value? b with
      | some v => scan offset (i + 1) { t with symbols := t.symbols ++ [(b, v)] } rest
      | none => .error (.invalidSymbol b (offset + i))

def Tail.octets (offset : Nat) (t : Tail) : Except Error Bytes :=
  if t.symbols.length < 2 then .error (.invalidLength (offset + t.symbols.length))
  else if (t.symbols.length + t.padding) % 4 ≠ 0 then .error .invalidPadding
  else match t.symbols with
    | [(_, v), (b, w)] =>
      if w % 16 = 0 then .ok ((Base64.octets v w 0 0).take 1)
      else .error (.invalidLastSymbol b (offset + 1))
    | [(_, v), (_, w), (b, x)] =>
      if x % 4 = 0 then .ok ((Base64.octets v w x 0).take 2)
      else .error (.invalidLastSymbol b (offset + 2))
    | (_, v) :: (_, w) :: (_, x) :: (_, y) :: _ => .ok (Base64.octets v w x y)
    | _ => .error .invalidPadding

def decodeGroups (offset : Nat) : Bytes → Except Error Bytes
  | a :: b :: c :: d :: e :: rest => do
    let v ← inner offset a
    let w ← inner (offset + 1) b
    let x ← inner (offset + 2) c
    let y ← inner (offset + 3) d
    let more ← decodeGroups (offset + 4) (e :: rest)
    return octets v w x y ++ more
  | [] => .ok []
  | last => do
    let t ← Tail.scan offset 0 ⟨[], 0⟩ last
    t.octets offset

/-- A text of one byte too many is refused for that byte first, if it is no symbol at all. -/
def strayLast? (text : Bytes) : Option Error :=
  match text.getLast? with
  | some b =>
    if text.length % 4 = 1 ∧ b ≠ pad ∧ value? b = none then
      some (.invalidSymbol b (text.length - 1))
    else none
  | none => none

def decodeBytes (text : Bytes) : Except Error Bytes :=
  match strayLast? text with
  | some e => .error e
  | none => decodeGroups 0 text

/-- Decodes canonical text only: padding must be complete, and the bits of the last symbol that
carry no data must be zero. -/
def decode (text : String) : Except Error Bytes := decodeBytes (Bytes.ofText text)

end ColumnFunctions.Base64
