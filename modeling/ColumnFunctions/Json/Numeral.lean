import ColumnFunctions.Json.Cursor
import ColumnFunctions.Json.Number

namespace ColumnFunctions.Json.Numeral

def cutOff (offset : Nat) : Fault := .skippedAs .invalidNumber .endInValue offset

def readWhole (c : Cursor) : Except Fault (List Nat × Cursor) :=
  match c.rest with
  | [] => .error (cutOff c.offset)
  | '0' :: d :: rest =>
    if d.isDigit then .error (.all .invalidNumber (c.offset + 2))
    else .ok ([0], ⟨d :: rest, c.offset + 1⟩)
  | d :: _ => if d.isDigit then .ok c.digits else .error (.all .invalidNumber (c.offset + 1))

def readSome (c : Cursor) : Except Fault (List Nat × Cursor) :=
  match c.rest with
  | [] => .error (cutOff c.offset)
  | d :: _ => if d.isDigit then .ok c.digits else .error (.all .invalidNumber (c.offset + 1))

def readFraction (c : Cursor) : Except Fault (Option (List Nat) × Cursor) :=
  match c.rest with
  | '.' :: rest => do
    let (ds, c) ← readSome ⟨rest, c.offset + 1⟩
    return (some ds, c)
  | _ => .ok (none, c)

def readExponent (c : Cursor) : Except Fault (Option (Bool × List Nat) × Cursor) :=
  match c.rest with
  | e :: rest =>
    if e = 'e' ∨ e = 'E' then do
      let (down, c) := match rest with
        | '+' :: rest => (false, ⟨rest, c.offset + 2⟩)
        | '-' :: rest => (true, ⟨rest, c.offset + 2⟩)
        | _ => (false, (⟨rest, c.offset + 1⟩ : Cursor))
      let (ds, c) ← readSome c
      return (some (down, ds), c)
    else .ok (none, c)
  | [] => .ok (none, c)

def read (c : Cursor) : Except Fault (Numeral × Cursor) := do
  let (negative, c) := match c.rest with
    | '-' :: rest => (true, (⟨rest, c.offset + 1⟩ : Cursor))
    | _ => (false, c)
  let (whole, c) ← readWhole c
  let (fraction, c) ← readFraction c
  let (exponent, c) ← readExponent c
  return (⟨negative, whole, fraction, exponent⟩, c)

end ColumnFunctions.Json.Numeral
