import ColumnFunctions.Json.Fault

namespace ColumnFunctions.Json

structure Cursor where
  rest : List Char
  offset : Nat
  deriving Repr

namespace Cursor

def start (text : String) : Cursor := ⟨text.toList, 0⟩

def isSpace (c : Char) : Bool := c = ' ' ∨ c = '\n' ∨ c = '\t' ∨ c = '\r'

def skipSpaceFrom (offset : Nat) : List Char → Cursor
  | [] => ⟨[], offset⟩
  | c :: rest => if isSpace c then skipSpaceFrom (offset + 1) rest else ⟨c :: rest, offset⟩

def skipSpace (c : Cursor) : Cursor := skipSpaceFrom c.offset c.rest

def digits (c : Cursor) : List Nat × Cursor :=
  let ds := c.rest.takeWhile Char.isDigit
  (ds.map fun d ↦ d.toNat - 48, ⟨c.rest.dropWhile Char.isDigit, c.offset + ds.length⟩)

/-- The place at which a reader stands that gave up on an element of a list and looked for the
list's end. -/
def afterElement (c : Cursor) : Nat :=
  let c := c.skipSpace
  match c.rest with
  | ']' :: _ => c.offset + 1
  | ',' :: rest => (skipSpaceFrom (c.offset + 1) rest).offset
  | _ => c.offset

def afterMember (c : Cursor) : Nat :=
  let c := c.skipSpace
  match c.rest with
  | '\x7d' :: _ => c.offset + 1
  | _ => c.offset

end Cursor

/-- A line and a column, which counts bytes, both as they are shown. -/
structure Position where
  line : Nat
  column : Nat
  deriving DecidableEq, Repr

namespace Position

def advance (p : Position) : (bytes : Nat) → List Char → Position
  | 0, _ | _, [] => p
  | bytes + 1, c :: rest =>
    if c = '\n' then advance ⟨p.line + 1, 0⟩ bytes rest
    else
      let size := min c.utf8Size (bytes + 1)
      advance ⟨p.line, p.column + size⟩ (bytes + 1 - c.utf8Size) rest

def ofOffset (text : String) (offset : Nat) : Position := advance ⟨1, 0⟩ offset text.toList

def message (p : Position) : String :=
  " at line " ++ toString p.line ++ " column " ++ toString p.column

end Position

end ColumnFunctions.Json
