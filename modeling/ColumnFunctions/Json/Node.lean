import ColumnFunctions.Json.Numeral
import ColumnFunctions.Json.Quoted

namespace ColumnFunctions.Json

mutual

/-- A value. `stop` is the offset after it and `start` the one of its bracket. A text that stops
being JSON still has a tree, which ends in the fault. -/
inductive Node where
  | null (stop : Nat)
  | bool (b : Bool) (stop : Nat)
  | number (value : Except Issue Number) (stop : Nat)
  | string (text : Except Issue String) (stop : Nat)
  | list (start : Nat) (elements : Elements)
  | object (start : Nat) (members : Members)
  | broken (fault : Fault)

/-- What follows the bracket of a list. `after` is the place of a reader who gave up on the node. -/
inductive Elements where
  | close (stop : Nat)
  | broken (fault : Fault)
  | cons (start : Nat) (node : Node) (after : Nat) (rest : Elements)

/-- What follows the brace of an object. A key is `bare` if no colon follows it. -/
inductive Members where
  | close (stop : Nat)
  | broken (fault : Fault)
  | bare (key : Except Issue String) (afterKey : Nat) (fault : Fault)
  | cons (key : Except Issue String) (afterKey : Nat) (node : Node) (after : Nat) (rest : Members)

end

def breakAt {α : Type} (broken : Fault → α) (f : Fault) : α × Except Fault Cursor :=
  (broken f, .error f)

namespace Node

def readWord : List Char → Cursor → Except Fault Cursor
  | [], c => .ok c
  | _ :: _, ⟨[], offset⟩ => .error (.all .endInValue offset)
  | w :: word, ⟨x :: rest, offset⟩ =>
    if x = w then readWord word ⟨rest, offset + 1⟩ else .error (.all .wordExpected (offset + 1))

def ofWord (word : List Char) (c : Cursor) (node : Nat → Node) : Node × Except Fault Cursor :=
  match readWord word c with
  | .ok c => (node c.offset, .ok c)
  | .error f => breakAt .broken f

def ofNumeral (c : Cursor) : Node × Except Fault Cursor :=
  match Numeral.read c with
  | .error f => breakAt .broken f
  | .ok (n, c) =>
    let value := n.value.mapError fun e ↦ ⟨.numberOutOfRange, c.offset - e.unread⟩
    (.number value c.offset, .ok c)

def ofQuoted (c : Cursor) : Node × Except Fault Cursor :=
  match Quoted.read c with
  | .error f => breakAt .broken f
  | .ok (text, c) => (.string text c.offset, .ok c)

end Node

def givingUp (place : Cursor → Nat) : Except Fault Cursor → Nat
  | .ok c => place c
  | .error f => f.wanted.offset

mutual

def readNode : (fuel : Nat) → Cursor → Node × Except Fault Cursor
  | 0, c => breakAt .broken (.all .endInValue c.offset)
  | fuel + 1, c =>
    let c := c.skipSpace
    match c.rest with
    | [] => breakAt .broken (.all .endInValue c.offset)
    | x :: rest =>
      let next : Cursor := ⟨rest, c.offset + 1⟩
      if x = 'n' then Node.ofWord ['u', 'l', 'l'] next .null
      else if x = 't' then Node.ofWord ['r', 'u', 'e'] next (.bool true)
      else if x = 'f' then Node.ofWord ['a', 'l', 's', 'e'] next (.bool false)
      else if x = '-' ∨ x.isDigit then Node.ofNumeral c
      else if x = '"' then Node.ofQuoted next
      else if x = '[' then
        let (elements, after) := readElements true fuel next
        (.list c.offset elements, after)
      else if x = '\x7b' then
        let (members, after) := readMembers true fuel next
        (.object c.offset members, after)
      else breakAt .broken (.all .valueExpected (c.offset + 1))

def readElements (first : Bool) : (fuel : Nat) → Cursor → Elements × Except Fault Cursor
  | 0, c => breakAt .broken (.all .endInList c.offset)
  | fuel + 1, c =>
    let c := c.skipSpace
    match c.rest with
    | [] => breakAt .broken (.all .endInList c.offset)
    | x :: rest =>
      if x = ']' then (.close (c.offset + 1), .ok ⟨rest, c.offset + 1⟩)
      else if first then readElement fuel c
      else if x = ',' then
        let c := Cursor.skipSpaceFrom (c.offset + 1) rest
        match c.rest with
        | [] => breakAt .broken (.closingAs .trailingCharacters .endInValue c.offset)
        | y :: _ =>
          if y = ']' then
            breakAt .broken (.skippedAs .valueExpected .trailingComma (c.offset + 1))
          else readElement fuel c
      else breakAt .broken (.closingAs .trailingCharacters .listSeparatorExpected (c.offset + 1))

def readElement : (fuel : Nat) → Cursor → Elements × Except Fault Cursor
  | 0, c => breakAt .broken (.all .endInList c.offset)
  | fuel + 1, c =>
    let (node, after) := readNode fuel c
    let (rest, stop) := match after with
      | .ok next => readElements false fuel next
      | .error f => breakAt .broken f
    (.cons c.offset node (givingUp Cursor.afterElement after) rest, stop)

def readMembers (first : Bool) : (fuel : Nat) → Cursor → Members × Except Fault Cursor
  | 0, c => breakAt .broken (.all .endInObject c.offset)
  | fuel + 1, c =>
    let c := c.skipSpace
    match c.rest with
    | [] => breakAt .broken (.all .endInObject c.offset)
    | x :: rest =>
      if x = '\x7d' then (.close (c.offset + 1), .ok ⟨rest, c.offset + 1⟩)
      else if first then readMember fuel c
      else if x = ',' then
        let c := Cursor.skipSpaceFrom (c.offset + 1) rest
        match c.rest with
        | [] => breakAt .broken (.skippedAs .endInObject .endInValue c.offset)
        | y :: _ =>
          if y = '\x7d' then
            breakAt .broken (.skippedAs .keyExpected .trailingComma (c.offset + 1))
          else readMember fuel c
      else breakAt .broken (.all .objectSeparatorExpected (c.offset + 1))

def readMember : (fuel : Nat) → Cursor → Members × Except Fault Cursor
  | 0, c => breakAt .broken (.all .endInObject c.offset)
  | fuel + 1, c =>
    match c.rest with
    | '"' :: rest =>
      match Quoted.read ⟨rest, c.offset + 1⟩ with
      | .error f => breakAt .broken f
      | .ok (key, afterKey) =>
        let c := afterKey.skipSpace
        match c.rest with
        | [] => breakAt (.bare key afterKey.afterMember) (.all .endInObject c.offset)
        | x :: rest =>
          if x = ':' then
            let (node, after) := readNode fuel ⟨rest, c.offset + 1⟩
            let (more, stop) := match after with
              | .ok next => readMembers false fuel next
              | .error f => breakAt .broken f
            (.cons key afterKey.afterMember node (givingUp Cursor.afterMember after) more, stop)
          else
            breakAt (.bare key afterKey.afterMember) (.all .colonExpected (c.offset + 1))
    | _ => breakAt .broken (.all .keyExpected (c.offset + 1))

end

structure Document where
  node : Node
  excess : Option Issue

/-- Every bracket, element and member takes a character, and is looked at in at most three steps. -/
def Document.ofText (text : String) : Document :=
  let c := Cursor.start text
  let (node, after) := readNode (3 * c.rest.length + 3) c
  let excess := match after with
    | .error _ => none
    | .ok c =>
      let c := c.skipSpace
      match c.rest with
      | [] => none
      | _ :: _ => some ⟨.trailingCharacters, c.offset + 1⟩
  ⟨node, excess⟩

end ColumnFunctions.Json
