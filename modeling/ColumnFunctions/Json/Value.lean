import ColumnFunctions.Json.Number
import ColumnFunctions.Json.Quoted

namespace ColumnFunctions.Json

inductive Value where
  | null
  | bool (b : Bool)
  | number (n : Number)
  | string (s : String)
  | list (elements : List Value)
  | object (members : List (String × Value))

/-- Gives a key its value. A new key goes to the end; a key that is there keeps its place. -/
def put {α : Type} (key : String) (value : α) : List (String × α) → List (String × α)
  | [] => [(key, value)]
  | (k, v) :: rest => if k = key then (k, value) :: rest else (k, v) :: put key value rest

namespace Value

def ofText? : Option String → Value
  | some s => .string s
  | none => .null

def ofInt (n : Int) : Value := .number (.whole n)

def separated : List (List Char) → List Char
  | [] => []
  | [cs] => cs
  | cs :: rest => cs ++ ',' :: separated rest

mutual

def chars : Value → List Char
  | .null => ['n', 'u', 'l', 'l']
  | .bool true => ['t', 'r', 'u', 'e']
  | .bool false => ['f', 'a', 'l', 's', 'e']
  | .number n => n.text.toList
  | .string s => Quoted.writeChars s
  | .list elements => '[' :: separated (elementChars elements) ++ [']']
  | .object members => '\x7b' :: separated (memberChars members) ++ ['\x7d']

def elementChars : List Value → List (List Char)
  | [] => []
  | v :: rest => v.chars :: elementChars rest

def memberChars : List (String × Value) → List (List Char)
  | [] => []
  | (key, v) :: rest => (Quoted.writeChars key ++ ':' :: v.chars) :: memberChars rest

end

def text (v : Value) : String := String.ofList v.chars

end Value

end ColumnFunctions.Json
