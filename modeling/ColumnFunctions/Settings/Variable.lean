import ColumnFunctions.Text.Numeral

namespace ColumnFunctions

inductive Setting where
  | text (s : String)
  | table
  | list
  deriving DecidableEq, Repr

namespace Variable

def isNameChar (c : Char) : Bool := c.isAlphanum ∨ c = ' ' ∨ c = '_' ∨ c = '-'

def isSpace (c : Char) : Bool := c = ' ' ∨ c = '\t'

def isIndex (cs : List Char) : Bool :=
  let cs := ((cs.dropWhile isSpace).reverse.dropWhile isSpace).reverse
  match cs with
  | '+' :: _ => false
  | _ =>
    match Text.intOfSigned? cs with
    | some n => Int64.minValue.toInt ≤ n ∧ n ≤ Int64.maxValue.toInt
    | none => false

inductive Step where
  | entry
  | element
  deriving DecidableEq, Repr

def steps? (cs : List Char) : Option (List Step) :=
  match cs with
  | [] => some []
  | '.' :: rest =>
    if rest.takeWhile isNameChar = [] then none
    else (steps? (rest.dropWhile isNameChar)).map (.entry :: ·)
  | '[' :: rest =>
    if ']' ∈ rest ∧ isIndex (rest.takeWhile (· ≠ ']')) then
      (steps? ((rest.dropWhile (· ≠ ']')).drop 1)).map (.element :: ·)
    else none
  | _ => none
termination_by cs.length
decreasing_by
  · have := (List.dropWhile_suffix isNameChar : rest.dropWhile isNameChar <:+ rest).length_le
    simp only [List.length_cons]
    omega
  · have := (List.dropWhile_suffix (· ≠ ']') : rest.dropWhile (· ≠ ']') <:+ rest).length_le
    simp only [List.length_drop, List.length_cons]
    omega

/-- The key of a variable and what the variable gives to it. Capital letters are as good as small
ones. A name that is no path is a key as a whole. -/
def setting (name value : String) : String × Setting :=
  let cs := name.toLower.toList
  let key := String.ofList (cs.takeWhile isNameChar)
  match steps? (cs.dropWhile isNameChar) with
  | some (.entry :: _) => (key, .table)
  | some (.element :: _) => (key, .list)
  | _ => (String.ofList cs, .text value)

end Variable

end ColumnFunctions
